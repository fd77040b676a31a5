import OneWay.Gate.Basic
import OneWay.Number.Scalar

/-! Gates taken apart into elementary ones, in the order in which they act. -/
namespace OneWay.Gate
open Scalar
variable {R : Type} [Scalar R]

def isElementary : Gate R → Bool
  | j _ _ | cz _ | phaseGadget _ _ => true
  | _ => false

def rzGates (q : Int) (angle : R) : List (Gate R) := [j q angle, j q zero]

def hGates (q : Int) : List (Gate R) := [j q zero]

def cnotGates (control target : Int) : List (Gate R) :=
  [j target zero, cz [control, target], j target zero]

def u3Gates (q : Int) (theta phi lambda : R) : List (Gate R) :=
  [j q (lambda - half pi), j q theta, j q (phi + half pi), j q zero]

def crzGates (control target : Int) (angle : R) : List (Gate R) :=
  rzGates target (half angle) ++ cnotGates control target ++
    rzGates target (half (-angle)) ++ cnotGates control target

def tGates (q : Int) : List (Gate R) := rzGates q (pi / ofNat 4)
def tdgGates (q : Int) : List (Gate R) := rzGates q (-pi / ofNat 4)

def toffoliGates (first second target : Int) : List (Gate R) :=
  hGates target ++ cnotGates second target ++ tdgGates target ++ cnotGates first target ++
    tGates target ++ cnotGates second target ++ tdgGates target ++ cnotGates first target ++
    tGates second ++ tGates target ++ hGates target ++ cnotGates first second ++ tGates first ++
    tdgGates second ++ cnotGates first second

/-- Control and target of a gate that reads its first two operands and ignores more. -/
def firstTwo : List Int → Except Fault (Int × Int)
  | a :: b :: _ => .ok (a, b)
  | _ => .error .indexOutOfRange

def exactlyTwo : List Int → Except Fault (Int × Int)
  | [a, b] => .ok (a, b)
  | _ => .error .wrongShape

def exactlyThree : List Int → Except Fault (Int × Int × Int)
  | [a, b, c] => .ok (a, b, c)
  | _ => .error .wrongShape

def expand : Gate R → Except Fault (List (Gate R))
  | g@(j _ _) | g@(cz _) | g@(phaseGadget _ _) => .ok [g]
  | identity q => .ok [j q zero, j q zero]
  | x q => .ok [j q zero, j q pi]
  | y q => .ok [j q (half pi), j q pi, j q (-pi / two), j q zero]
  | z q => .ok (rzGates q pi)
  | h q => .ok (hGates q)
  | s q => .ok (rzGates q (half pi))
  | t q => .ok (tGates q)
  | tdg q => .ok (tdgGates q)
  | rx q angle => .ok [j q zero, j q angle]
  | ry q angle => .ok [j q (half pi), j q (-angle), j q (-pi / two), j q zero]
  | rz q angle => .ok (rzGates q angle)
  | u3 q theta phi lambda => .ok (u3Gates q theta phi lambda)
  | cnot qubits => do
      let (control, target) ← firstTwo qubits
      return cnotGates control target
  | swap qubits => do
      let (a, b) ← exactlyTwo qubits
      return cnotGates a b ++ cnotGates b a ++ cnotGates a b
  | crz qubits angle => do
      let (control, target) ← firstTwo qubits
      return crzGates control target angle
  | crx qubits angle => do
      let (control, target) ← firstTwo qubits
      return hGates target ++ crzGates control target angle ++ hGates target
  | cu3 qubits theta phi lambda => do
      let (control, target) ← exactlyTwo qubits
      return rzGates control (half lambda + half phi) ++ rzGates target (half lambda - half phi) ++
        cnotGates control target ++ u3Gates target (half (-theta)) zero (half (-(phi + lambda))) ++
        cnotGates control target ++ u3Gates target (half theta) phi zero
  | toffoli qubits => do
      let (first, second, target) ← exactlyThree qubits
      return toffoliGates first second target
  | ccz qubits => do
      let (first, second, target) ← exactlyThree qubits
      return hGates target ++ toffoliGates first second target ++ hGates target

end OneWay.Gate
