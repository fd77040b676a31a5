import OneWay.Gate.Basic
import OneWay.Number.Matrix

/-! The matrices of gates. Operands index the bits of a row from the most significant down, in the
order in which the gate lists them. -/
namespace OneWay.Gate
open Scalar
variable {R : Type} [Scalar R]

def parity : Nat → Nat → Bool
  | 0, _ => false
  | width + 1, n => xor (n % 2 == 1) (parity width (n / 2))

def controlled (size : Nat) (u : Matrix R) : Matrix R :=
  let free := size - u.rows
  .ofFn size size fun i j =>
    if free ≤ i ∧ free ≤ j then u.entry (i - free) (j - free) else if i = j then 1 else 0

def jMatrix (angle : R) : Matrix R :=
  let scale : Amplitude R := .ofReal (sqrt two)
  .ofRows [[1 / scale, Amplitude.cis angle / scale], [1 / scale, -Amplitude.cis angle / scale]]

def xMatrix : Matrix R := .ofRows [[0, 1], [1, 0]]
def zMatrix : Matrix R := .ofRows [[1, 0], [0, -1]]

def phaseMatrix (phase : Amplitude R) : Matrix R := .ofRows [[1, 0], [0, phase]]

def rxMatrix (angle : R) : Matrix R :=
  let c : Amplitude R := .ofReal (cos (half angle))
  let s : Amplitude R := -Amplitude.unit * .ofReal (sin (half angle))
  .ofRows [[c, s], [s, c]]

def rzMatrix (angle : R) : Matrix R :=
  .ofRows [[Amplitude.cis (half (-angle)), 0], [0, Amplitude.cis (half angle)]]

def u3Matrix (theta phi lambda : R) : Matrix R :=
  let c : Amplitude R := .ofReal (cos (half theta))
  let s : Amplitude R := .ofReal (sin (half theta))
  .ofRows [[c, -Amplitude.cis lambda * s],
    [Amplitude.cis phi * s, Amplitude.cis (phi + lambda) * c]]

def matrix : Gate R → Matrix R
  | j _ angle => jMatrix angle
  | cz _ => controlled 4 zMatrix
  | phaseGadget qubits angle =>
      .diagonal ((List.range (Nat.pow 2 qubits.length)).map fun n =>
        Amplitude.cis (half (if parity qubits.length n then angle else -angle)))
  | identity _ => .identity 2
  | x _ => xMatrix
  | y _ => .ofRows [[0, -Amplitude.unit], [Amplitude.unit, 0]]
  | z _ => zMatrix
  | h _ =>
      let r : Amplitude R := .ofReal (one / sqrt two)
      .ofRows [[r, r], [r, -r]]
  | s _ => phaseMatrix Amplitude.unit
  | t _ => phaseMatrix (Amplitude.cis (pi / ofNat 4))
  | tdg _ => phaseMatrix (Amplitude.cis (-pi / ofNat 4))
  | rx _ angle => rxMatrix angle
  | ry _ angle =>
      let c : Amplitude R := .ofReal (cos (half angle))
      let s : Amplitude R := .ofReal (sin (half angle))
      .ofRows [[c, .ofReal (-sin (half angle))], [s, c]]
  | rz _ angle => rzMatrix angle
  | u3 _ theta phi lambda => u3Matrix theta phi lambda
  | cnot _ => controlled 4 xMatrix
  | swap _ => .ofRows [[1, 0, 0, 0], [0, 0, 1, 0], [0, 1, 0, 0], [0, 0, 0, 1]]
  | crz _ angle => controlled 4 (rzMatrix angle)
  | crx _ angle => controlled 4 (rxMatrix angle)
  | cu3 _ theta phi lambda => controlled 4 (u3Matrix theta phi lambda)
  | toffoli _ => controlled 8 xMatrix
  | ccz _ => controlled 8 zMatrix

end OneWay.Gate
