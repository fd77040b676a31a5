import OneWay.Bloch
import OneWay.LocalUnitary

/-! Local unitaries whose angles are quarter turns, and their action on each other and on measurement
bases. -/
namespace OneWay
open Scalar

structure LocalClifford (R : Type) [Scalar R] where
  unitary : LocalUnitary R
  clifford : Angle.isClifford unitary.alpha angleTol ∧ Angle.isClifford unitary.beta angleTol ∧
    Angle.isClifford unitary.gamma angleTol

namespace LocalClifford
variable {R : Type} [Scalar R]

def ofUnitary (u : LocalUnitary R) : Except Fault (LocalClifford R) :=
  if h : Angle.isClifford u.alpha angleTol ∧ Angle.isClifford u.beta angleTol ∧
      Angle.isClifford u.gamma angleTol then .ok ⟨u, h⟩
  else .error .notClifford

def matrix (c : LocalClifford R) : Except Fault (Matrix R) := c.unitary.matrix

def conjugate (c : LocalClifford R) : Except Fault (LocalClifford R) := ofUnitary c.unitary.conjugate

def after (second first : LocalClifford R) : Except Fault (LocalClifford R) := do
  let left ← second.matrix
  let right ← first.matrix
  ofUnitary (← LocalUnitary.ofMatrix (left * right))

def onBasis (c : LocalClifford R) (basis : Basis R) : Except Fault (Basis R) := do
  let m ← c.matrix
  let v ← basis.vector
  let (plane, angle) ← Basis.ofVector (m.mulVec v.toList)
  return .planar plane angle

end LocalClifford
end OneWay
