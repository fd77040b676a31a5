import OneWay.Basis
import OneWay.Number.Decimal
import OneWay.Number.Matrix

/-! Unitaries of one qubit by their Euler angles: a turn by `alpha` about z, one by `beta` about x, one
by `gamma` about z. `ofMatrix` finds the angles of a matrix up to its phase. -/
namespace OneWay
open Scalar

structure LocalUnitary (R : Type) where
  alpha : R
  beta : R
  gamma : R
  deriving DecidableEq, Repr

namespace LocalUnitary
variable {R : Type} [Scalar R]

def rz (angle : R) : Matrix R :=
  .ofRows [[Amplitude.cis (half (-angle)), 0], [0, Amplitude.cis (half angle)]]

def rx (angle : R) : Except Fault (Matrix R) :=
  if infinite (half angle) then .error .infiniteAngle
  else
    let c : Amplitude R := .ofReal (cos (half angle))
    let s : Amplitude R := -Amplitude.unit * .ofReal (sin (half angle))
    .ok (.ofRows [[c, s], [s, c]])

def matrix (u : LocalUnitary R) : Except Fault (Matrix R) := do
  let middle ← rx u.beta
  return rz u.gamma * middle * rz u.alpha

def conjugate (u : LocalUnitary R) : LocalUnitary R := ⟨-u.gamma, -u.beta, -u.alpha⟩

def quotient (a b : Amplitude R) : Except Fault (Amplitude R) :=
  if b.isZero then .error .divisionByZero else .ok (a / b)

def ofEntries (u00 u01 u10 u11 : Amplitude R) : Except Fault (LocalUnitary R) := do
  if u10.nearZero then return ⟨zero, zero, two * u11.arg⟩
  else if u11.nearZero then
    let turned ← quotient u01 (-Amplitude.unit)
    return ⟨zero, pi, two * turned.arg⟩
  else
    let plus := (← quotient u11 u00).arg
    let minus := (← quotient u10 u01).arg
    let c := (← quotient u11 (Amplitude.cis (half plus))).re
    let s := (← quotient u10 (-Amplitude.unit * Amplitude.cis (half minus))).re
    return ⟨half (plus - minus), two * atan2 s c, half (plus + minus)⟩

def special (m : Matrix R) : Except Fault (Matrix R) :=
  if m.rows ≠ m.cols ∨ m.rows = 0 then .error .notSquare
  else
    let phase := m.det.sqrt
    .ok (m.map (· / phase))

def ofMatrix (m : Matrix R) : Except Fault (LocalUnitary R) := do
  let u ← special m
  if u.rows < 2 then throw .indexOutOfRange
  ofEntries (u.entry 0 0) (u.entry 0 1) (u.entry 1 0) (u.entry 1 1)

def text (u : LocalUnitary Float) : String :=
  "alpha: " ++ Decimal.fixed 10 u.alpha ++ ", beta: " ++ Decimal.fixed 10 u.beta ++
    ", gamma: " ++ Decimal.fixed 10 u.gamma

end LocalUnitary

end OneWay
