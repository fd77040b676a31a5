import OneWay.Angle
import OneWay.Basis

/-! Points of the sphere that states of one qubit stand for, and the measurement plane through a
point. -/
namespace OneWay
open Scalar

structure Bloch (R : Type) where
  theta : R
  phi : R
  deriving DecidableEq, Repr

namespace Bloch
variable {R : Type} [Scalar R]

def normalize (v : List (Amplitude R)) : List (Amplitude R) :=
  let length : Amplitude R := .ofReal (norm v)
  v.map (· / length)

def ofKet (k : Ket R) : Bloch R :=
  if k.zero.nearZero then ⟨pi, k.one.arg⟩
  else
    let phase := Amplitude.cis k.zero.arg
    let v0 := k.zero / phase
    let v1 := k.one / phase
    let phi := if v1.nearZero then zero else v1.arg
    ⟨two * atan2 (v1 / Amplitude.cis phi).re v0.re, phi⟩

def ofVector (v : List (Amplitude R)) : Except Fault (Bloch R) :=
  match normalize v with
  | v0 :: v1 :: _ => .ok (ofKet ⟨v0, v1⟩)
  | _ => .error .indexOutOfRange

/-- The plane through a point, and the angle of the point in it. A meridian at a quarter turn is
tried first, then the equator. -/
def planar (b : Bloch R) : Except Fault (Plane × R) :=
  if Angle.isClifford b.phi angleTol then
    if Angle.isClifford (half b.phi) angleTol then
      .ok (.xz, if Angle.near b.phi pi angleTol then -b.theta else b.theta)
    else
      .ok (.yz, if Angle.near b.phi (ofNat 3 * pi / two) angleTol then -b.theta else b.theta)
  else if Angle.isClifford b.theta angleTol && !Angle.isClifford (half b.theta) angleTol then
    .ok (.xy, if Angle.near b.theta (ofNat 3 * pi / two) angleTol then b.phi + pi else b.phi)
  else .error .offPlanes

end Bloch

def Basis.ofVector {R : Type} [Scalar R] (v : List (Amplitude R)) : Except Fault (Plane × R) := do
  (← Bloch.ofVector v).planar

end OneWay
