import OneWay.Number.Dyadic

/-! The real numbers that angles and amplitudes are made of. Everything numeric in this library is
written over this interface. Doubles run it; the exact reals, with all tolerances zero, are what its
laws are about. -/
namespace OneWay

class Scalar (R : Type) extends Add R, Sub R, Mul R, Div R, Neg R where
  ofNat : Nat → R
  pi : R
  sqrt : R → R
  sin : R → R
  cos : R → R
  hypot : R → R → R
  /-- The angle of the point with ordinate `y` and abscissa `x`, in that order. -/
  atan2 : R → R → R
  /-- The remainder with the sign of the divisor. -/
  rem : R → R → R
  le : R → R → Bool
  finite : R → Bool
  infinite : R → Bool
  absTol : R
  relTol : R
  angleTol : R

namespace Scalar
variable {R : Type} [Scalar R]

def zero : R := ofNat 0
def one : R := ofNat 1
def two : R := ofNat 2
def turn : R := two * pi
def half (x : R) : R := x / two

def lt (x y : R) : Bool := le x y && !le y x
def eq (x y : R) : Bool := le x y && le y x
def abs (x : R) : R := if le zero x then x else -x

/-- Zero up to a tolerance; zero itself passes whatever the tolerance. -/
def nearZero (tolerance x : R) : Bool := le (abs x) tolerance || eq x zero

end Scalar

/-- The length of a vector, scaled by its larger coordinate so that no square overflows. -/
def floatHypot (x y : Float) : Float :=
  let a := x.abs
  let b := y.abs
  let m := if a < b then b else a
  if a.isInf || b.isInf then Float.ofBits 0x7ff0000000000000
  else if m == 0 then a + b
  else m * Float.sqrt ((a / m) * (a / m) + (b / m) * (b / m))

instance : Scalar Float where
  ofNat := Float.ofNat
  pi := 3.141592653589793
  sqrt := Float.sqrt
  sin := Float.sin
  cos := Float.cos
  hypot := floatHypot
  atan2 := Float.atan2
  rem := floorRem
  le := Float.le
  finite := Float.isFinite
  infinite := Float.isInf
  absTol := 1e-8
  relTol := 1e-5
  angleTol := 1e-9

end OneWay
