import OneWay.Number.Scalar

/-! Complex numbers over a scalar: amplitudes of states and entries of operators. -/
namespace OneWay

structure Amplitude (R : Type) where
  re : R
  im : R
  deriving DecidableEq, Repr

namespace Amplitude
variable {R : Type} [Scalar R]
open Scalar

def ofReal (x : R) : Amplitude R := ⟨x, zero⟩

instance : Zero (Amplitude R) := ⟨ofReal zero⟩
instance : One (Amplitude R) := ⟨ofReal one⟩
instance : Inhabited (Amplitude R) := ⟨0⟩

def unit : Amplitude R := ⟨zero, one⟩

instance : Add (Amplitude R) := ⟨fun a b => ⟨a.re + b.re, a.im + b.im⟩⟩
instance : Sub (Amplitude R) := ⟨fun a b => ⟨a.re - b.re, a.im - b.im⟩⟩
instance : Neg (Amplitude R) := ⟨fun a => ⟨-a.re, -a.im⟩⟩
instance : Mul (Amplitude R) :=
  ⟨fun a b => ⟨a.re * b.re - a.im * b.im, a.re * b.im + a.im * b.re⟩⟩

/-- The quotient, scaled by the larger part of the divisor so that no square overflows. Both parts
are divided by zero if the divisor is zero. -/
def div (a b : Amplitude R) : Amplitude R :=
  if le (abs b.im) (abs b.re) then
    if eq b.re zero && eq b.im zero then ⟨a.re / abs b.re, a.im / abs b.re⟩
    else
      let ratio := b.im / b.re
      let size := b.re + b.im * ratio
      ⟨(a.re + a.im * ratio) / size, (a.im - a.re * ratio) / size⟩
  else
    let ratio := b.re / b.im
    let size := b.re * ratio + b.im
    ⟨(a.re * ratio + a.im) / size, (a.im * ratio - a.re) / size⟩

instance : Div (Amplitude R) := ⟨div⟩

def conj (a : Amplitude R) : Amplitude R := ⟨a.re, -a.im⟩

def cis (angle : R) : Amplitude R := ⟨cos angle, sin angle⟩

def abs (a : Amplitude R) : R := hypot a.re a.im
def arg (a : Amplitude R) : R := atan2 a.im a.re
def normSq (a : Amplitude R) : R := a.re * a.re + a.im * a.im

def isZero (a : Amplitude R) : Bool := eq a.re zero && eq a.im zero
def finite (a : Amplitude R) : Bool := Scalar.finite a.re && Scalar.finite a.im

/-- The square root in the right half plane; on the negative axis the one above. -/
def sqrt (a : Amplitude R) : Amplitude R :=
  if a.isZero then 0
  else
    let large := Scalar.sqrt ((Scalar.abs a.re + a.abs) / two)
    let small := Scalar.abs a.im / (two * large)
    let signed (x : R) : R := if le zero a.im then x else -x
    if le zero a.re then ⟨large, signed small⟩ else ⟨small, signed large⟩

def nearZero (a : Amplitude R) : Bool := le a.abs absTol || a.isZero

/-- Equal up to the tolerances, the second value being the yardstick. -/
def near (a b : Amplitude R) : Bool :=
  (b.finite && le (a - b).abs (absTol + relTol * b.abs)) || (eq a.re b.re && eq a.im b.im)

end Amplitude

def norm {R : Type} [Scalar R] (v : List (Amplitude R)) : R :=
  Scalar.sqrt ((v.map Amplitude.normSq).foldl (· + ·) Scalar.zero)

end OneWay
