/-! The exact value of a double, sign · mantissa · 2 ^ exponent. Printing and remainders are worked
out on it in integers, so neither rounds on the way. -/
namespace OneWay

structure Dyadic where
  negative : Bool
  mantissa : Nat
  exponent : Int
  deriving DecidableEq, Repr

namespace Dyadic

def ofFloat? (x : Float) : Option Dyadic :=
  let bits := x.toBits.toNat
  let fraction : Nat := bits % Nat.pow 2 52
  let biased : Nat := bits / Nat.pow 2 52 % Nat.pow 2 11
  let negative := bits / Nat.pow 2 63 == 1
  if biased = 2047 then none
  else if biased = 0 then some ⟨negative, fraction, -1074⟩
  else some ⟨negative, Nat.pow 2 52 + fraction, (biased : Int) - 1075⟩

def mantissaAt (d : Dyadic) (exponent : Int) : Nat :=
  d.mantissa * Nat.pow 2 (d.exponent - exponent).toNat

def toFloat (d : Dyadic) : Float :=
  let size := (Float.ofNat d.mantissa).scaleB d.exponent
  if d.negative then -size else size

def rem (x y : Dyadic) : Dyadic :=
  let exponent := min x.exponent y.exponent
  ⟨x.negative, x.mantissaAt exponent % y.mantissaAt exponent, exponent⟩

end Dyadic

/-- The remainder of `x` by `y` with the sign of `y`. It is not a number if `x` is not finite or
`y` is zero. -/
def floorRem (x y : Float) : Float :=
  match Dyadic.ofFloat? x, Dyadic.ofFloat? y with
  | some dx, some dy =>
      if dy.mantissa = 0 then 0.0 / 0.0
      else
        let r := (dx.rem dy).toFloat
        if r == 0 then 0.0
        else if dx.negative == dy.negative then r
        else r + y
  | some _, none => if y.isNaN then y else x
  | none, _ => 0.0 / 0.0

end OneWay
