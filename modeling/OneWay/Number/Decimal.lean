import OneWay.Number.Dyadic

/-! Decimal text of doubles with a fixed number of places. The exact value is rounded once, and a
half goes to the even neighbour. -/
namespace OneWay.Decimal

/-- The integer nearest to `num / den`; a half goes to the even neighbour. -/
def roundDiv (num den : Nat) : Nat :=
  let quotient := num / den
  let twice := 2 * (num % den)
  if twice > den then quotient + 1
  else if twice < den then quotient
  else if quotient % 2 = 0 then quotient
  else quotient + 1

def scaled (places : Nat) (d : Dyadic) : Nat :=
  if 0 ≤ d.exponent then d.mantissa * Nat.pow 2 d.exponent.toNat * Nat.pow 10 places
  else roundDiv (d.mantissa * Nat.pow 10 places) (Nat.pow 2 (-d.exponent).toNat)

def padded (width n : Nat) : String :=
  let digits := (Nat.repr n).toList
  String.ofList (List.replicate (width - digits.length) '0' ++ digits)

/-- Text with the given number of places. What rounds to zero is written without a sign. -/
def fixed (places : Nat) (x : Float) : String :=
  match Dyadic.ofFloat? x with
  | none => if x.isNaN then "nan" else if x > 0 then "inf" else "-inf"
  | some d =>
      let units := scaled places d
      let digits := padded (places + 1) units
      let whole := digits.toList.length - places
      let sign := if d.negative && units != 0 then "-" else ""
      sign ++ String.ofList (digits.toList.take whole) ++ "." ++
        String.ofList (digits.toList.drop whole)

end OneWay.Decimal
