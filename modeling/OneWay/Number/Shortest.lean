import OneWay.Number.Dyadic

/-! Decimal text of doubles with the fewest digits that read back as the same double. -/
namespace OneWay.Decimal

def leading (num den : Nat) : Int :=
  if den ≤ num then ((Nat.repr (num / den)).length : Int) - 1
  else
    let guess := (Nat.repr (den / num)).length
    if den ≤ num * Nat.pow 10 (guess - 1) then 1 - (guess : Int) else -(guess : Int)

def inUnits (num den : Nat) (place : Int) : Nat :=
  if 0 ≤ place then num / (den * Nat.pow 10 place.toNat) else num * Nat.pow 10 (-place).toNat / den

def readsBack (x : Float) (digits : Nat) (place : Int) : Bool :=
  Float.ofScientific (digits * Nat.pow 10 place.toNat) true (-place).toNat == x

def fewest (x : Float) (num den : Nat) : Nat → Nat × Int
  | 0 => (inUnits num den (leading num den - 16), leading num den - 16)
  | left + 1 =>
      let place := leading num den - (16 - left : Nat)
      let low := inUnits num den place
      let unit := Nat.pow 10 place.toNat
      let lowGap := num * Nat.pow 10 (-place).toNat - low * unit * den
      let highGap := (low + 1) * unit * den - num * Nat.pow 10 (-place).toNat
      let candidates := if lowGap ≤ highGap then [low, low + 1] else [low + 1, low]
      match candidates.find? fun digits => readsBack x digits place with
      | some digits => (digits, place)
      | none => fewest x num den left

/-- Positional from 0.0001 up to 10 ^ 16, otherwise with a signed exponent of two digits or more. -/
def layout (digits : List Char) (point : Int) : String :=
  let zeros (n : Int) := List.replicate n.toNat '0'
  if point < -4 ∨ 16 ≤ point then
    let fraction := if digits.length ≤ 1 then [] else '.' :: digits.drop 1
    let size := (Nat.repr point.natAbs).toList
    String.ofList (digits.take 1 ++ fraction ++ ['e', if point < 0 then '-' else '+'] ++
      zeros (2 - size.length) ++ size)
  else if point < 0 then String.ofList ("0.".toList ++ zeros (-point - 1) ++ digits)
  else
    let whole := digits.take (point + 1).toNat ++ zeros (point + 1 - digits.length)
    let fraction := digits.drop (point + 1).toNat
    String.ofList (whole ++ '.' :: if fraction.isEmpty then ['0'] else fraction)

def shortest (x : Float) : String :=
  match Dyadic.ofFloat? x with
  | none => if x.isNaN then "nan" else if x > 0 then "inf" else "-inf"
  | some d =>
      let sign := if d.negative then "-" else ""
      if d.mantissa = 0 then sign ++ "0.0"
      else
        let num := d.mantissa * Nat.pow 2 d.exponent.toNat
        let den := Nat.pow 2 (-d.exponent).toNat
        let (digits, place) := fewest x.abs num den 17
        let shown := (Nat.repr digits).toList
        let kept := (shown.reverse.dropWhile (· == '0')).reverse
        sign ++ layout kept (place + shown.length - 1)

end OneWay.Decimal
