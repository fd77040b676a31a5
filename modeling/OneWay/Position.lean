import OneWay.Fault

/-! Positions in lists: from zero up, or from minus one down when counted from the end. -/
namespace OneWay.Position
variable {α : Type}

def index? (length : Nat) (i : Int) : Option Nat :=
  let j := if i < 0 then i + length else i
  if 0 ≤ j ∧ j < length then some j.toNat else none

def get (xs : List α) (i : Int) : Except Fault α :=
  match (index? xs.length i).bind fun j => xs[j]? with
  | some x => .ok x
  | none => .error .indexOutOfRange

def set (xs : List α) (i : Int) (x : α) : Except Fault (List α) :=
  match index? xs.length i with
  | some j => .ok (xs.set j x)
  | none => .error .indexOutOfRange

def clip (length : Nat) (low high i : Int) : Int :=
  let j := if i < 0 then i + length else i
  if j < low then low else if high < j then high else j

/-- Every `step`-th item from `start` up to but without `stop`; bounds that are not given are the ends
of the list, in the direction of the step. -/
def slice (xs : List α) (start stop step : Option Int) : Except Fault (List α) :=
  let length := xs.length
  let step := step.getD 1
  if step = 0 then .error .stepZero
  else
    let low : Int := if 0 < step then 0 else -1
    let high : Int := if 0 < step then length else (length : Int) - 1
    let first := (start.map (clip length low high)).getD (if 0 < step then low else high)
    let last := (stop.map (clip length low high)).getD (if 0 < step then high else low)
    let span := if 0 < step then last - first else first - last
    let count := if span ≤ 0 then 0 else ((span - 1) / step.natAbs + 1).toNat
    .ok ((List.range count).filterMap fun (k : Nat) => xs[(first + k * step).toNat]?)

end OneWay.Position
