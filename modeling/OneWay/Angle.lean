import OneWay.Number.Scalar

/-! Angles up to whole turns. -/
namespace OneWay.Angle
open Scalar
variable {R : Type} [Scalar R]

def distance (angle target : R) : R :=
  let d := rem (angle - target) turn
  if lt pi d then turn - d else d

def near (angle target tolerance : R) : Bool := nearZero tolerance (distance angle target)

def quarters : List R := [zero, half pi, pi, ofNat 3 * pi / two]

def isClifford (angle tolerance : R) : Bool :=
  quarters.any fun target => near (rem angle turn) target tolerance

end OneWay.Angle
