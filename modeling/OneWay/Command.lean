import OneWay.Basis
import OneWay.Number.Decimal

/-! Commands of measurement patterns. A list of commands may also hold something that is none. -/
namespace OneWay

inductive Command (R : Type) where
  | prepare (node : Int)
  | entangle (a b : Int)
  | measure (node : Int) (basis : Basis R)
  | correctX (node : Int)
  | correctZ (node : Int)
  | unknown
  deriving DecidableEq, Repr

namespace Command

def letter {R : Type} : Command R → String
  | .prepare _ => "N"
  | .entangle _ _ => "E"
  | .measure _ _ => "M"
  | .correctX _ => "X"
  | .correctZ _ => "Z"
  | .unknown => "?"

/-- Planes are written with their kind; a label that names none stands as it is. -/
def planeText : Plane → String
  | .other label => label
  | plane => "Plane." ++ plane.name

def text : Command Float → Except Fault String
  | .prepare n => .ok s!"N: node={n}"
  | .entangle a b => .ok s!"E: nodes=({a}, {b})"
  | .measure n basis => do
      let plane ← basis.plane
      let angle ← basis.angle
      return s!"M: node={n}, plane=" ++ planeText plane ++ ", angle=" ++ Decimal.fixed 10 angle
  | .correctX n => .ok s!"X: node={n}"
  | .correctZ n => .ok s!"Z: node={n}"
  | .unknown => .ok "?"

end Command
end OneWay
