import OneWay.Fault
import OneWay.Ket

/-! Bases of one-qubit measurements: an angle in one of the three planes of the sphere, or one end of
one of its axes. A label that names no plane or axis is kept as it was given, and refused where it
would have to be understood. -/
namespace OneWay
open Scalar

inductive Plane where
  | xy
  | yz
  | xz
  | other (label : String)
  deriving DecidableEq, Repr

def Plane.name : Plane → String
  | .xy => "XY"
  | .yz => "YZ"
  | .xz => "XZ"
  | .other label => label

def Plane.ofName : String → Plane
  | "XY" => .xy
  | "YZ" => .yz
  | "XZ" => .xz
  | label => .other label

inductive Axis where
  | x
  | y
  | z
  | other (label : String)
  deriving DecidableEq, Repr

def Axis.name : Axis → String
  | .x => "X"
  | .y => "Y"
  | .z => "Z"
  | .other label => label

def Axis.ofName : String → Axis
  | "X" => .x
  | "Y" => .y
  | "Z" => .z
  | label => .other label

inductive Sign where
  | plus
  | minus
  | other (label : String)
  deriving DecidableEq, Repr

def Sign.name : Sign → String
  | .plus => "PLUS"
  | .minus => "MINUS"
  | .other label => label

def Sign.ofName : String → Sign
  | "PLUS" => .plus
  | "MINUS" => .minus
  | label => .other label

/-- The other end of an axis; whatever is not its plus end counts as the minus end. -/
def Sign.flip : Sign → Sign
  | .plus => .minus
  | _ => .plus

inductive Basis (R : Type) where
  | planar (plane : Plane) (angle : R)
  | axial (axis : Axis) (sign : Sign)
  deriving DecidableEq, Repr

namespace Basis
variable {R : Type} [Scalar R]

def plane : Basis R → Except Fault Plane
  | .planar plane _ => .ok plane
  | .axial .x _ => .ok .xy
  | .axial .y _ => .ok .yz
  | .axial .z _ => .ok .xz
  | .axial (.other _) _ => .error .axisUnknown

def angle : Basis R → Except Fault R
  | .planar _ angle => .ok angle
  | .axial .y .plus => .ok (half pi)
  | .axial .y _ => .ok (ofNat 3 * pi / two)
  | .axial (.other _) _ => .error .axisUnknown
  | .axial _ .plus => .ok zero
  | .axial _ _ => .ok pi

def flip : Basis R → Basis R
  | .planar plane angle => .planar plane (angle + pi)
  | .axial axis sign => .axial axis sign.flip

def conjugate : Basis R → Except Fault (Basis R)
  | .planar .xy angle => .ok (.planar .xy (-angle))
  | .planar .yz angle => .ok (.planar .yz (-angle))
  | .planar .xz angle => .ok (.planar .xz angle)
  | .planar (.other _) _ => .error .planeUnknown
  | .axial .y sign => .ok (.axial .y sign.flip)
  | .axial axis sign => .ok (.axial axis sign)

def vectorAt : Plane → R → Except Fault (Ket R)
  | .xy, angle =>
      let scale : Amplitude R := .ofReal (sqrt two)
      .ok ⟨1 / scale, Amplitude.cis angle / scale⟩
  | .yz, angle =>
      if infinite (half angle) then .error .infiniteAngle
      else .ok ⟨.ofReal (cos (half angle)), Amplitude.unit * .ofReal (sin (half angle))⟩
  | .xz, angle =>
      if infinite (half angle) then .error .infiniteAngle
      else .ok ⟨.ofReal (cos (half angle)), .ofReal (sin (half angle))⟩
  | .other _, _ => .error .planeUnknown

def vector (basis : Basis R) : Except Fault (Ket R) := do
  vectorAt (← basis.plane) (← basis.angle)

def default : Basis R := .planar .xy zero

end Basis
end OneWay
