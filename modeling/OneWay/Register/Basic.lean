import OneWay.Basis
import OneWay.Gate.Matrix
import OneWay.Register.QubitOrder
import OneWay.Register.Tensor

/-! Registers of qubits: amplitudes, and the order of the qubits on their axes. -/
namespace OneWay

structure Register (R : Type) where
  tensor : Tensor R
  order : QubitOrder

namespace Register
variable {R : Type} [Scalar R]

def ofTensor (t : Tensor R) : Register R := ⟨t, .identity t.axes⟩

def ofAmps (amps : List (Amplitude R)) : Except Fault (Register R) := do
  return ofTensor (← Tensor.ofList amps)

/-- The register without qubits that nothing was put into; its one amplitude is zero. -/
def blank : Register R := ofTensor (Tensor.ofFn 0 fun _ => 0)

def plus (n : Int) : Except Fault (Register R) :=
  if n < 0 then .error .negativeQubits
  else
    let amp : Amplitude R := .ofReal (Scalar.one / Scalar.sqrt (Scalar.ofNat (Nat.pow 2 n.toNat)))
    .ok (ofTensor (Tensor.ofFn n.toNat fun _ => amp))

def size (r : Register R) : Nat := r.tensor.axes

/-- The amplitudes by qubit: as they are stored while every qubit is on its own axis, otherwise moved
by the inverse of the order. -/
def state (r : Register R) : Except Fault (Tensor R) := do
  if r.order = .identity r.tensor.axes then return r.tensor
  else r.tensor.transpose (← r.order.inverse)

def copy (r : Register R) : Except Fault (Register R) := do return ofTensor (← r.state)

def product (a b : Register R) : Except Fault (Register R) := do
  return ofTensor ((← a.state).interleave (← b.state))

def axesOf (r : Register R) (qubits : List Int) : Except Fault (List Nat) := do
  return (← r.order.toAxes qubits).map Int.toNat

def requireFit (op : Matrix R) (axes : List Nat) : Except Fault Unit :=
  if op.entries.size = Nat.pow 4 axes.length ∧ axes.Nodup then .ok () else .error .wrongShape

def evolve (r : Register R) (op : Matrix R) (qubits : List Int) : Except Fault (Register R) := do
  let axes ← r.axesOf qubits
  requireFit op axes
  let back := Tensor.placesByValue (Tensor.forward r.size axes)
  return { r with tensor := ← (r.tensor.contract op axes).transpose (back.map Int.ofNat) }

def entangle (r : Register R) (a b : Int) : Except Fault (Register R) :=
  r.evolve (Gate.controlled 4 Gate.zMatrix) [a, b]

def measure (r : Register R) (qubit : Int) (basis : Basis R) (one : Bool) :
    Except Fault (Register R) := do
  let axis ← r.order.toAxis qubit
  let v ← (if one then basis.flip else basis).vector
  return ⟨(r.tensor.project axis.toNat v).normalize, r.order.remove axis⟩

def add (r : Register R) (count : Int) : Except Fault (Register R) :=
  if count < 0 then .error .negativeCount
  else .ok ⟨r.tensor.extend count.toNat, r.order.add count⟩

def normalize (r : Register R) : Register R := { r with tensor := r.tensor.normalize }

def reorder (r : Register R) (permutation : List Int) : Except Fault (Register R) := do
  return { r with order := ← r.order.reorder permutation }

def norm (r : Register R) : R := r.tensor.length

def expectation (r : Register R) (op : Matrix R) (qubits : List Int) : Except Fault R := do
  match op.isHermitian? with
  | none => throw .wrongShape
  | some false => throw .notHermitian
  | some true =>
      let axes ← r.axesOf qubits
      requireFit op axes
      let moved ← r.tensor.transpose ((Tensor.forward r.size axes).map Int.ofNat)
      let image := moved.contract op (List.range axes.length)
      return (moved.inner image).re / (moved.inner moved).re

end Register
end OneWay
