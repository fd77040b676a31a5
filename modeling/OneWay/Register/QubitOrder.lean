import OneWay.Position

/-! Which axis of a register holds which qubit. Qubits are renumbered by changing this list, and the
amplitudes stay where they are. -/
namespace OneWay

structure QubitOrder where
  axes : List Int
  deriving DecidableEq, Repr

namespace QubitOrder

def identity (n : Int) : QubitOrder := ⟨(List.range n.toNat).map Int.ofNat⟩

def size (o : QubitOrder) : Nat := o.axes.length

def add (o : QubitOrder) (count : Int) : QubitOrder :=
  let last : Int := match o.axes with
    | [] => -1
    | first :: rest => rest.foldl max first
  ⟨o.axes ++ (List.range count.toNat).map fun (k : Nat) => last + 1 + k⟩

def remove (o : QubitOrder) (axis : Int) : QubitOrder :=
  ⟨(o.axes.filter (· != axis)).map fun a => if a < axis then a else a - 1⟩

/-- Compares the axes with a list place by place, where a place that is missing holds nothing. -/
def matchesList (o : QubitOrder) (order : List (Option Int)) : Bool :=
  (List.range (max o.axes.length order.length)).all fun (i : Nat) => o.axes[i]? == (order[i]?).join

def reorder (o : QubitOrder) (permutation : List Int) : Except Fault QubitOrder := do
  if permutation.length ≠ o.axes.length then throw .permutationLength
  return ⟨← permutation.mapM (Position.get o.axes)⟩

/-- The qubit on each axis, zero where there is none; a later qubit on the same axis wins. -/
def inverse (o : QubitOrder) : Except Fault (List Int) :=
  o.axes.zipIdx.foldlM (fun qubits (axis, i) => Position.set qubits axis (i : Int))
    (List.replicate o.axes.length 0)

def toAxis (o : QubitOrder) (qubit : Int) : Except Fault Int := Position.get o.axes qubit

def toAxes (o : QubitOrder) (qubits : List Int) : Except Fault (List Int) := qubits.mapM o.toAxis

def toQubit (o : QubitOrder) (axis : Int) : Except Fault Int := do
  Position.get (← o.inverse) axis

def toQubits (o : QubitOrder) (axes : List Int) : Except Fault (List Int) := do
  let qubits ← o.inverse
  axes.mapM (Position.get qubits)

end QubitOrder
end OneWay
