import OneWay.Flow.Basic

/-! Pauli frames: which nodes owe an X and which a Z, as outcomes of measurements come in. -/
namespace OneWay

structure Frame where
  nodes : NodeSet
  xflow : Table NodeSet
  zflow : Table NodeSet
  x : Table Bool
  z : Table Bool

namespace Frame

def ofSets (nodes : NodeSet) (xflow zflow : Table NodeSet) : Frame :=
  let none := Table.ofList (nodes.toList.map fun n => (n, false))
  ⟨nodes, xflow, zflow, none, none⟩

def ofFlows (nodes : NodeSet) (xflow zflow : Flow) : Except Fault Frame := do
  return ofSets nodes (← xflow.sets) (← zflow.sets)

def children (f : Frame) (n : Int) : NodeSet :=
  (((f.xflow.get? n).getD ∅).union ((f.zflow.get? n).getD ∅)).erase n

/-- A change of a frame. A failure keeps the flips made before it. -/
abbrev Update := ExceptT Fault (StateM Frame)

def toggle (t : Table Bool) (n : Int) : Except Fault (Table Bool) :=
  match t.get? n with
  | some b => .ok (t.set n !b)
  | none => .error .keyAbsent

def flipX (n : Int) : Update Unit := do
  let f ← get
  set { f with x := ← ExceptT.mk (pure (toggle f.x n)) }

def flipZ (n : Int) : Update Unit := do
  let f ← get
  set { f with z := ← ExceptT.mk (pure (toggle f.z n)) }

def flipMeasured (n : Int) : Update Unit := do
  let f ← get
  ((f.xflow.get? n).getD ∅).toList.forM flipX
  ((f.zflow.get? n).getD ∅).toList.forM flipZ

def update (f : Frame) (u : Update Unit) : Except Fault Unit × Frame := StateT.run (ExceptT.run u) f

def owing (t : Table Bool) : NodeSet := .ofList ((t.entries.filter (·.2)).map Prod.fst)

end Frame
end OneWay
