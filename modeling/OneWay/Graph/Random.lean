import OneWay.Graph.Edit

/-! Random graphs with a flow: rows of nodes, one per logical qubit, joined along the rows, and within
a layer wherever a draw falls below a threshold. -/
namespace OneWay.Graph
open Scalar
variable {R : Type} [Scalar R]

structure Growth where
  flow : Table NodeSet
  draws : Nat

def follow (width : Int) (growth : Growth) (n : Int) : Edit R Growth := do
  Edit.addEdge (n - width) n
  return { growth with flow := growth.flow.set (n - width) (.singleton n) }

def link (threshold : R) (draw : Nat → R) (growth : Growth) (pair : Int × Int) : Edit R Growth := do
  if lt (draw growth.draws) threshold then Edit.addEdge pair.1 pair.2
  return { growth with draws := growth.draws + 1 }

def addInput : Edit R Int := do
  let n ← Edit.addNode
  let q ← Edit.registerInput n
  Edit.assignBasis n Basis.default
  return q

def growLayer (width : Nat) (state : Growth × List Int) (_ : Nat) : Edit R (Growth × List Int) := do
  let n ← Edit.addNode
  Edit.assignBasis n Basis.default
  return (← follow width state.1 n, state.2 ++ [n])

def addLayer (width : Nat) (threshold : R) (draw : Nat → R) (growth : Growth) : Edit R Growth := do
  let (growth, layer) ← (List.range width).foldlM (growLayer width) (growth, [])
  (layer.zip (layer.drop 1)).foldlM (link threshold draw) growth

def addOutput (width : Nat) (growth : Growth) (q : Int) : Edit R Growth := do
  let n ← Edit.addNode
  Edit.registerOutput n q
  follow width growth n

/-- A graph of `depth` layers, but at least two, with its flow. -/
def random (width depth : Int) (threshold : R) (draw : Nat → R) : Edit R (Table NodeSet) := do
  let width := width.toNat
  let qubits ← (List.range width).mapM fun _ => addInput
  let growth ← (List.range (depth - 2).toNat).foldlM
    (fun growth _ => addLayer width threshold draw growth) ⟨∅, 0⟩
  let growth ← qubits.foldlM (addOutput width) growth
  return growth.flow

end OneWay.Graph
