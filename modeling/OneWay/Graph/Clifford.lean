import OneWay.Graph.Edit

/-! Local Cliffords on a graph: acting with one on a node, and turning those that wait on inputs and
outputs into chains of measured nodes. -/
namespace OneWay

structure Chain where
  first : Int
  second : Int
  third : Int
  deriving DecidableEq, Repr

namespace Graph
variable {R : Type} [Scalar R]

def storeClifford (g : Graph R) (n : Int) (c : LocalClifford R) : Graph R :=
  { g with cliffords := g.cliffords.set n c }

def takeClifford (n : Int) : Edit R (Option (LocalClifford R)) :=
  Edit.stepWith fun g => .ok (g.cliffords.get? n, { g with cliffords := g.cliffords.erase n })

/-- Acts with a Clifford on a node. On an input or output it joins the one that waits there; on any
other node the basis is turned back by it instead. -/
def applyClifford (n : Int) (c : LocalClifford R) : Edit R Unit := do
  let g ← get
  Edit.lift (g.requireNode n)
  if g.inputs.contains n || g.outputs.contains n then
    let joined ← match ← takeClifford n with
      | some old => Edit.lift (c.after old)
      | none => pure c
    modify fun g => g.storeClifford n joined
  else
    Edit.lift g.checkBases
    let back ← Edit.lift c.conjugate
    match g.bases.get? n with
    | none => Edit.lift (.error .keyAbsent)
    | some basis =>
        let turned ← Edit.lift (back.onBasis basis)
        Edit.assignBasis n turned

def expandInput (input : Int) : Edit R (Int × Option Chain) := do
  match ← takeClifford input with
  | none => return (input, none)
  | some c =>
      let n0 ← Edit.addNode
      let n1 ← Edit.addNode
      let n2 ← Edit.addNode
      Edit.addEdge n0 n1
      Edit.addEdge n1 n2
      Edit.addEdge n2 input
      Edit.assignBasis n0 (.planar .xy c.unitary.alpha)
      Edit.assignBasis n1 (.planar .xy c.unitary.beta)
      Edit.assignBasis n2 (.planar .xy c.unitary.gamma)
      return (n0, some ⟨n0, n1, n2⟩)

def replaced (before : List Int) (after : List (Int × Option Chain)) : List (Int × Chain) :=
  (before.zip after).filterMap fun (n, _, chain) => chain.map fun c => (n, c)

def expandInputs : Edit R (List (Int × Chain)) := do
  let before := (← get).inputs.byValue.map Prod.fst
  let after ← before.mapM expandInput
  modify fun g => { g with inputs := ∅ }
  after.forM fun (n, _) => do
    let _ ← Edit.registerInput n
  return replaced before after

def expandOutput (output : Int) : Edit R (Int × Option Chain) := do
  match ← takeClifford output with
  | none => return (output, none)
  | some c =>
      let n0 ← Edit.addNode
      let n1 ← Edit.addNode
      let n2 ← Edit.addNode
      Edit.addEdge output n0
      Edit.addEdge n0 n1
      Edit.addEdge n1 n2
      Edit.assignBasis output (.planar .xy c.unitary.alpha)
      Edit.assignBasis n0 (.planar .xy c.unitary.beta)
      Edit.assignBasis n1 (.planar .xy c.unitary.gamma)
      return (n2, some ⟨n0, n1, n2⟩)

def expandOutputs : Edit R (List (Int × Chain)) := do
  let before := (← get).outputs.byValue
  let after ← before.mapM fun (n, _) => expandOutput n
  modify fun g => { g with outputs := ∅ }
  (after.zip before).forM fun ((n, _), (_, q)) => Edit.registerOutput n q
  return replaced (before.map Prod.fst) after

def expandCliffords : Edit R (List (Int × Chain) × List (Int × Chain)) := do
  let inputs ← expandInputs
  let outputs ← expandOutputs
  return (inputs, outputs)

end Graph
end OneWay
