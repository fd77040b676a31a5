import OneWay.Graph.Basic

/-! Joining two graphs in canonical form, one after the other or side by side. Nodes are numbered
afresh, those of the first graph before those of the second. -/
namespace OneWay

structure Composition (R : Type) [Scalar R] where
  graph : Graph R
  first : Table Int
  second : Table Int

namespace Graph
variable {R : Type} [Scalar R]

def lookUp (t : Table Int) (k : Int) : Except Fault Int :=
  match t.get? k with
  | some v => .ok v
  | none => .error .keyAbsent

def copyNode (source : Graph R) (state : Graph R × Table Int) (n : Int) : Graph R × Table Int :=
  let (copy, g) := state.1.addNode
  let g := match source.bases.get? n with
    | some basis => { g with bases := g.bases.set copy basis }
    | none => g
  (g, state.2.set n copy)

def copyNodes (source target : Graph R) (nodes : NodeSet) : Graph R × Table Int :=
  nodes.toList.foldl (copyNode source) (target, ∅)

def copyEdges (source : Graph R) (names : Table Int) (target : Graph R) :
    Except Fault (Graph R) :=
  source.edges.foldlM (fun g e => do g.addEdge (← lookUp names e.1) (← lookUp names e.2)) target

def copyInputs (source : Graph R) (names : Table Int) (target : Graph R) :
    Except Fault (Graph R × Table Int) :=
  source.inputs.byValue.foldlM (fun (state : Graph R × Table Int) e => do
    let (q, g) ← state.1.registerInput (← lookUp names e.1)
    return (g, state.2.set e.2 q)) (target, ∅)

def copyOutputs (source : Graph R) (names : Table Int) (rename : Int → Except Fault Int)
    (target : Graph R) : Except Fault (Graph R) :=
  source.outputs.entries.foldlM
    (fun g e => do g.registerOutput (← lookUp names e.1) (← rename e.2)) target

def requireCanonical (first second : Graph R) : Except Fault Unit := do
  unless first.isCanonical do throw .firstNotCanonical
  unless second.isCanonical do throw .secondNotCanonical

def identify (first second : Graph R) (names1 names2 : Table Int) : Except Fault (Table Int) :=
  let outputOf := Table.ofList (first.outputs.entries.map fun e => (e.2, e.1))
  second.inputs.entries.foldlM (fun names e => do
    return names.set (← lookUp outputOf e.2) (← lookUp names2 e.1)) names1

def sequential (first second : Graph R) : Except Fault (Composition R) := do
  requireCanonical first second
  if NodeSet.ofList first.outputs.values ≠ NodeSet.ofList second.inputs.values then
    throw .interfacesDiffer
  let (g, kept) := copyNodes first empty first.innerNodes
  let (g, names2) := copyNodes second g second.nodes
  let names1 ← identify first second kept names2
  let (g, _) ← copyInputs first names1 g
  let g ← copyOutputs second names2 .ok g
  let g ← copyEdges first names1 g
  let g ← copyEdges second names2 g
  return ⟨g, names1, names2⟩

def parallel (first second : Graph R) : Except Fault (Composition R) := do
  requireCanonical first second
  let (g, names1) := copyNodes first empty first.nodes
  let (g, names2) := copyNodes second g second.nodes
  let (g, qubits1) ← copyInputs first names1 g
  let (g, qubits2) ← copyInputs second names2 g
  let g ← copyOutputs first names1 (lookUp qubits1) g
  let g ← copyOutputs second names2 (lookUp qubits2) g
  let g ← copyEdges first names1 g
  let g ← copyEdges second names2 g
  return ⟨g, names1, names2⟩

end Graph
end OneWay
