import OneWay.LocalClifford
import OneWay.NodeSet
import OneWay.Table

/-! Open graphs: nodes joined by edges, some of them inputs or outputs of logical qubits, the others
measured in a basis. Nodes are numbered as they are added and a number is never used again. A local
Clifford may wait on an input or output. -/
namespace OneWay

structure Graph (R : Type) [Scalar R] where
  next : Int
  nodes : NodeSet
  adjacency : Table NodeSet
  inputs : Table Int
  outputs : Table Int
  bases : Table (Basis R)
  cliffords : Table (LocalClifford R)

namespace Graph
variable {R : Type} [Scalar R]

def empty : Graph R := ⟨0, ∅, ∅, ∅, ∅, ∅, ∅⟩

def inputNodes (g : Graph R) : NodeSet := .ofList g.inputs.keys

def outputNodes (g : Graph R) : NodeSet := .ofList g.outputs.keys

def innerNodes (g : Graph R) : NodeSet := g.nodes.diff g.outputNodes

def adjacent (g : Graph R) (n : Int) : NodeSet := (g.adjacency.get? n).getD ∅

def edges (g : Graph R) : List (Int × Int) :=
  (NodeSet.ofList g.adjacency.keys).toList.flatMap fun a =>
    ((g.adjacent a).filter (a < ·)).toList.map fun b => (a, b)

def requireNode (g : Graph R) (n : Int) : Except Fault Unit :=
  if n ∈ g.nodes then .ok () else .error (.nodeAbsent n)

def row (g : Graph R) (n : Int) : Except Fault NodeSet :=
  match g.adjacency.get? n with
  | some s => .ok s
  | none => .error .keyAbsent

def neighbors (g : Graph R) (n : Int) : Except Fault NodeSet := do
  g.requireNode n
  g.row n

def checkBases (g : Graph R) : Except Fault Unit :=
  match g.innerNodes.toList.find? fun n => !g.bases.contains n with
  | some n => .error (.basisMissing n)
  | none => .ok ()

def isCanonical (g : Graph R) : Bool :=
  g.inputs.size == g.outputs.size && g.cliffords.isEmpty &&
    g.innerNodes.toList.all fun n => g.bases.contains n

def addNode (g : Graph R) : Int × Graph R :=
  (g.next, { g with
    next := g.next + 1
    nodes := g.nodes.insert g.next
    adjacency := g.adjacency.set g.next ∅ })

def setAdjacent (g : Graph R) (n : Int) (s : NodeSet) : Graph R :=
  { g with adjacency := g.adjacency.set n s }

def addEdge (g : Graph R) (a b : Int) : Except Fault (Graph R) := do
  g.requireNode a
  g.requireNode b
  let back ← g.row b
  let forth ← g.row a
  if a ∈ back ∨ b ∈ forth then throw (.edgePresent a b)
  if a = b then throw .selfLoop
  return (g.setAdjacent a (forth.insert b)).setAdjacent b (back.insert a)

def removeEdge (g : Graph R) (a b : Int) : Except Fault (Graph R) := do
  g.requireNode a
  g.requireNode b
  let back ← g.row b
  let forth ← g.row a
  if a ∉ back ∨ b ∉ forth then throw .edgeAbsent
  let g := g.setAdjacent a (forth.erase b)
  return g.setAdjacent b ((← g.row b).erase a)

def detach (n : Int) (g : Graph R) (m : Int) : Except Fault (Graph R) := do
  return g.setAdjacent m ((← g.row m).erase n)

/-- Takes away a node with all that was said of it, and with its edges, which only its neighbours are asked
for. Inputs stay. -/
def removeNode (g : Graph R) (n : Int) : Except Fault (Graph R) := do
  g.requireNode n
  if g.inputs.contains n then throw .inputRemoved
  let g ← (← g.row n).toList.foldlM (detach n) g
  return { g with
    nodes := g.nodes.erase n
    adjacency := g.adjacency.erase n
    outputs := g.outputs.erase n
    bases := g.bases.erase n
    cliffords := g.cliffords.erase n }

def registerInput (g : Graph R) (n : Int) : Except Fault (Int × Graph R) := do
  g.requireNode n
  if g.inputs.contains n then throw .inputTwice
  let q : Int := g.inputs.size
  return (q, { g with inputs := g.inputs.set n q })

/-- Makes a node the output of a logical qubit. Only too large a number is refused. -/
def registerOutput (g : Graph R) (n q : Int) : Except Fault (Graph R) := do
  g.requireNode n
  if g.outputs.contains n then throw .outputTwice
  if g.bases.contains n then throw .outputMeasured
  if (g.inputs.size : Int) ≤ q then throw .logicalAbsent
  if q ∈ g.outputs.values then throw .logicalTaken
  return { g with outputs := g.outputs.set n q }

def assignBasis (g : Graph R) (n : Int) (basis : Basis R) : Except Fault (Graph R) := do
  g.requireNode n
  if g.outputs.contains n then throw .basisOnOutput
  return { g with bases := g.bases.set n basis }

def oddNeighbors (g : Graph R) (s : NodeSet) : Except Fault NodeSet :=
  s.toList.foldlM (fun odd n => do return odd.symmDiff (← g.neighbors n)) ∅

end Graph

def bipartite (a b : NodeSet) : Except Fault (List (Int × Int)) :=
  if (a.inter b).isEmpty then
    let pairs := a.toList.flatMap fun m => b.toList.map fun n => (min m n, max m n)
    .ok (pairs.mergeSort fun p q => p.1 < q.1 || (p.1 == q.1 && p.2 ≤ q.2))
  else .error .sidesOverlap

end OneWay
