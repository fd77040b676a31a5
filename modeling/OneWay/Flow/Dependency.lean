import OneWay.Flow.Basic
import OneWay.Graph.Basic

/-! Which outcomes a node waits for. A dependency table lists, for every node, the nodes whose
measurement uses its outcome. -/
namespace OneWay

abbrev Dependency := Table NodeSet

namespace Dependency

/-- Refuses a node that is among the dependants of one of its own dependants. Longer cycles pass.
Dependants are looked at in the order in which they are listed. -/
def checkLists (d : Table (List Int)) : Except Fault Unit :=
  d.entries.forM fun (node, children) => children.forM fun child =>
    match d.get? child with
    | none => .error .keyAbsent
    | some back => if node ∈ back then .error (.cyclePair node child) else .ok ()

def check (d : Dependency) : Except Fault Unit := checkLists (d.mapValues fun _ s => s.toList)

end Dependency

namespace Graph
variable {R : Type} [Scalar R]

def oddSets (g : Graph R) (t : Table NodeSet) : Except Fault (Table NodeSet) :=
  t.entries.foldlM (fun z e => do return z.set e.1 (← g.oddNeighbors e.2)) ∅

def setAt (t : Table NodeSet) (n : Int) : NodeSet := (t.get? n).getD ∅

def dependencies (g : Graph R) (x z : Table NodeSet) : Dependency :=
  .ofList ((g.innerNodes.toList.map fun n => (n, (setAt x n).union ((setAt z n).erase n))) ++
    g.outputNodes.toList.map fun n => (n, ∅))

def dependenciesOf (g : Graph R) (xflow : Flow) (zflow : Option Flow) : Except Fault Dependency := do
  let x ← xflow.toSets .notFlow
  let z ← match zflow with
    | none => g.oddSets x
    | some f => f.toSets .notZFlow
  return g.dependencies x z

def checkFlow (g : Graph R) (xflow : Flow) (zflow : Option Flow) : Except Fault Unit := do
  (← g.dependenciesOf xflow zflow).check

end Graph
end OneWay
