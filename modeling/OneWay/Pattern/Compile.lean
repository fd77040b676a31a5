import OneWay.Flow.Focus
import OneWay.Pattern.Basic
import OneWay.Schedule.Basic

/-! Patterns from graphs. Without a schedule all nodes are prepared, then all edges made, then nodes
measured in the order of their dependencies. With one, each slot makes the edges its measurements need,
measures, and then prepares. -/
namespace OneWay.Graph
variable {R : Type} [Scalar R]

def measurement (g : Graph R) (n : Int) : Except Fault (Command R) := do
  return .measure n (← g.basisAt n)

def unscheduled (g : Graph R) (order : List Int) : Except Fault (List (Command R)) := do
  let prepared := (g.nodes.diff g.inputNodes).toList.map Command.prepare
  let entangled := g.edges.map fun e => Command.entangle e.1 e.2
  let measured ← (order.filter fun n => !g.outputs.contains n).mapM g.measurement
  return prepared ++ entangled ++ measured

def entangleNode (g : Graph R) (made : List (Int × Int)) (n : Int) :
    Except Fault (List (Int × Int)) := do
  let fresh := (← g.neighbors n).toList.filter fun m => (n, m) ∉ made ∧ (m, n) ∉ made
  return made ++ fresh.map fun m => (n, m)

def slot (g : Graph R) (made : List (Int × Int)) (prepare measure : NodeSet) :
    Except Fault (List (Command R) × List (Int × Int)) := do
  let all ← measure.toList.foldlM g.entangleNode made
  let entangled := (all.drop made.length).map fun e => Command.entangle e.1 e.2
  let measured ← measure.toList.mapM g.measurement
  return (entangled ++ measured ++ prepare.toList.map Command.prepare, all)

def scheduled (g : Graph R) (made : List (Int × Int)) :
    List (NodeSet × NodeSet) → Except Fault (List (Command R))
  | [] => .ok []
  | (prepare, measure) :: rest => do
      let (commands, made) ← g.slot made prepare measure
      return commands ++ (← g.scheduled made rest)

def corrections (g : Graph R) : List (Command R) :=
  g.outputs.keys.map Command.correctX ++ g.outputs.keys.map Command.correctZ

def zCorrections (g : Graph R) (xflow : Flow) : Option Flow → Except Fault Flow
  | some z => .ok z
  | none => do
      let z ← xflow.entries.foldlM
        (fun (t : Table NodeSet) e => do return t.set e.1 (← g.oddNeighbors (← e.2.asSet))) ∅
      return .ofSets z

def compile (g : Graph R) (xflow : Flow) (zflow : Option Flow) (schedule : Option Schedule)
    (correctOutputs : Bool) : Except Fault (Pattern R) := do
  unless g.isCanonical do throw .notCanonical
  let zflow ← g.zCorrections xflow zflow
  g.checkFlow xflow (some zflow)
  let frame ← Frame.ofFlows g.nodes xflow zflow
  let order ← (g.dependencies frame.xflow frame.zflow).order
  let commands ← match schedule with
    | none => g.unscheduled order.reverse
    | some s => g.scheduled [] s.timeline
  let corrections := if correctOutputs then g.corrections else []
  return ⟨g.inputs, g.outputs, commands ++ corrections, frame⟩

end OneWay.Graph
