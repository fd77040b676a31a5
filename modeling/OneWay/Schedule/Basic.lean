import OneWay.Flow.Dependency

/-! Schedules: in which time slot each node is prepared and measured. Inputs need no preparation,
outputs no measurement; a node without a time is not scheduled yet. -/
namespace OneWay

abbrev Times := Table (Option Int)

structure Schedule where
  dependencies : Dependency
  prepare : Times
  measure : Times

namespace Times

def restrict (t : Times) (nodes : NodeSet) : Times :=
  .ofList (nodes.toList.map fun n => (n, (t.get? n).getD none))

def known (t : Times) : List Int := t.values.filterMap id

def atTime (t : Times) (time : Int) : NodeSet :=
  .ofList ((t.entries.filter fun e => e.2 == some time).map Prod.fst)

def latest (t : Times) : Int :=
  match t.known with
  | [] => 0
  | first :: rest => rest.foldl max first

end Times

namespace Schedule
variable {R : Type} [Scalar R]

def toPrepare (g : Graph R) : NodeSet := g.nodes.diff g.inputNodes

def toMeasure (g : Graph R) : NodeSet := g.nodes.diff g.outputNodes

def ofFlow (g : Graph R) (xflow : Flow) (zflow : Option Flow) : Except Fault Schedule := do
  let d ← g.dependenciesOf xflow zflow
  return ⟨d, Times.restrict ∅ (toPrepare g), Times.restrict ∅ (toMeasure g)⟩

def withTimes (s : Schedule) (g : Graph R) (prepare measure : Times) : Schedule :=
  { s with prepare := prepare.restrict (toPrepare g), measure := measure.restrict (toMeasure g) }

def slices (s : Schedule) : Int := max s.prepare.latest s.measure.latest + 1

def timeline (s : Schedule) : List (NodeSet × NodeSet) :=
  (List.range s.slices.toNat).map fun (time : Nat) =>
    (s.prepare.atTime time, s.measure.atTime time)

def nodesMatch (s : Schedule) (g : Graph R) : Bool :=
  NodeSet.ofList s.prepare.keys == toPrepare g && NodeSet.ofList s.measure.keys == toMeasure g

def allTimed (s : Schedule) : Bool :=
  s.prepare.values.all Option.isSome && s.measure.values.all Option.isSome

def respectsDependencies (s : Schedule) : Bool :=
  s.dependencies.entries.all fun (n, children) =>
    match (s.measure.get? n).join with
    | none => true
    | some time => children.toList.all fun child =>
        match (s.measure.get? child).join with
        | none => true
        | some later => time < later

def apart (s : Schedule) : Bool :=
  (s.prepare.known ++ s.measure.known).all fun time =>
    ((s.prepare.atTime time).inter (s.measure.atTime time)).isEmpty

def isValid (s : Schedule) (g : Graph R) : Bool :=
  s.nodesMatch g && s.allTimed && s.respectsDependencies && s.apart

end Schedule
end OneWay
