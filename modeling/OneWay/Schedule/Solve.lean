import OneWay.Schedule.Compression
import OneWay.Schedule.Model

/-! The model of a scheduling problem, and what a solver's answer to it does to a schedule. -/
namespace OneWay

inductive Strategy where
  | minimizeSpace
  | minimizeTime
  | other (name : String)
  deriving DecidableEq, Repr

def Strategy.ofName : String → Strategy
  | "MINIMIZE_SPACE" => .minimizeSpace
  | "MINIMIZE_TIME" => .minimizeTime
  | name => .other name

structure Goal where
  strategy : Strategy
  maxQubits : Option Int
  maxTime : Option Int
  deriving DecidableEq, Repr

def Goal.default : Goal := ⟨.minimizeSpace, none, none⟩

def defaultSeconds : Int := 60

inductive Status where
  | optimal
  | feasible
  | infeasible
  | unknown
  | invalid
  deriving DecidableEq, Repr

def Status.hasValues : Status → Bool
  | .optimal | .feasible => true
  | _ => false

structure Reply where
  status : Status
  values : Assignment

namespace Model
variable {R : Type} [Scalar R]
open Linear

def horizon (g : Graph R) (goal : Goal) : Int := goal.maxTime.getD (2 * g.nodes.size)

def timeVariables (g : Graph R) (horizon : Int) : List Bounded :=
  (Schedule.toPrepare g).toList.map (fun n => ⟨.prepare n, 0, horizon⟩) ++
    (Schedule.toMeasure g).toList.map fun n => ⟨.measure n, 0, horizon⟩

def orderConstraints (g : Graph R) (d : Dependency) : List Constraint :=
  d.entries.flatMap fun (n, children) => children.toList.filterMap fun child =>
    if n ∈ Schedule.toMeasure g ∧ child ∈ Schedule.toMeasure g then
      some (.compare (ofVariable (.measure n)) .lt (ofVariable (.measure child)))
    else none

def edgeConstraints (g : Graph R) : List Constraint :=
  (Schedule.toMeasure g).toList.flatMap fun n => (g.adjacent n).toList.filterMap fun neighbor =>
    if g.inputs.contains neighbor then none
    else some (.compare (ofVariable (.prepare neighbor)) .lt (ofVariable (.measure n)))

def reached (flag time : Variable) (t : Nat) : List Constraint :=
  [.compareIf ⟨flag, true⟩ (ofVariable time) .le (ofInt t),
    .compareIf ⟨flag, false⟩ (ofVariable time) .gt (ofInt t)]

def aliveConstraints (g : Graph R) (t : Nat) (n : Int) : List Constraint :=
  (if g.inputs.contains n then [.compare (ofVariable (.prepared n t)) .eq (ofInt 1)]
    else reached (.prepared n t) (.prepare n) t) ++
  (if g.outputs.contains n then [.compare (ofVariable (.measured n t)) .eq (ofInt 0)]
    else reached (.measured n t) (.measure n) t) ++
  [.implies (.alive n t) ⟨.prepared n t, true⟩, .implies (.alive n t) ⟨.measured n t, false⟩,
    .compare ⟨[(1, .prepared n t), (-1, .measured n t)], 0⟩ .le (ofVariable (.alive n t))]

def aliveVariables (t : Nat) (n : Int) : List Bounded :=
  [⟨.prepared n t, 0, 1⟩, ⟨.measured n t, 0, 1⟩, ⟨.alive n t, 0, 1⟩]

def aliveAt (g : Graph R) (t : Nat) : Linear := sum (g.nodes.toList.map fun n => .alive n t)

def liveness (g : Graph R) (horizon : Int) (bound : Linear → Constraint) :
    List Bounded × List Constraint :=
  let times := List.range horizon.toNat
  (times.flatMap fun t => g.nodes.toList.flatMap (aliveVariables t),
    times.flatMap fun t => g.nodes.toList.flatMap (aliveConstraints g t) ++ [bound (aliveAt g t)])

/-- At most `limit` of the summed truth values; a sum of nothing settles this at once. -/
def atMost (limit : Int) (total : Linear) : Constraint :=
  if total.terms.isEmpty then .settled (total.constant ≤ limit)
  else .compare total .le (ofInt limit)

def spaceModel (g : Graph R) (horizon : Int) : Model :=
  let (bounds, constraints) :=
    liveness g horizon fun total => .compare (ofVariable .maxSpace) .ge total
  ⟨⟨.maxSpace, 0, g.nodes.size⟩ :: bounds, constraints, ofVariable .maxSpace⟩

def timeModel (g : Graph R) (horizon : Int) (maxQubits : Option Int) : Model :=
  let (bounds, constraints) := match maxQubits with
    | none => ([], [])
    | some limit => liveness g horizon (atMost limit)
  let measured := (Schedule.toMeasure g).toList.map Variable.measure
  ⟨bounds ++ [⟨.makespan, 0, horizon⟩], constraints ++ [.isMax .makespan measured],
    ofVariable .makespan⟩

def build (g : Graph R) (d : Dependency) (goal : Goal) : Except Fault Model := do
  let horizon := horizon g goal
  let part ← match goal.strategy with
    | .minimizeSpace => .ok (spaceModel g horizon)
    | .minimizeTime => .ok (timeModel g horizon goal.maxQubits)
    | .other name => .error (.strategyUnknown name)
  return ⟨timeVariables g horizon ++ part.bounds,
    orderConstraints g d ++ edgeConstraints g ++ part.constraints, part.objective⟩

/-- Values by name. A variable that is not named has its lower bound, which is zero throughout. -/
def valuesOf (named : List (String × Int)) : Assignment := fun v =>
  ((named.reverse.find? fun e => e.1 == v.name).map Prod.snd).getD 0

end Model

namespace Schedule
variable {R : Type} [Scalar R]

def timesOf (g : Graph R) (reply : Reply) : Option (Times × Times) :=
  if reply.status.hasValues then
    let times (nodes : NodeSet) (v : Int → Variable) : Times :=
      .ofList (nodes.toList.map fun n => (n, some (reply.values (v n))))
    some (times (toPrepare g) .prepare, times (toMeasure g) .measure)
  else none

/-- The schedule after a solver has answered, and whether it found one. Times that it found are
compressed; without any the schedule stays as it was. -/
def solved (s : Schedule) (g : Graph R) (reply : Reply) : Schedule × Bool :=
  match timesOf g reply with
  | none => (s, false)
  | some (prepare, measure) =>
      let (prepare, measure) := Times.compress prepare measure
      ({ s with prepare := prepare, measure := measure }, true)

end Schedule
end OneWay
