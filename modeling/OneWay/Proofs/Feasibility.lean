import OneWay.Proofs.Causality
import OneWay.Proofs.Space

/-! When the scheduling model has solutions. Without a limit on qubits it asks for no more than times that
keep the order of the dependencies and of the edges: everything else can be read off such times. If no
measured node waits for itself, all nodes can be prepared at once and measured one after the other, which
takes less time than there is unless a limit is given. -/
namespace OneWay.Model
open Linear Schedule
open Relation (TransGen)
variable {R : Type} [Scalar R] {g : Graph R} {d : Dependency} {goal : Goal} {model : Model}
  {values : Assignment} {prepare measure : Int → Int} {n m limit : Int} {t : Nat}

def Precedes (g : Graph R) (d : Dependency) (n m : Int) : Prop :=
  n ∈ toMeasure g ∧ m ∈ toMeasure g ∧ d.Awaits n m

structure Timed (g : Graph R) (d : Dependency) (limit : Int) (prepare measure : Int → Int) : Prop where
  prepares : ∀ n ∈ toPrepare g, 0 ≤ prepare n ∧ prepare n ≤ limit
  measures : ∀ n ∈ toMeasure g, 0 ≤ measure n ∧ measure n ≤ limit
  order : ∀ n m, Precedes g d n m → measure n < measure m
  edges : ∀ n ∈ toMeasure g, ∀ m ∈ g.adjacent n, m ∉ g.inputNodes → prepare m < measure n

def begun (g : Graph R) (prepare : Int → Int) (n : Int) (t : Nat) : Bool := n ∈ g.inputNodes ∨ prepare n ≤ t

def ended (g : Graph R) (measure : Int → Int) (n : Int) (t : Nat) : Bool := n ∉ g.outputNodes ∧ measure n ≤ t

/- All values that follow from given times. The space is the most that can be needed. -/
def complete (g : Graph R) (prepare measure : Int → Int) : Assignment
  | .prepare n => prepare n
  | .measure n => measure n
  | .prepared n t => (begun g prepare n t).toInt
  | .measured n t => (ended g measure n t).toInt
  | .alive n t => (begun g prepare n t && !ended g measure n t).toInt
  | .maxSpace => g.nodes.size
  | .makespan => ((toMeasure g).toList.map measure).foldl max 0

theorem orderSource {c : Constraint} (mem : c ∈ orderConstraints g d) : ∃ n m, Precedes g d n m ∧
    c = .compare (ofVariable (.measure n)) .lt (ofVariable (.measure m)) := by
  obtain ⟨⟨n, children⟩, entry, listed⟩ := List.mem_flatMap.mp mem
  obtain ⟨m, child, made⟩ := List.mem_filterMap.mp listed
  obtain ⟨⟨here, there⟩, eq⟩ := Option.ite_none_right_eq_some.mp made
  refine ⟨n, m, ⟨here, there, ?_⟩, (Option.some.inj eq).symm⟩
  rw [Dependency.Awaits, Dependency.memEntry entry]
  exact child

theorem edgeSource {c : Constraint} (mem : c ∈ edgeConstraints g) : ∃ n ∈ toMeasure g, ∃ m ∈ g.adjacent n,
    m ∉ g.inputNodes ∧ c = .compare (ofVariable (.prepare m)) .lt (ofVariable (.measure n)) := by
  obtain ⟨n, here, listed⟩ := List.mem_flatMap.mp mem
  obtain ⟨m, near, made⟩ := List.mem_filterMap.mp listed
  obtain ⟨later, eq⟩ := Option.ite_none_left_eq_some.mp made
  rw [Table.containsIff, ← Graph.memInputNodes] at later
  exact ⟨n, here, m, near, later, (Option.some.inj eq).symm⟩

theorem Timed.orderHolds (timed : Timed g d limit prepare measure) :
    ∀ c ∈ orderConstraints g d ++ edgeConstraints g, c.holds (complete g prepare measure) = true := by
  refine List.forall_mem_append.mpr ⟨fun c mem => ?_, fun c mem => ?_⟩
  · obtain ⟨n, m, before, rfl⟩ := orderSource mem
    simpa [Constraint.holds, Comparison.holds, complete] using timed.order n m before
  · obtain ⟨n, here, m, near, later, rfl⟩ := edgeSource mem
    simpa [Constraint.holds, Comparison.holds, complete] using timed.edges n here m near later

theorem Timed.timesHold (timed : Timed g d limit prepare measure) : ∀ b ∈ timeVariables g limit,
    b.lower ≤ complete g prepare measure b.var ∧ complete g prepare measure b.var ≤ b.upper := by
  refine List.forall_mem_append.mpr ⟨List.forall_mem_map.mpr ?_, List.forall_mem_map.mpr ?_⟩
  · exact timed.prepares
  · exact timed.measures

theorem flagTrue {b : Bool} : b.toInt ≠ 0 ↔ b = true := by
  cases b <;> decide

theorem aliveComplete : ∀ c ∈ aliveConstraints g t n, c.holds (complete g prepare measure) = true := by
  refine List.forall_mem_append.mpr ⟨List.forall_mem_append.mpr ⟨?_, ?_⟩, ?_⟩
  · split
    · rename_i input
      have there : begun g prepare n t = true := by simp_all [begun]
      simp [Constraint.holds, Comparison.holds, complete, there]
    · rename_i noInput
      have when : begun g prepare n t = true ↔ prepare n ≤ t := by simp_all [begun]
      exact reachedIff.mpr (flagTrue.trans when)
  · split
    · rename_i output
      have stays : ended g measure n t = false := by simp_all [ended]
      simp [Constraint.holds, Comparison.holds, complete, stays]
    · rename_i noOutput
      have when : ended g measure n t = true ↔ measure n ≤ t := by simp_all [ended]
      exact reachedIff.mpr (flagTrue.trans when)
  · simp only [List.forall_mem_cons, List.not_mem_nil, false_imp_iff, implies_true, and_true, Constraint.holds,
      Comparison.holds, Literal.holds, valueGap, valueOfVariable, complete]
    cases begun g prepare n t <;> cases ended g measure n t <;> decide

theorem sumAtMost {ns : List Int} {v : Int → Variable} (all : ∀ n ∈ ns, values (v n) ≤ 1) :
    (sum (ns.map v)).value values ≤ ns.length := by
  induction ns with
  | nil => exact le_refl _
  | cons n ns ih =>
    obtain ⟨head, all⟩ := List.forall_mem_cons.mp all
    have step : (sum ((n :: ns).map v)).value values = 1 * values (v n) + (sum (ns.map v)).value values := rfl
    have rest := ih all
    rw [step, List.length_cons]
    omega

theorem flagWithin (b : Bool) : 0 ≤ b.toInt ∧ b.toInt ≤ 1 := by
  cases b <;> decide

theorem livenessComplete (g : Graph R) (prepare measure : Int → Int) (horizon : Int) :
    Meets (liveness g horizon fun total => .compare (ofVariable .maxSpace) .ge total)
      (complete g prepare measure) := by
  constructor
  · intro b mem
    obtain ⟨t, _, mem⟩ := List.mem_flatMap.mp mem
    obtain ⟨n, _, mem⟩ := List.mem_flatMap.mp mem
    simp only [aliveVariables, List.mem_cons, List.not_mem_nil, or_false] at mem
    rcases mem with rfl | rfl | rfl
    · exact flagWithin _
    · exact flagWithin _
    · exact flagWithin _
  · intro c mem
    obtain ⟨t, _, mem⟩ := List.mem_flatMap.mp mem
    rcases List.mem_append.mp mem with mem | last
    · obtain ⟨n, _, mem⟩ := List.mem_flatMap.mp mem
      exact aliveComplete c mem
    · obtain rfl := List.mem_singleton.mp last
      have most : (aliveAt g t).value (complete g prepare measure) ≤ g.nodes.size :=
        sumAtMost fun n _ => (flagWithin _).2
      simpa [Constraint.holds, Comparison.holds, complete] using most

theorem makespanComplete (timed : Timed g d limit prepare measure) (some : n ∈ toMeasure g) :
    Meets ([⟨.makespan, 0, limit⟩], [.isMax .makespan ((toMeasure g).toList.map .measure)])
      (complete g prepare measure) := by
  obtain ⟨reached, top⟩ := foldlMax 0 ((toMeasure g).toList.map measure)
  have last : ∀ m ∈ toMeasure g, measure m ≤ complete g prepare measure .makespan := fun m mem =>
    top _ (List.mem_cons_of_mem _ (List.mem_map_of_mem mem))
  have taken : ∃ m ∈ toMeasure g, measure m = complete g prepare measure .makespan := by
    rcases List.mem_cons.mp reached with zero | mem
    · have start := (timed.measures n some).1
      have stop := last n some
      exact ⟨n, some, le_antisymm stop (zero.trans_le start)⟩
    · exact List.mem_map.mp mem
  obtain ⟨m, here, same⟩ := taken
  refine ⟨List.forall_mem_singleton.mpr ?_, List.forall_mem_singleton.mpr ?_⟩
  · exact same ▸ timed.measures m here
  · rw [Constraint.holds, Bool.and_eq_true, List.all_eq_true, List.any_eq_true]
    exact ⟨List.forall_mem_map.mpr fun k mem => decide_eq_true (last k mem), _, List.mem_map_of_mem here,
      beq_iff_eq.mpr same⟩

theorem Timed.holds (timed : Timed g d (horizon g goal) prepare measure) (free : goal.maxQubits = none)
    (some : n ∈ toMeasure g) (built : build g d goal = .ok model) :
    model.holds (complete g prepare measure) = true := by
  obtain ⟨part, kind, rfl⟩ := buildOk.mp built
  have met : Meets (part.bounds, part.constraints) (complete g prepare measure) := by
    rcases kind with ⟨_, rfl⟩ | ⟨_, rfl⟩
    · obtain ⟨bounds, constraints⟩ := livenessComplete g prepare measure (horizon g goal)
      refine ⟨List.forall_mem_cons.mpr ⟨⟨Int.natCast_nonneg _, le_refl _⟩, bounds⟩, constraints⟩
    · rw [free]
      exact makespanComplete timed some
  exact holdsIff.mpr ⟨List.forall_mem_append.mpr ⟨timed.timesHold, met.1⟩,
    List.forall_mem_append.mpr ⟨timed.orderHolds, met.2⟩⟩

theorem placesOfAcyclic (acyclic : ∀ n, ¬ TransGen (Precedes g d) n n) : ∃ place : Int → Nat,
    (∀ n ∈ toMeasure g, place n < (toMeasure g).size) ∧ ∀ n m, Precedes g d n m → place n < place m := by
  classical
  let earlier (n : Int) : NodeSet := (toMeasure g).filter fun m => TransGen (Precedes g d) m n
  have memEarlier : ∀ {m n}, m ∈ earlier n ↔ m ∈ toMeasure g ∧ TransGen (Precedes g d) m n := by
    intro m n
    rw [NodeSet.memFilter, decide_eq_true_eq]
  have never (n : Int) : n ∉ earlier n := fun own => acyclic n (memEarlier.mp own).2
  refine ⟨fun n => (earlier n).size, fun n here => ?_, fun n m before => ?_⟩
  · exact NodeSet.sizeLt (fun m mem => (memEarlier.mp mem).1) here (never n)
  · refine NodeSet.sizeLt (fun k mem => ?_) (memEarlier.mpr ⟨before.1, .single before⟩) (never n)
    obtain ⟨here, path⟩ := memEarlier.mp mem
    exact memEarlier.mpr ⟨here, path.tail before⟩

theorem timedOfAcyclic (acyclic : ∀ n, ¬ TransGen (Precedes g d) n n) (room : (toMeasure g).size ≤ limit) :
    ∃ prepare measure, Timed g d limit prepare measure := by
  obtain ⟨place, inside, rises⟩ := placesOfAcyclic acyclic
  refine ⟨fun _ => 0, fun n => place n + 1, fun n _ => ?_, fun n here => ?_, fun n m before => ?_,
    fun n _ m _ _ => ?_⟩
  · omega
  · have := inside n here
    omega
  · have := rises n m before
    omega
  · omega

theorem acyclicOfHolds (built : build g d goal = .ok model) (fits : model.holds values = true) :
    ∀ n, ¬ TransGen (Precedes g d) n n :=
  acyclicOfRising (fun n => values (.measure n)) fun _ _ before =>
    holdsOrder built fits before.2.2 before.1 before.2.1

/- Without limits the model has a solution, whatever is to be made small, just when the dependencies between
measured nodes never go round. -/
theorem solvableIffAcyclic {strategy : Strategy} (d : Dependency)
    (known : strategy = .minimizeSpace ∨ strategy = .minimizeTime) (some : n ∈ toMeasure g) :
    ∃ model, build g d ⟨strategy, none, none⟩ = .ok model ∧
      ((∃ values, model.holds values = true) ↔ ∀ m, ¬ TransGen (Precedes g d) m m) := by
  obtain ⟨model, built⟩ : ∃ model, build g d ⟨strategy, none, none⟩ = .ok model := by
    rcases known with rfl | rfl
    · exact ⟨_, rfl⟩
    · exact ⟨_, rfl⟩
  refine ⟨model, built, ?_, fun acyclic => ?_⟩
  · rintro ⟨values, fits⟩
    exact acyclicOfHolds built fits
  · have room : (toMeasure g).size ≤ horizon g ⟨strategy, none, none⟩ := by
      have fewer : (toMeasure g).size ≤ g.nodes.size :=
        NodeSet.sizeLe fun m mem => (NodeSet.memDiff.mp mem).1
      have twice : horizon g ⟨strategy, none, none⟩ = 2 * g.nodes.size := rfl
      omega
    obtain ⟨prepare, measure, timed⟩ := timedOfAcyclic acyclic room
    exact ⟨_, timed.holds rfl some built⟩

open OneWay.Graph (twig twigRound twigForth twigSelf setAt)

set_option maxRecDepth 1024

theorem twigSolvable : ∃ round forth, twig.dependenciesOf (.ofSets twigRound) (some (.ofSets ∅)) = .ok round ∧
    twig.dependenciesOf (.ofSets twigForth) (some (.ofSets twigSelf)) = .ok forth ∧
    (∃ model, build twig round ⟨.minimizeTime, none, none⟩ = .ok model ∧
      ¬ ∃ values, model.holds values = true) ∧
    ∃ model, build twig forth ⟨.minimizeSpace, none, none⟩ = .ok model ∧
      ∃ values, model.holds values = true := by
  obtain ⟨round, madeRound⟩ : ∃ round,
      twig.dependenciesOf (.ofSets twigRound) (some (.ofSets ∅)) = .ok round := ⟨_, rfl⟩
  obtain ⟨forth, madeForth⟩ : ∃ forth,
      twig.dependenciesOf (.ofSets twigForth) (some (.ofSets twigSelf)) = .ok forth := ⟨_, rfl⟩
  have measured : (0 : Int) ∈ toMeasure twig := by decide
  have cycle : TransGen (Precedes twig round) 0 0 := by
    have steps : (1 : Int) ∈ setAt round 0 ∧ (3 : Int) ∈ setAt round 1 ∧ (0 : Int) ∈ setAt round 3 := by
      cases madeRound
      decide
    exact .tail (.tail (.single ⟨measured, by decide, steps.1⟩) ⟨by decide, by decide, steps.2.1⟩)
      ⟨by decide, measured, steps.2.2⟩
  have rises : ∀ n ∈ toMeasure twig, ∀ m ∈ setAt forth n, n < m := by
    cases madeForth
    decide
  have acyclic : ∀ n, ¬ TransGen (Precedes twig forth) n n :=
    acyclicOfRising id fun n m before => rises n before.1 m before.2.2
  obtain ⟨model, built, never⟩ := solvableIffAcyclic round (.inr rfl) measured
  obtain ⟨model', built', found⟩ := solvableIffAcyclic forth (.inl rfl) measured
  exact ⟨round, forth, madeRound, madeForth, ⟨model, built, fun some => never.mp some 0 cycle⟩,
    model', built', found.mpr acyclic⟩

end OneWay.Model
