import OneWay.Proofs.Resource
import OneWay.Proofs.Times
import OneWay.Schedule.Solve

/-! Schedules from solutions of the scheduling model. A solution measures nodes before their dependants
and after their neighbours are prepared, and closing the gaps keeps the order of all times. The model does
not ask that a node be prepared before it is measured itself, so such a schedule is valid just when no
node is prepared and measured at one time. -/
namespace OneWay

namespace Model
open OneWay.Graph (setAt)
open Linear Schedule
variable {R : Type} [Scalar R] {g : Graph R} {d : Dependency} {goal : Goal} {model : Model}
  {values : Assignment} {n m : Int}

@[simp] theorem valueOfVariable {v : Variable} : (ofVariable v).value values = values v := by
  simp [ofVariable, value]

@[simp] theorem valueOfInt {k : Int} : (ofInt k).value values = k := rfl

theorem buildOk : build g d goal = .ok model ↔ ∃ part,
    (goal.strategy = .minimizeSpace ∧ part = spaceModel g (horizon g goal) ∨
      goal.strategy = .minimizeTime ∧ part = timeModel g (horizon g goal) goal.maxQubits) ∧
    model = ⟨timeVariables g (horizon g goal) ++ part.bounds,
      orderConstraints g d ++ edgeConstraints g ++ part.constraints, part.objective⟩ := by
  unfold build
  cases goal.strategy with
  | minimizeSpace | minimizeTime => simp [bind, Except.bind, pure, Except.pure, eq_comm]
  | other name => simp [bind, Except.bind]

theorem memBuild (built : build g d goal = .ok model) {c : Constraint}
    (mem : c ∈ orderConstraints g d ++ edgeConstraints g) : c ∈ model.constraints := by
  obtain ⟨part, _, rfl⟩ := buildOk.mp built
  exact List.mem_append_left _ mem

theorem memOrder (member : m ∈ setAt d n) (here : n ∈ toMeasure g) (there : m ∈ toMeasure g) :
    Constraint.compare (ofVariable (.measure n)) .lt (ofVariable (.measure m)) ∈ orderConstraints g d := by
  refine List.mem_flatMap.mpr ⟨_, Dependency.entryOfMember member, ?_⟩
  exact List.mem_filterMap.mpr ⟨m, member, if_pos ⟨here, there⟩⟩

theorem memEdge (near : m ∈ g.adjacent n) (here : n ∈ toMeasure g) (there : m ∈ toPrepare g) :
    Constraint.compare (ofVariable (.prepare m)) .lt (ofVariable (.measure n)) ∈ edgeConstraints g := by
  have noInput : ¬ g.inputs.contains m = true := by
    rw [Table.containsIff, ← Graph.memInputNodes]
    exact (NodeSet.memDiff.mp there).2
  refine List.mem_flatMap.mpr ⟨n, here, ?_⟩
  exact List.mem_filterMap.mpr ⟨m, near, if_neg noInput⟩

theorem holdsBefore {a b : Variable} (built : build g d goal = .ok model) (fits : model.holds values = true)
    (mem : Constraint.compare (ofVariable a) .lt (ofVariable b) ∈
      orderConstraints g d ++ edgeConstraints g) : values a < values b := by
  simp only [holds, Bool.and_eq_true, List.all_eq_true] at fits
  have met := fits.2 _ (memBuild built mem)
  simpa [Constraint.holds, Comparison.holds] using met

theorem holdsOrder (built : build g d goal = .ok model) (fits : model.holds values = true)
    (member : m ∈ setAt d n) (here : n ∈ toMeasure g) (there : m ∈ toMeasure g) :
    values (.measure n) < values (.measure m) :=
  holdsBefore built fits (List.mem_append_left _ (memOrder member here there))

theorem holdsEdge (built : build g d goal = .ok model) (fits : model.holds values = true)
    (near : m ∈ g.adjacent n) (here : n ∈ toMeasure g) (there : m ∈ toPrepare g) :
    values (.prepare m) < values (.measure n) :=
  holdsBefore built fits (List.mem_append_right _ (memEdge near here there))

end Model

namespace Schedule
open OneWay.Graph (setAt)
open Times
variable {R : Type} [Scalar R] {g : Graph R} {s t : Schedule} {goal : Goal} {model : Model} {reply : Reply}
  {values : Assignment} {taken : NodeSet} {n : Int}

def valued (nodes : NodeSet) (v : Int → Variable) (values : Assignment) : Times :=
  .ofList (nodes.toList.map fun n => (n, some (values (v n))))

theorem solvedEq (s : Schedule) (g : Graph R) (found : reply.status.hasValues = true) :
    s.solved g reply = ({ s with
      prepare := (compress (valued (toPrepare g) .prepare reply.values)
        (valued (toMeasure g) .measure reply.values)).1
      measure := (compress (valued (toPrepare g) .prepare reply.values)
        (valued (toMeasure g) .measure reply.values)).2 }, true) := by
  simp only [solved, timesOf, found, if_true]
  rfl

structure Ranked (g : Graph R) (values : Assignment) (taken : NodeSet) (t : Schedule) : Prop where
  prepare : ∀ n, t.prepare.get? n =
    if n ∈ toPrepare g then some (some (rank taken (values (.prepare n)))) else none
  measure : ∀ n, t.measure.get? n =
    if n ∈ toMeasure g then some (some (rank taken (values (.measure n)))) else none
  prepareUsed : ∀ n ∈ toPrepare g, values (.prepare n) ∈ taken
  measureUsed : ∀ n ∈ toMeasure g, values (.measure n) ∈ taken

theorem solvedRanked (s : Schedule) (g : Graph R) (found : reply.status.hasValues = true) :
    ∃ taken t, s.solved g reply = (t, true) ∧ t.dependencies = s.dependencies ∧
      Ranked g reply.values taken t := by
  have given : ∀ (nodes : NodeSet) (v : Int → Variable) (n : Int),
      (valued nodes v reply.values).get? n =
        if n ∈ nodes then some (some (reply.values (v n))) else none := fun _ _ _ => Table.getOfNodes
  refine ⟨used (valued (toPrepare g) .prepare reply.values) (valued (toMeasure g) .measure reply.values), _,
    solvedEq s g found, rfl, ?_, ?_, ?_, ?_⟩
  · intro n
    rw [getCompress.1, given]
    split <;> rfl
  · intro n
    rw [getCompress.2, given]
    split <;> rfl
  · intro n mem
    exact memUsed.mpr (.inl ⟨n, by rw [given, if_pos mem]⟩)
  · intro n mem
    exact memUsed.mpr (.inr ⟨n, by rw [given, if_pos mem]⟩)

theorem Ranked.fromZero (ranked : Ranked g values taken t) : t.FromZero := by
  intro time mem
  rw [List.mem_append, memKnown, memKnown] at mem
  rcases mem with ⟨n, found⟩ | ⟨n, found⟩
  · rw [ranked.prepare, Option.ite_none_right_eq_some] at found
    cases found.2
    exact Int.natCast_nonneg _
  · rw [ranked.measure, Option.ite_none_right_eq_some] at found
    cases found.2
    exact Int.natCast_nonneg _

theorem Ranked.timed (ranked : Ranked g values taken t) : t.nodesMatch g = true ∧ t.allTimed = true := by
  have prepares : ∀ n, n ∈ t.prepare.keys ↔ n ∈ toPrepare g := by
    intro n
    rw [Table.memKeys, ranked.prepare]
    split <;> simp [*]
  have measures : ∀ n, n ∈ t.measure.keys ↔ n ∈ toMeasure g := by
    intro n
    rw [Table.memKeys, ranked.measure]
    split <;> simp [*]
  refine ⟨nodesMatchIff.mpr ⟨prepares, measures⟩, allTimedIff.mpr ⟨?_, ?_⟩⟩
  · intro n mem
    exact ⟨_, (ranked.prepare n).trans (if_pos ((prepares n).mp mem))⟩
  · intro n mem
    exact ⟨_, (ranked.measure n).trans (if_pos ((measures n).mp mem))⟩

theorem Ranked.respects (ranked : Ranked g values taken t)
    (order : ∀ n, ∀ child ∈ setAt t.dependencies n, n ∈ toMeasure g → child ∈ toMeasure g →
      values (.measure n) < values (.measure child)) : t.respectsDependencies = true := by
  refine respectsIff.mpr fun n child member time later atN atChild => ?_
  rw [ranked.measure, Option.ite_none_right_eq_some] at atN atChild
  obtain ⟨here, eq⟩ := atN
  obtain ⟨there, eq'⟩ := atChild
  cases eq
  cases eq'
  exact (rankLt (ranked.measureUsed n here)).mpr (order n child member here there)

theorem Ranked.apartIff (ranked : Ranked g values taken t) : t.apart = true ↔
    ∀ n ∈ toPrepare g, n ∈ toMeasure g → values (.prepare n) ≠ values (.measure n) := by
  rw [Schedule.apartIff]
  constructor
  · intro apart n here there same
    refine apart n _ ((ranked.prepare n).trans (if_pos here)) ?_
    rw [ranked.measure, if_pos there, same]
  · intro other n time early late
    rw [ranked.prepare, Option.ite_none_right_eq_some] at early
    rw [ranked.measure, Option.ite_none_right_eq_some] at late
    obtain ⟨here, eq⟩ := early
    obtain ⟨there, eq'⟩ := late
    cases eq
    have same := Option.some.inj (Option.some.inj eq')
    exact other n here there ((rankInj (ranked.prepareUsed n here) (ranked.measureUsed n there)).mp same.symm)

/- Whether a solution makes a valid schedule hangs on the nodes that are both prepared and measured. One
that depends on a neighbour is prepared before the neighbour is measured, and measured after it. -/
theorem solvedValidIff (built : Model.build g s.dependencies goal = .ok model)
    (found : reply.status.hasValues = true) (fits : model.holds reply.values = true) :
    ∃ t, s.solved g reply = (t, true) ∧ t.dependencies = s.dependencies ∧ t.nodesMatch g = true ∧
      t.allTimed = true ∧ t.respectsDependencies = true ∧ t.FromZero ∧
      (t.isValid g = true ↔ ∀ n ∈ toPrepare g, n ∈ toMeasure g →
        reply.values (.prepare n) ≠ reply.values (.measure n)) ∧
      ((∀ n ∈ toPrepare g, n ∈ toMeasure g →
        ∃ m ∈ toMeasure g, n ∈ g.adjacent m ∧ n ∈ setAt s.dependencies m) → t.isValid g = true) := by
  obtain ⟨taken, t, solved, kept, ranked⟩ := solvedRanked s g found
  obtain ⟨nodes, timed⟩ := ranked.timed
  have respects : t.respectsDependencies = true := by
    refine ranked.respects fun n child member here there => ?_
    rw [kept] at member
    exact Model.holdsOrder built fits member here there
  have valid : t.isValid g = true ↔ ∀ n ∈ toPrepare g, n ∈ toMeasure g →
      reply.values (.prepare n) ≠ reply.values (.measure n) := by
    rw [isValidIff, ← ranked.apartIff]
    simp only [nodes, timed, respects, true_and]
  refine ⟨t, solved, kept, nodes, timed, respects, ranked.fromZero, valid, fun parents => ?_⟩
  rw [valid]
  intro n prepared measured
  obtain ⟨m, here, near, child⟩ := parents n prepared measured
  have early := Model.holdsEdge built fits near here prepared
  have late := Model.holdsOrder built fits child here measured
  exact (early.trans late).ne

open OneWay.Graph (twig spider)

def twigAlong : Flow := .ofSets (.ofList [(0, .singleton 1), (1, .singleton 3)])

def twigValues : Assignment
  | .prepare _ => 0
  | .measure n => if n = 3 then 3 else n + 1
  | .prepared _ _ => 1
  | .measured n time => if n < 2 ∧ n < time then 1 else 0
  | .alive n time => if n < 2 ∧ n < time then 0 else 1
  | .maxSpace => 4
  | .makespan => 3

set_option maxRecDepth 1024

theorem twigSolved : ∃ s model t, ofFlow twig twigAlong none = .ok s ∧
    Model.build twig s.dependencies ⟨.minimizeTime, some 4, some 3⟩ = .ok model ∧
    model.holds twigValues = true ∧ s.solved twig ⟨.feasible, twigValues⟩ = (t, true) ∧
    t.isValid twig = true := by
  obtain ⟨s, made⟩ : ∃ s, ofFlow twig twigAlong none = .ok s := ⟨_, rfl⟩
  obtain ⟨model, built⟩ : ∃ model, Model.build twig s.dependencies ⟨.minimizeTime, some 4, some 3⟩ =
      .ok model := ⟨_, rfl⟩
  have fits : model.holds twigValues = true := by
    cases made
    cases built
    decide
  have found : (Reply.mk .feasible twigValues).status.hasValues = true := rfl
  have parents : ∀ n ∈ toPrepare twig, n ∈ toMeasure twig →
      ∃ m ∈ toMeasure twig, n ∈ twig.adjacent m ∧ n ∈ setAt s.dependencies m := by
    cases made
    decide
  obtain ⟨t, solved, _, _, _, _, _, _, valid⟩ := solvedValidIff built found fits
  exact ⟨s, model, t, made, built, fits, solved, valid parents⟩

theorem spiderClash : ∃ s model t, ofFlow spider ∅ none = .ok s ∧
    Model.build spider s.dependencies ⟨.minimizeTime, none, none⟩ = .ok model ∧
    model.holds (fun _ => 0) = true ∧ s.solved spider ⟨.optimal, fun _ => 0⟩ = (t, true) ∧
    t.isValid spider = false :=
  ⟨_, _, _, rfl, rfl, by decide, rfl, by decide⟩

end Schedule
end OneWay
