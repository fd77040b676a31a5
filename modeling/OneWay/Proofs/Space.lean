import OneWay.Proofs.Sequence
import OneWay.Proofs.Solution

/-! How many qubits a pattern with a solved schedule needs at once. A slot measures before it prepares, so
the most are live at the end of a slot that prepares, or at the start. What is live then is alive in the
model at the time of that slot, and the model bounds how much that is at every time before its horizon;
at the horizon itself nothing but outputs is left. -/
namespace OneWay

namespace Pattern
variable {R : Type} {first rest before after measured : List (Command R)} {new : List (Int × Int)}
  {slots : List (NodeSet × NodeSet)} {ns : List Int}

@[simp] theorem growthAppend : growth (first ++ rest) = growth first + growth rest := by
  induction first with
  | nil => simp
  | cons c first ih => simp [ih, Int.add_assoc]

theorem growthFalls (falls : ∀ c ∈ first, c.gain ≤ 0) : growth first ≤ 0 := by
  induction first with
  | nil => exact le_refl _
  | cons c first ih =>
    obtain ⟨head, tail⟩ := List.forall_mem_cons.mp falls
    exact Int.add_nonpos head (ih tail)

theorem growthRises (rises : ∀ c ∈ first, 0 ≤ c.gain) : 0 ≤ growth first := by
  induction first with
  | nil => exact le_refl _
  | cons c first ih =>
    obtain ⟨head, tail⟩ := List.forall_mem_cons.mp rises
    exact Int.add_nonneg head (ih tail)

theorem growthEnds (falls : ∀ c ∈ first, c.gain ≤ 0) (rises : ∀ c ∈ rest, 0 ≤ c.gain)
    (split : first ++ rest = before ++ after) :
    growth before ≤ 0 ∨ growth before ≤ growth (first ++ rest) := by
  rcases List.append_eq_append_iff.mp split with ⟨more, rfl, rfl⟩ | ⟨more, rfl, rfl⟩
  · have last : 0 ≤ growth after := growthRises fun c mem => rises c (List.mem_append_right _ mem)
    simp only [growthAppend]
    omega
  · exact .inl (growthFalls fun c mem => falls c (List.mem_append_left _ mem))

def balance (slots : List (NodeSet × NodeSet)) : Int :=
  (slots.flatMap fun slot => slot.1.toList).length - (slots.flatMap fun slot => slot.2.toList).length

theorem balanceCons {prepare measure : NodeSet} :
    balance ((prepare, measure) :: slots) = prepare.size - measure.size + balance slots := by
  simp only [balance, List.flatMap_cons, List.length_append, NodeSet.size]
  omega

theorem slotGrowth (new : List (Int × Int)) (prepare : NodeSet) (only : Measures ns measured) :
    growth (slotCommands new measured prepare) = prepare.size - ns.length := by
  obtain ⟨prepared, _, nodes, _, _⟩ := slotContents new prepare only
  rw [growthCount, prepared, ← nodes, List.length_map, NodeSet.size]

theorem slotEnds (prepare : NodeSet) (only : Measures ns measured)
    (split : slotCommands new measured prepare = before ++ after) :
    growth before ≤ 0 ∨ growth before ≤ prepare.size - ns.length := by
  rw [← slotGrowth new prepare only]
  refine growthEnds ?_ ?_ split
  · refine List.forall_mem_append.mpr ⟨List.forall_mem_map.mpr fun _ _ => le_refl _, fun c mem => ?_⟩
    obtain ⟨n, _, _, rfl⟩ := Result.memSource only mem
    exact (by decide : (-1 : Int) ≤ 0)
  · exact List.forall_mem_map.mpr fun _ _ => Int.one_nonneg

end Pattern

namespace Graph
open Command Pattern Schedule
variable {R : Type} [Scalar R] {g : Graph R} {made : List (Int × Int)} {slots : List (NodeSet × NodeSet)}
  {commands last before after : List (Command R)}

theorem Slots.growthLe (run : Slots g made slots commands) {bound : Int} (start : 0 ≤ bound)
    (ends : ∀ (i : Nat) slot n, slots[i]? = some slot → n ∈ slot.1 → balance (slots.take (i + 1)) ≤ bound)
    (falls : ∀ c ∈ last, c.gain ≤ 0) (split : commands ++ last = before ++ after) :
    growth before ≤ bound := by
  induction run generalizing bound before with
  | nil =>
    rw [List.nil_append] at split
    have none := growthFalls fun c mem => falls c (split ▸ List.mem_append_left after mem)
    omega
  | @cons made new prepare measure measured slots commands entangles based rest ih =>
    have slotLe : (prepare.size : Int) - measure.size ≤ bound := by
      by_cases some : ∃ n, n ∈ prepare
      · obtain ⟨n, mem⟩ := some
        have here := ends 0 (prepare, measure) n rfl mem
        rw [List.take_succ_cons, balanceCons] at here
        simpa [balance] using here
      · have empty : prepare.toList = [] := List.eq_nil_iff_forall_not_mem.mpr fun n mem => some ⟨n, mem⟩
        simp only [NodeSet.size, empty, List.length_nil]
        omega
    rw [List.append_assoc] at split
    rcases List.append_eq_append_iff.mp split with ⟨more, rfl, later⟩ | ⟨more, here, _⟩
    · have grown : growth more ≤ bound - (prepare.size - measure.size) := by
        refine ih (by omega) (fun i slot n found mem => ?_) later
        have upTo := ends (i + 1) slot n found mem
        rw [List.take_succ_cons, balanceCons] at upTo
        omega
      rw [growthAppend, slotGrowth new prepare based.measures]
      simp only [NodeSet.size] at grown ⊢
      omega
    · have peak := slotEnds prepare based.measures here
      simp only [NodeSet.size] at peak slotLe
      omega

theorem closingFalls (correct : Bool) : ∀ c ∈ g.closing correct, c.gain ≤ 0 := by
  intro c mem
  obtain ⟨n, _, rfl | rfl⟩ := memClosing mem
  · exact le_refl _
  · exact le_refl _

theorem Slots.maxSpaceLe (run : Slots g [] slots commands) {bound : Int} (start : g.inputs.size ≤ bound)
    (ends : ∀ (i : Nat) slot n, slots[i]? = some slot → n ∈ slot.1 →
      g.inputs.size + balance (slots.take (i + 1)) ≤ bound) (correct : Bool) (frame : Frame) :
    (Pattern.mk g.inputs g.outputs (commands ++ g.closing correct) frame).maxSpace ≤ bound := by
  obtain ⟨mem, _⟩ := foldlMax g.inputs.size (spaceFrom g.inputs.size (commands ++ g.closing correct))
  rcases List.mem_cons.mp mem with eq | reached
  · exact (le_of_eq eq).trans start
  · obtain ⟨before, after, split, eq⟩ := memSpace.mp reached
    have grown : growth before ≤ bound - g.inputs.size := by
      refine run.growthLe (by omega) (fun i slot n found mem => ?_) (closingFalls correct) split
      have := ends i slot n found mem
      omega
    have most : Pattern.maxSpace ⟨g.inputs, g.outputs, commands ++ g.closing correct, frame⟩ = _ := eq
    omega

end Graph

namespace Model
open Linear Schedule
variable {R : Type} [Scalar R] {g : Graph R} {d : Dependency} {goal : Goal} {model : Model}
  {values : Assignment} {n : Int}

def Meets (part : List Bounded × List Constraint) (values : Assignment) : Prop :=
  (∀ b ∈ part.1, b.lower ≤ values b.var ∧ values b.var ≤ b.upper) ∧ ∀ c ∈ part.2, c.holds values = true

theorem holdsIff : model.holds values = true ↔ Meets (model.bounds, model.constraints) values := by
  simp [holds, Meets]

theorem Meets.sub {part all : List Bounded × List Constraint} (met : Meets all values)
    (bounds : part.1 ⊆ all.1) (constraints : part.2 ⊆ all.2) : Meets part values :=
  ⟨fun b mem => met.1 b (bounds mem), fun c mem => met.2 c (constraints mem)⟩

theorem holdsTimes (built : build g d goal = .ok model) (fits : model.holds values = true) :
    (∀ n ∈ toPrepare g, 0 ≤ values (.prepare n) ∧ values (.prepare n) ≤ horizon g goal) ∧
      ∀ n ∈ toMeasure g, 0 ≤ values (.measure n) ∧ values (.measure n) ≤ horizon g goal := by
  obtain ⟨part, _, rfl⟩ := buildOk.mp built
  have within : ∀ b ∈ timeVariables g (horizon g goal), b.lower ≤ values b.var ∧ values b.var ≤ b.upper :=
    fun b mem => (holdsIff.mp fits).1 b (List.mem_append_left _ mem)
  constructor
  · intro n mem
    exact within ⟨.prepare n, 0, _⟩ (List.mem_append_left _ (List.mem_map_of_mem mem))
  · intro n mem
    exact within ⟨.measure n, 0, _⟩ (List.mem_append_right _ (List.mem_map_of_mem mem))

theorem holdsLiveness (built : build g d goal = .ok model) (fits : model.holds values = true) :
    (goal.strategy = .minimizeSpace →
      Meets (liveness g (horizon g goal) fun total => .compare (ofVariable .maxSpace) .ge total) values) ∧
      ∀ limit, goal.strategy = .minimizeTime → goal.maxQubits = some limit →
        Meets (liveness g (horizon g goal) (atMost limit)) values := by
  obtain ⟨part, kind, rfl⟩ := buildOk.mp built
  have met : Meets (part.bounds, part.constraints) values :=
    (holdsIff.mp fits).sub (List.subset_append_right _ _) (List.subset_append_right _ _)
  rcases kind with ⟨strategy, rfl⟩ | ⟨strategy, rfl⟩
  · refine ⟨fun _ => met.sub (List.subset_cons_self _ _) (List.Subset.refl _), fun limit other => ?_⟩
    rw [strategy] at other
    cases other
  · refine ⟨fun other => ?_, fun limit _ limited => ?_⟩
    · rw [strategy] at other
      cases other
    · rw [limited] at met
      exact met.sub (List.subset_append_left _ _) (List.subset_append_left _ _)

theorem atMostHolds {limit : Int} {total : Linear} (met : (atMost limit total).holds values = true) :
    total.value values ≤ limit := by
  unfold atMost at met
  split at met
  · rename_i empty
    rw [value, List.isEmpty_iff.mp empty]
    exact of_decide_eq_true met
  · exact of_decide_eq_true met

theorem sumCounts {ns : List Int} {v : Int → Variable} {keep : Int → Bool}
    (all : ∀ n ∈ ns, 0 ≤ values (v n)) (kept : ∀ n ∈ ns, keep n = true → 1 ≤ values (v n)) :
    ((ns.filter keep).length : Int) ≤ (sum (ns.map v)).value values := by
  induction ns with
  | nil => exact le_refl _
  | cons n ns ih =>
    obtain ⟨headAll, all⟩ := List.forall_mem_cons.mp all
    obtain ⟨headKept, kept⟩ := List.forall_mem_cons.mp kept
    have step : (sum ((n :: ns).map v)).value values = 1 * values (v n) + (sum (ns.map v)).value values := rfl
    have rest := ih all kept
    rw [step, List.filter_cons]
    split
    · rename_i here
      have := headKept here
      rw [List.length_cons]
      omega
    · omega

def present (g : Graph R) (values : Assignment) (time : Int) : NodeSet :=
  g.nodes.filter fun n => (n ∈ g.inputNodes ∨ values (.prepare n) ≤ time) ∧
    (n ∈ g.outputNodes ∨ time < values (.measure n))

theorem memPresent {time : Int} : n ∈ present g values time ↔ n ∈ g.nodes ∧
    (n ∈ g.inputNodes ∨ values (.prepare n) ≤ time) ∧
    (n ∈ g.outputNodes ∨ time < values (.measure n)) := by
  simp [present]

theorem reachedIff {flag time : Variable} {t : Nat} :
    (∀ c ∈ reached flag time t, c.holds values = true) ↔ (values flag ≠ 0 ↔ values time ≤ t) := by
  simp only [reached, List.forall_mem_cons, Constraint.holds, Comparison.holds, Literal.holds, valueOfVariable,
    valueOfInt]
  by_cases zero : values flag = 0 <;> simp [zero]

theorem preparedHolds {t : Nat} (met : ∀ c ∈ aliveConstraints g t n, c.holds values = true)
    (there : n ∈ g.inputNodes ∨ values (.prepare n) ≤ t) : values (.prepared n t) ≠ 0 := by
  have part := (List.forall_mem_append.mp (List.forall_mem_append.mp met).1).1
  split at part
  · have one := List.forall_mem_singleton.mp part
    simp only [Constraint.holds, Comparison.holds, valueOfVariable, valueOfInt, beq_iff_eq] at one
    omega
  · rename_i noInput
    refine (reachedIff.mp part).mpr (there.resolve_left ?_)
    rwa [Graph.memInputNodes, ← Table.containsIff]

theorem measuredHolds {t : Nat} (met : ∀ c ∈ aliveConstraints g t n, c.holds values = true)
    (there : n ∈ g.outputNodes ∨ t < values (.measure n)) : values (.measured n t) = 0 := by
  have part := (List.forall_mem_append.mp (List.forall_mem_append.mp met).1).2
  split at part
  · have zero := List.forall_mem_singleton.mp part
    simpa only [Constraint.holds, Comparison.holds, valueOfVariable, valueOfInt, beq_iff_eq] using zero
  · rename_i noOutput
    have late := there.resolve_left (by rwa [Graph.memOutputNodes, ← Table.containsIff])
    by_contra yet
    have := (reachedIff.mp part).mp yet
    omega

theorem valueGap {a b : Variable} : (Linear.mk [(1, a), (-1, b)] 0).value values = values a - values b := by
  simp only [value, List.foldr_cons, List.foldr_nil]
  omega

theorem aliveHolds {t : Nat} (met : ∀ c ∈ aliveConstraints g t n, c.holds values = true) :
    values (.prepared n t) - values (.measured n t) ≤ values (.alive n t) := by
  have last := met (.compare ⟨[(1, .prepared n t), (-1, .measured n t)], 0⟩ .le (ofVariable (.alive n t)))
    (by simp [aliveConstraints])
  simpa only [Constraint.holds, Comparison.holds, valueOfVariable, valueGap, decide_eq_true_eq] using last

theorem presentCounts (sound : g.Sound) {time : Int} {prepared measured : List Int}
    (prepares : Once prepared (fun n => n ∈ toPrepare g ∧ values (.prepare n) ≤ time))
    (measures : Once measured (fun n => n ∈ toMeasure g ∧ values (.measure n) ≤ time)) :
    g.inputs.size + prepared.length ≤ (present g values time).size + measured.length := by
  have once : (g.inputs.keys ++ prepared).Nodup := by
    refine List.nodup_append.mpr ⟨g.inputs.distinct, prepares.1, fun a input b late same => ?_⟩
    have fresh := ((prepares.2 b).mp late).1
    exact (NodeSet.memDiff.mp fresh).2 (Graph.memInputNodes.mpr (same ▸ input))
  have stays : ∀ n ∈ g.nodes, n ∈ g.inputNodes ∨ values (.prepare n) ≤ time →
      n ∈ (present g values time).toList ++ measured := by
    intro n node start
    rw [List.mem_append, ← NodeSet.memDef, memPresent]
    by_cases here : n ∈ g.outputNodes ∨ time < values (.measure n)
    · exact .inl ⟨node, start, here⟩
    · obtain ⟨inner, gone⟩ := not_or.mp here
      exact .inr ((measures.2 n).mpr ⟨NodeSet.memDiff.mpr ⟨node, inner⟩, Int.not_lt.mp gone⟩)
  have inside : g.inputs.keys ++ prepared ⊆ (present g values time).toList ++ measured := by
    intro n listed
    rcases List.mem_append.mp listed with input | late
    · exact stays n (sound.inputsThere n input) (.inl (Graph.memInputNodes.mpr input))
    · obtain ⟨fresh, upTo⟩ := (prepares.2 n).mp late
      exact stays n (NodeSet.memDiff.mp fresh).1 (.inr upTo)
  have smaller := (List.subperm_of_subset once inside).length_le
  rwa [List.length_append, List.length_append, ← Table.sizeKeys] at smaller

/- Before the horizon what is there is alive in the model, which may count more. -/
theorem Meets.presentLe {horizon : Int} {bound : Linear → Constraint} {t : Nat}
    (met : Meets (liveness g horizon bound) values) (inside : t < horizon.toNat) :
    ((present g values t).size : Int) ≤ (aliveAt g t).value values ∧
      (bound (aliveAt g t)).holds values = true := by
  have now : t ∈ List.range horizon.toNat := List.mem_range.mpr inside
  have within : ∀ n ∈ g.nodes.toList, ∀ b ∈ aliveVariables t n, b.lower ≤ values b.var := by
    intro n mem b here
    exact (met.1 b (List.mem_flatMap.mpr ⟨t, now, List.mem_flatMap.mpr ⟨n, mem, here⟩⟩)).1
  have linked : ∀ n ∈ g.nodes.toList, ∀ c ∈ aliveConstraints g t n, c.holds values = true := by
    intro n mem c here
    refine met.2 c (List.mem_flatMap.mpr ⟨t, now, ?_⟩)
    exact List.mem_append_left _ (List.mem_flatMap.mpr ⟨n, mem, here⟩)
  constructor
  · refine sumCounts (fun n mem => within n mem ⟨.alive n t, 0, 1⟩ (by simp [aliveVariables]))
      fun n mem here => ?_
    obtain ⟨_, start, stop⟩ := memPresent.mp (NodeSet.memFilter.mpr ⟨mem, here⟩)
    have least : 0 ≤ values (.prepared n t) :=
      within n mem ⟨.prepared n t, 0, 1⟩ (by simp [aliveVariables])
    have prepared := preparedHolds (linked n mem) start
    have measured := measuredHolds (linked n mem) stop
    have alive := aliveHolds (linked n mem)
    omega
  · refine met.2 _ (List.mem_flatMap.mpr ⟨t, now, ?_⟩)
    exact List.mem_append_right _ (List.mem_singleton_self _)

theorem presentLast (built : build g d goal = .ok model) (fits : model.holds values = true)
    {time : Int} (late : horizon g goal ≤ time) : (present g values time).size ≤ g.outputs.size := by
  rw [Table.sizeKeys]
  refine (List.subperm_of_subset (NodeSet.nodup _) fun n mem => ?_).length_le
  obtain ⟨here, _, output | later⟩ := memPresent.mp (NodeSet.memDef.mpr mem)
  · exact Graph.memOutputNodes.mp output
  · by_contra absent
    have inner : n ∈ toMeasure g :=
      NodeSet.memDiff.mpr ⟨here, fun output => absent (Graph.memOutputNodes.mp output)⟩
    have := ((holdsTimes built fits).2 n inner).2
    omega

end Model

namespace Schedule
open OneWay.Graph OneWay.Pattern Times Model
variable {R : Type} [Scalar R] {g : Graph R} {s t : Schedule} {goal : Goal} {model : Model} {reply : Reply}
  {values : Assignment} {taken nodes : NodeSet} {xflow : Flow} {zflow : Option Flow} {correct : Bool}

theorem rankedUpTo {times : Times} {v : Int → Variable} {last : Int} {i : Nat}
    (ranked : ∀ n, times.get? n = if n ∈ nodes then some (some (rank taken (values (v n)))) else none)
    (inUse : last ∈ taken) (atLast : rank taken last = i) :
    Once ((List.range (i + 1)).flatMap fun (j : Nat) => (times.atTime j).toList)
      (fun n => n ∈ nodes ∧ values (v n) ≤ last) := by
  refine (slotsBelow times (i + 1)).congr fun n => ?_
  rw [ranked, ← Int.not_lt, ← rankLt inUse, atLast]
  constructor
  · rintro ⟨j, below, found⟩
    obtain ⟨here, eq⟩ := Option.ite_none_right_eq_some.mp found
    have same := Option.some.inj (Option.some.inj eq)
    exact ⟨here, by omega⟩
  · rintro ⟨here, upTo⟩
    refine ⟨(taken.filter (· < values (v n))).size, ?_, if_pos here⟩
    simp only [rank] at upTo
    omega

theorem Ranked.balanceLe (ranked : Ranked g values taken t) (sound : g.Sound) {i : Nat}
    {slot : NodeSet × NodeSet} {m : Int} (found : t.timeline[i]? = some slot) (mem : m ∈ slot.1) :
    m ∈ toPrepare g ∧ g.inputs.size + balance (t.timeline.take (i + 1)) ≤
      (present g values (values (.prepare m))).size := by
  obtain ⟨inside, rfl⟩ := timelineAt.mp found
  have atSlot := memAtTime.mp mem
  rw [ranked.prepare, Option.ite_none_right_eq_some] at atSlot
  obtain ⟨here, eq⟩ := atSlot
  have atLast := Option.some.inj (Option.some.inj eq)
  have inUse := ranked.prepareUsed m here
  refine ⟨here, ?_⟩
  have slots : t.timeline.take (i + 1) = (List.range (i + 1)).map fun (j : Nat) =>
      (t.prepare.atTime j, t.measure.atTime j) := by
    rw [timeline, ← List.map_take, List.take_range, Nat.min_eq_left inside]
  rw [slots, balance, List.flatMap_map, List.flatMap_map]
  have counts := presentCounts sound (rankedUpTo ranked.prepare inUse atLast)
    (rankedUpTo ranked.measure inUse atLast)
  dsimp only
  omega

theorem Ranked.compiles (ranked : Ranked g values taken t) (sound : g.Sound) :
    (∃ p, g.compile xflow zflow (some t) correct = .ok p) ↔
      ∃ p, g.compile xflow zflow none correct = .ok p := by
  simp only [compileTimedOk sound, compileOk]
  constructor
  · rintro ⟨_, zflow, x, z, order, measured, _, corrections, setsX, setsZ, parts, _⟩
    exact ⟨_, zflow, x, z, order, measured, corrections, setsX, setsZ, parts, rfl⟩
  · rintro ⟨_, zflow, x, z, order, measured, corrections, setsX, setsZ, parts, _⟩
    obtain ⟨commands, listed⟩ : ∃ commands, g.scheduled [] t.timeline = .ok commands := by
      refine scheduledTotal sound [] fun slot mem n here => ?_
      obtain ⟨i, found⟩ := List.mem_iff_getElem?.mp mem
      obtain ⟨_, rfl⟩ := timelineAt.mp found
      have atSlot := memAtTime.mp here
      rw [ranked.measure, Option.ite_none_right_eq_some] at atSlot
      exact ⟨(memInnerNodes.mp atSlot.1).1, (canonicalIff.mp parts.canonical).2.2 n atSlot.1⟩
    exact ⟨_, zflow, x, z, order, measured, commands, corrections, setsX, setsZ, parts, listed, rfl⟩

theorem Ranked.maxSpaceLe (ranked : Ranked g values taken t) (sound : g.Sound) {d : Dependency}
    (built : Model.build g d goal = .ok model) (fits : model.holds values = true) {p : Pattern R}
    (ok : g.compile xflow zflow (some t) correct = .ok p) {bound : Int}
    (early : ∀ time : Nat, time < (horizon g goal).toNat → (present g values time).size ≤ bound) :
    p.maxSpace ≤ max bound g.inputs.size := by
  obtain ⟨_, _, _, _, _, commands, _, _, _, parts, listed, rfl⟩ := (compileTimedOk sound).mp ok
  have sizes := (canonicalIff.mp parts.canonical).1
  refine (slotsOfScheduled listed).maxSpaceLe (le_max_right _ _) (fun i slot m found mem => ?_) correct _
  obtain ⟨here, live⟩ := ranked.balanceLe sound found mem
  obtain ⟨start, stop⟩ := (holdsTimes built fits).1 m here
  obtain ⟨time, eq⟩ := Int.eq_ofNat_of_zero_le start
  rcases Int.lt_or_le (values (.prepare m)) (horizon g goal) with before | last
  · have := early time (by omega)
    rw [eq] at live
    exact (live.trans this).trans (le_max_left _ _)
  · have := presentLast built fits last
    exact (live.trans (by omega)).trans (le_max_right _ _)

/- The number of qubits that the model counts is enough for the pattern, unless the inputs are more. -/
theorem solvedSpace (reach : g.Reachable) (built : Model.build g s.dependencies goal = .ok model)
    (found : reply.status.hasValues = true) (fits : model.holds reply.values = true) (xflow : Flow)
    (zflow : Option Flow) (correct : Bool) :
    ∃ t, s.solved g reply = (t, true) ∧
      ((∃ p, g.compile xflow zflow (some t) correct = .ok p) ↔
        ∃ p, g.compile xflow zflow none correct = .ok p) ∧
      ∀ p, g.compile xflow zflow (some t) correct = .ok p →
        (∀ limit, goal.strategy = .minimizeTime → goal.maxQubits = some limit →
          p.maxSpace ≤ max limit g.inputs.size) ∧
        (goal.strategy = .minimizeSpace → p.maxSpace ≤ max (reply.values .maxSpace) g.inputs.size) := by
  have sound := reachableSound reach
  obtain ⟨taken, t, solved, _, ranked⟩ := solvedRanked s g found
  obtain ⟨space, qubits⟩ := holdsLiveness built fits
  refine ⟨t, solved, ranked.compiles sound, fun p ok => ⟨?_, ?_⟩⟩
  · intro limit strategy limited
    refine ranked.maxSpaceLe sound built fits ok fun time inside => ?_
    obtain ⟨alive, bounded⟩ := (qubits limit strategy limited).presentLe inside
    exact alive.trans (atMostHolds bounded)
  · intro strategy
    refine ranked.maxSpaceLe sound built fits ok fun time inside => ?_
    obtain ⟨alive, bounded⟩ := (space strategy).presentLe inside
    have above : (aliveAt g time).value reply.values ≤ reply.values .maxSpace := by
      simpa [Constraint.holds, Comparison.holds] using bounded
    exact alive.trans above

open OneWay.Graph (twig twigFlow)

def twigLate : Assignment
  | .prepare n => if n = 1 then 0 else 1
  | .measure n => if n = 3 then 3 else n + 1
  | .prepared n time => if n < 2 ∨ 0 < time then 1 else 0
  | .measured n time => if n < 2 ∧ n < time then 1 else 0
  | .alive n time => if (n < 2 ∧ n < time) ∨ (1 < n ∧ time = 0) then 0 else 1
  | .maxSpace => 3
  | .makespan => 3

set_option maxRecDepth 1024

theorem twigNarrow : twig.Reachable ∧ ∃ s timeModel spaceModel t p, ofFlow twig twigFlow none = .ok s ∧
    Model.build twig s.dependencies ⟨.minimizeTime, some 3, some 3⟩ = .ok timeModel ∧
    Model.build twig s.dependencies ⟨.minimizeSpace, none, some 3⟩ = .ok spaceModel ∧
    timeModel.holds twigLate = true ∧ spaceModel.holds twigLate = true ∧
    s.solved twig ⟨.optimal, twigLate⟩ = (t, true) ∧ twig.compile twigFlow none (some t) true = .ok p ∧
    p.maxSpace ≤ max 3 twig.inputs.size ∧ p.maxSpace ≤ max (twigLate .maxSpace) twig.inputs.size ∧
    p.maxSpace = 3 := by
  have reach : twig.Reachable := ⟨_, rfl⟩
  obtain ⟨s, made⟩ : ∃ s, ofFlow twig twigFlow none = .ok s := ⟨_, rfl⟩
  obtain ⟨timeModel, timeBuilt⟩ : ∃ model, Model.build twig s.dependencies
      ⟨.minimizeTime, some 3, some 3⟩ = .ok model := ⟨_, rfl⟩
  obtain ⟨spaceModel, spaceBuilt⟩ : ∃ model, Model.build twig s.dependencies
      ⟨.minimizeSpace, none, some 3⟩ = .ok model := ⟨_, rfl⟩
  have timeFits : timeModel.holds twigLate = true := by
    cases made
    cases timeBuilt
    decide
  have spaceFits : spaceModel.holds twigLate = true := by
    cases made
    cases spaceBuilt
    decide
  have found : (Reply.mk .optimal twigLate).status.hasValues = true := rfl
  obtain ⟨t, solved, compiles, narrow⟩ := solvedSpace reach timeBuilt found timeFits twigFlow none true
  obtain ⟨t', solved', _, narrow'⟩ := solvedSpace reach spaceBuilt found spaceFits twigFlow none true
  obtain rfl : t = t' := congrArg Prod.fst (solved.symm.trans solved')
  obtain ⟨p, ok⟩ := compiles.mpr ⟨_, rfl⟩
  have most : p.maxSpace = 3 := by
    cases made
    cases solved
    cases ok
    rfl
  exact ⟨reach, s, timeModel, spaceModel, t, p, made, timeBuilt, spaceBuilt, timeFits, spaceFits, solved, ok,
    (narrow p ok).1 3 rfl rfl, (narrow' p ok).2 rfl, most⟩

end Schedule
end OneWay
