import OneWay.Proofs.Pipeline
import OneWay.Proofs.Scheduled

/-! The order of the commands of a pattern that is compiled with a schedule. Such a compilation asks of the
flow what one without a schedule asks, and of the slots that their nodes have bases. An edge is made in the
first slot that measures one of its ends, before the measurements of that slot; a dependant is measured
in a later slot than the node it depends on. -/
namespace OneWay

namespace Graph
open Command Pattern Schedule
variable {R : Type} [Scalar R] {g : Graph R} {s : Schedule} {xflow zflow : Flow} {zgiven : Option Flow}
  {x z : Table NodeSet} {made : List (Int × Int)} {slots : List (NodeSet × NodeSet)}
  {commands : List (Command R)} {ns : List Int} {correct : Bool} {p : Pattern R}

theorem dependenciesOfSets (corrections : g.zCorrections xflow zgiven = .ok zflow)
    (setsX : xflow.sets = .ok x) (setsZ : zflow.sets = .ok z) :
    g.dependenciesOf xflow zgiven = .ok (g.dependencies x z) := by
  obtain ⟨x', okX, sameX⟩ := Flow.toSetsOfSets setsX .notFlow
  cases zgiven with
  | some given =>
    cases corrections
    obtain ⟨z', okZ, sameZ⟩ := Flow.toSetsOfSets setsZ .notZFlow
    rw [← dependenciesCongr sameX sameZ]
    simp only [dependenciesOf, okX, okZ]
    rfl
  | none =>
    simp only [zCorrections, Result.bindOk, Result.pureOk] at corrections
    obtain ⟨odd, collected, rfl⟩ := corrections
    have sets : ∀ e ∈ xflow.entries, e.2.asSet = .ok e.2.toSet := by
      intro e mem
      have listed : xflow.get? e.1 = some e.2 := Table.memEntries.mp mem
      rw [Flow.getSets setsX] at listed
      obtain ⟨s, _, eq⟩ := Option.map_eq_some_iff.mp listed
      rw [← eq]
      rfl
    have entries : x'.entries = xflow.entries.map fun e => (e.1, e.2.toSet) := by
      rw [Flow.toSets, Flow.setsGeneral setsX, Bool.or_true, if_pos rfl] at okX
      cases okX
      rfl
    have found : g.oddSets x' = .ok odd := by
      rw [oddSets, entries, List.foldlM_map, ← collected]
      refine Result.foldlMCongr fun e mem t => ?_
      rw [sets e mem]
      rfl
    have sameZ : ∀ n, setAt odd n = setAt z n := fun n => by rw [setAt, setAt, Flow.getOfSets setsZ]
    rw [← dependenciesCongr sameX sameZ]
    simp only [dependenciesOf, Result.bindOk, Result.pureOk]
    exact ⟨x', okX, odd, found, rfl⟩

theorem entangleNodesTotal (sound : g.Sound) (made : List (Int × Int)) (there : ∀ n ∈ ns, n ∈ g.nodes) :
    ∃ all, ns.foldlM g.entangleNode made = .ok all := by
  refine Result.foldlMTotal (fun n mem made => ?_) made
  simp only [entangleNode, Result.bindOk, Result.pureOk, sound.neighborsOk]
  exact ⟨_, _, ⟨there n mem, rfl⟩, rfl⟩

theorem scheduledTotal (sound : g.Sound) (made : List (Int × Int))
    (ready : ∀ slot ∈ slots, ∀ n ∈ slot.2, n ∈ g.nodes ∧ n ∈ g.bases.keys) :
    ∃ commands, g.scheduled made slots = .ok commands := by
  induction slots generalizing made with
  | nil => exact ⟨[], rfl⟩
  | cons slot slots ih =>
    obtain ⟨prepare, measure⟩ := slot
    have now := ready (prepare, measure) (by simp)
    obtain ⟨all, entangled⟩ := entangleNodesTotal sound made fun n mem => (now n mem).1
    obtain ⟨measured, measures⟩ : ∃ measured, measure.toList.mapM g.measurement = .ok measured := by
      refine Result.mapMTotal fun n mem => ?_
      obtain ⟨basis, found⟩ := Table.memKeys.mp (now n mem).2
      exact ⟨_, measurementOk.mpr ⟨basis, found, rfl⟩⟩
    obtain ⟨commands, later⟩ := ih all fun slot mem => ready slot (List.mem_cons_of_mem _ mem)
    simp only [scheduled, slot, Result.bindOk, Result.pureOk]
    exact ⟨_, _, ⟨all, entangled, measured, measures, rfl⟩, commands, later, rfl⟩

theorem compileTimedOk (sound : g.Sound) : g.compile xflow zgiven (some s) correct = .ok p ↔
    ∃ zflow x z order measured commands, g.zCorrections xflow zgiven = .ok zflow ∧ xflow.sets = .ok x ∧
      zflow.sets = .ok z ∧ Compiled g x z order measured ∧ g.scheduled [] s.timeline = .ok commands ∧
      p = ⟨g.inputs, g.outputs, commands ++ g.closing correct, .ofSets g.nodes x z⟩ := by
  simp only [compile, Result.refuseUnlessOk, Result.bindOk, Result.pureOk, Frame.ofFlows]
  constructor
  · intro given
    obtain ⟨canonical, zflow, corrections, _, checked, _, ⟨x, setsX, z, setsZ, rfl⟩, order, ordered,
      commands, listed, rfl⟩ := given
    rw [checkFlowSets setsX setsZ] at checked
    obtain ⟨measured, parts⟩ := orderMeasured sound canonical checked ordered
    exact ⟨zflow, x, z, order, measured, commands, corrections, setsX, setsZ, parts, listed, rfl⟩
  · intro given
    obtain ⟨zflow, x, z, order, measured, commands, corrections, setsX, setsZ, parts, listed, rfl⟩ := given
    refine ⟨parts.canonical, zflow, corrections, (), ?_, .ofSets g.nodes x z, ⟨x, setsX, z, setsZ, rfl⟩,
      order, parts.ordered, commands, listed, rfl⟩
    rw [checkFlowSets setsX setsZ]
    exact parts.checked

theorem Slots.fresh (run : Slots g made slots commands) (once : (bonds made).Nodup) {e : Sym2 Int}
    (mem : e ∈ commands.filterMap entangled?) : g.IsEdge e ∧ e ∉ bonds made := by
  obtain ⟨distinct, listed⟩ := run.edges once
  have apart : e ∉ bonds made := fun old => (List.nodup_append.mp distinct).2.2 e old e mem rfl
  rcases (listed e).mp (List.mem_append_right _ mem) with old | ⟨_, _, n, _, m, near, rfl⟩
  · exact absurd old apart
  · exact ⟨⟨n, m, rfl, near⟩, apart⟩

/- Once a node is measured, no edge is made at it: its own slot has made all that were missing. -/
theorem Slots.entangledFirst (run : Slots g made slots commands) (sound : g.Sound)
    (once : (bonds made).Nodup) : commands.Pairwise fun c d => ∀ n basis e, c = .measure n basis →
      d.entangled? = some e → n ∉ e := by
  induction run with
  | nil => exact .nil
  | @cons made new prepare measure measured slots commands entangles based rest ih =>
    have noEdge : ∀ d ∈ measured ++ prepare.toList.map Command.prepare, d.entangled? = none := by
      refine List.forall_mem_append.mpr ⟨?_, List.forall_mem_map.mpr fun _ _ => rfl⟩
      exact List.filterMap_eq_nil_iff.mp based.measures.contents.2.1
    have slot : (slotCommands new measured prepare).Pairwise fun c d => ∀ n basis e,
        c = .measure n basis → d.entangled? = some e → n ∉ e := by
      rw [slotCommands, List.append_assoc, List.pairwise_append]
      refine ⟨?_, ?_, ?_⟩
      · refine List.pairwise_of_forall_mem_list fun c here d _ n basis e eq => ?_
        obtain ⟨_, _, rfl⟩ := List.mem_map.mp here
        cases eq
      · refine List.pairwise_of_forall_mem_list fun c _ d there n basis e _ found => ?_
        rw [noEdge d there] at found
        cases found
      · intro c _ d there n basis e _ found
        rw [noEdge d there] at found
        cases found
    refine List.pairwise_append.mpr ⟨slot, ih (entangles.once once), ?_⟩
    intro c here d there n basis e eq found touched
    subst eq
    have inSlot : n ∈ measure := by
      have listed : (n, basis) ∈ (slotCommands new measured prepare).filterMap measured? :=
        memMeasured.mpr here
      have node := List.mem_map_of_mem (f := Prod.fst) listed
      rwa [(slotContents new prepare based.measures).2.2.1] at node
    obtain ⟨edge, late⟩ := rest.fresh (entangles.once once) (List.mem_filterMap.mpr ⟨d, there, found⟩)
    obtain ⟨m, rfl⟩ := Sym2.mem_iff_exists.mp touched
    exact late (entangles.covers n inSlot m (sound.isEdgeIff.mp edge))

theorem timelineAscends : (s.timeline.flatMap fun slot => slot.2.toList).Pairwise fun n m =>
    ∀ early late, s.measure.get? n = some (some early) → s.measure.get? m = some (some late) →
      early ≤ late := by
  rw [timeline, List.flatMap_map, List.pairwise_flatMap]
  constructor
  · intro i _
    refine List.pairwise_of_forall_mem_list fun n here m there early late atN atM => ?_
    have timeN := atN.symm.trans (Times.memAtTime.mp (NodeSet.memDef.mpr here))
    have timeM := atM.symm.trans (Times.memAtTime.mp (NodeSet.memDef.mpr there))
    cases timeN
    cases timeM
    exact le_refl _
  · refine List.pairwise_lt_range.imp fun {i j} below n here m there early late atN atM => ?_
    have timeN := atN.symm.trans (Times.memAtTime.mp (NodeSet.memDef.mpr here))
    have timeM := atM.symm.trans (Times.memAtTime.mp (NodeSet.memDef.mpr there))
    cases timeN
    cases timeM
    exact Int.ofNat_le.mpr below.le

theorem Slots.childrenLater (run : Slots g [] s.timeline commands) (valid : s.isValid g = true)
    (zero : s.FromZero) {u v : Int} {a b : Basis R} (first : Command.measure u a ∈ commands)
    (second : Command.measure v b ∈ commands) (child : v ∈ setAt s.dependencies u) (other : u ≠ v) :
    List.Sublist [.measure u a, .measure v b] commands := by
  have inner : ∀ {n : Int} {basis : Basis R}, Command.measure n basis ∈ commands →
      ∃ time, s.measure.get? n = some (some time) := by
    intro n basis mem
    have node := List.mem_map_of_mem (f := Prod.fst) (memMeasured.mpr mem)
    rw [run.contents.2.1] at node
    exact (validTimes valid n).2.mpr (((timelineOnce valid zero).2.2 n).mp node)
  obtain ⟨early, atU⟩ := inner first
  obtain ⟨late, atV⟩ := inner second
  have below : early < late :=
    respectsIff.mp (isValidIff.mp valid).2.2.1 u v child early late atU atV
  have apart : Command.measure u a ≠ .measure v b := fun eq => other (Command.measure.inj eq).1
  refine (eitherOrder first second apart).resolve_right fun wrong => ?_
  have nodes : List.Sublist [v, u] (s.timeline.flatMap fun slot => slot.2.toList) := by
    rw [← run.contents.2.1]
    exact (wrong.filterMap measured?).map Prod.fst
  have back := List.pairwise_iff_forall_sublist.mp timelineAscends nodes late early atV atU
  omega

/- Every node and every edge that needs it has its commands once, and these come in an order in which
they can be carried out: edges before the measurements of their ends, dependants after what they depend
on. -/
theorem scheduledSequence (reach : g.Reachable) (owned : g.dependenciesOf xflow zgiven = .ok s.dependencies)
    (valid : s.isValid g = true) (zero : s.FromZero)
    (ok : g.compile xflow zgiven (some s) correct = .ok p) :
    Builds g (fun e => g.IsEdge e ∧ ∃ n ∈ e, n ∉ g.outputNodes) correct p.commands ∧
      (∀ a b n basis, .entangle a b ∈ p.commands → .measure n basis ∈ p.commands → n = a ∨ n = b →
        List.Sublist [.entangle a b, .measure n basis] p.commands) ∧
      ∀ u v a b, .measure u a ∈ p.commands → .measure v b ∈ p.commands → v ∈ p.frame.children u →
        List.Sublist [.measure u a, .measure v b] p.commands := by
  have sound := reachableSound reach
  obtain ⟨zflow, x, z, order, measured, commands, corrections, setsX, setsZ, parts, listed, rfl⟩ :=
    (compileTimedOk sound).mp ok
  have run := slotsOfScheduled listed
  have builds := run.builds valid zero sound correct
  have kept : commands.Sublist (commands ++ g.closing correct) := List.sublist_append_left _ _
  have early : ∀ {n basis}, Command.measure n basis ∈ commands ++ g.closing correct →
      Command.measure n basis ∈ commands := by
    intro n basis mem
    exact (List.mem_append.mp mem).resolve_right fun last => closingQuiet last n basis rfl
  have edgeEarly : ∀ {a b}, Command.entangle a b ∈ commands ++ g.closing correct →
      Command.entangle a b ∈ commands := by
    intro a b mem
    refine (List.mem_append.mp mem).resolve_right fun last => ?_
    obtain ⟨_, _, kind⟩ := memClosing last
    simp at kind
  refine ⟨builds, ?_, ?_⟩
  · intro a b n basis edge measure touched
    have apart : (Command.entangle a b : Command R) ≠ .measure n basis := by simp
    refine List.Sublist.trans ?_ kept
    refine (eitherOrder (edgeEarly edge) (early measure) apart).resolve_right fun wrong => ?_
    have never := List.pairwise_iff_forall_sublist.mp (run.entangledFirst sound .nil) wrong
    exact never n basis s(a, b) rfl rfl (Sym2.mem_iff.mpr touched)
  · intro u v a b first second child
    have inner : u ∈ g.innerNodes :=
      NodeSet.memDiff.mpr ((builds.measured.2 u).mp (List.mem_map_of_mem (memMeasured.mpr first)))
    have other : u ≠ v := fun eq => (NodeSet.memErase.mp child).2 eq.symm
    rw [parts.children inner] at child
    rw [← Except.ok.inj (owned.symm.trans (dependenciesOfSets corrections setsX setsZ))] at child
    exact (run.childrenLater valid zero (early first) (early second) child other).trans kept

def twigCommands : List (Command Float) := [.prepare 1, .prepare 2, .prepare 3, .entangle 0 1,
  .measure 0 (.axial .x .plus), .entangle 1 2, .entangle 1 3, .measure 1 (.axial .x .minus),
  .measure 3 (.axial .z .plus), .correctX 2, .correctZ 2]

set_option maxRecDepth 1024

theorem twigSequence : twig.Reachable ∧ ∃ s p,
    (ofFlow twig twigFlow none).map (withTimes · twig twigPrepare twigMeasure) = .ok s ∧
    twig.dependenciesOf twigFlow none = .ok s.dependencies ∧ s.isValid twig = true ∧ s.FromZero ∧
    twig.compile twigFlow none (some s) true = .ok p ∧ p.commands = twigCommands ∧
    List.Sublist [.entangle 0 1, .measure 1 (.axial .x .minus)] p.commands ∧
    List.Sublist [.measure 0 (.axial .x .plus), .measure 3 (.axial .z .plus)] p.commands := by
  have reach : twig.Reachable := ⟨_, rfl⟩
  obtain ⟨s, made, valid, zero⟩ := twigTimed
  have owned : twig.dependenciesOf twigFlow none = .ok s.dependencies := by
    cases made
    rfl
  obtain ⟨p, ok, listed, child⟩ : ∃ p, twig.compile twigFlow none (some s) true = .ok p ∧
      p.commands = twigCommands ∧ 3 ∈ p.frame.children 0 := by
    cases made
    exact ⟨_, rfl, rfl, by decide⟩
  obtain ⟨_, entangled, measured⟩ := scheduledSequence reach owned valid zero ok
  have edge := entangled 0 1 1 (.axial .x .minus) (by simp [listed, twigCommands])
    (by simp [listed, twigCommands]) (.inr rfl)
  have nodes := measured 0 3 (.axial .x .plus) (.axial .z .plus) (by simp [listed, twigCommands])
    (by simp [listed, twigCommands]) child
  exact ⟨reach, s, p, made, owned, valid, zero, ok, listed, edge, nodes⟩

end Graph
end OneWay
