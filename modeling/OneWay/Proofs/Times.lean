import OneWay.Proofs.Contents
import OneWay.Schedule.Compression

/-! Times of nodes, and the schedules made of them. A valid schedule gives every node that needs one a
time for its preparation and for its measurement, measures nodes before their dependants and never
prepares and measures a node in one slot; if no time is negative, its slots hold each node once. Ranks
keep the order of the times in use. -/
namespace OneWay

namespace NodeSet
variable {s t : NodeSet} {n : Int}

theorem sizeLe (inside : ∀ m ∈ s, m ∈ t) : s.size ≤ t.size :=
  (List.subperm_of_subset s.nodup inside).length_le

theorem sizeLt (inside : ∀ m ∈ s, m ∈ t) (there : n ∈ t) (absent : n ∉ s) : s.size < t.size := by
  have once : (n :: s.toList).Nodup := List.nodup_cons.mpr ⟨absent, s.nodup⟩
  have all : n :: s.toList ⊆ t.toList := List.cons_subset.mpr ⟨there, inside⟩
  exact (List.subperm_of_subset once all).length_le

end NodeSet

namespace Table
variable {α : Type}

theorem getOfNodes {nodes : NodeSet} {f : Int → α} {n : Int} :
    (ofList (nodes.toList.map fun n => (n, f n))).get? n = if n ∈ nodes then some (f n) else none := by
  have once : ((nodes.toList.map fun n => (n, f n)).map Prod.fst).Nodup := by
    simpa [List.map_map, Function.comp_def] using nodes.nodup
  have entry : ∀ v, (ofList (nodes.toList.map fun n => (n, f n))).get? n = some v ↔
      n ∈ nodes ∧ f n = v := by
    intro v
    rw [← memEntries, entriesOfList once, List.mem_map]
    simp only [Prod.mk.injEq, NodeSet.memDef]
    constructor
    · rintro ⟨m, mem, rfl, value⟩
      exact ⟨mem, value⟩
    · rintro ⟨mem, value⟩
      exact ⟨n, mem, rfl, value⟩
  split
  · rename_i mem
    exact (entry _).mpr ⟨mem, rfl⟩
  · rename_i absent
    exact Option.eq_none_iff_forall_ne_some.mpr fun v found => absent ((entry v).mp found).1

end Table

namespace Times
variable {t : Times} {taken : NodeSet} {n time a b : Int}

theorem memAtTime : n ∈ t.atTime time ↔ t.get? n = some (some time) := by
  simp [atTime, ← Table.memEntries]

theorem memKnown : time ∈ t.known ↔ ∃ n, t.get? n = some (some time) := by
  simp [known, Table.memValues]

theorem knownLatest (mem : time ∈ t.known) : time ≤ t.latest := by
  unfold latest
  split
  · rename_i none
    rw [none] at mem
    cases mem
  · rename_i first rest listed
    exact (foldlMax first rest).2 time (listed ▸ mem)

theorem slotsBelow (t : Times) (k : Nat) :
    Once ((List.range k).flatMap fun (i : Nat) => (t.atTime i).toList)
      (fun n => ∃ i : Nat, i < k ∧ t.get? n = some (some (i : Int))) := by
  constructor
  · refine List.nodup_flatMap.mpr ⟨fun i _ => NodeSet.nodup _, List.nodup_range.imp fun {i j} other => ?_⟩
    intro n early late
    have atI := memAtTime.mp (NodeSet.memDef.mpr early)
    have atJ := memAtTime.mp (NodeSet.memDef.mpr late)
    rw [atI, Option.some.injEq, Option.some.injEq] at atJ
    exact other (Int.ofNat.inj atJ)
  · intro n
    simp only [List.mem_flatMap, List.mem_range, ← NodeSet.memDef, memAtTime]

theorem slotsOnce {k : Nat} (inside : ∀ time ∈ t.known, 0 ≤ time ∧ time < k) :
    Once ((List.range k).flatMap fun (i : Nat) => (t.atTime i).toList)
      (fun n => ∃ time, t.get? n = some (some time)) := by
  refine (slotsBelow t k).congr fun n => ⟨?_, ?_⟩
  · rintro ⟨i, _, found⟩
    exact ⟨i, found⟩
  · rintro ⟨time, found⟩
    obtain ⟨start, stop⟩ := inside time (memKnown.mpr ⟨n, found⟩)
    exact ⟨time.toNat, by omega, by rw [Int.toNat_of_nonneg start, found]⟩

theorem memUsed {prepare measure : Times} : time ∈ used prepare measure ↔
    (∃ n, prepare.get? n = some (some time)) ∨ ∃ n, measure.get? n = some (some time) := by
  rw [used, NodeSet.memOfList, List.mem_append, memKnown, memKnown]

theorem getCompress {prepare measure : Times} :
    (compress prepare measure).1.get? n = (prepare.get? n).map (Option.map (rank (used prepare measure))) ∧
      (compress prepare measure).2.get? n =
        (measure.get? n).map (Option.map (rank (used prepare measure))) :=
  ⟨Table.getMapValues, Table.getMapValues⟩

theorem rankLe (taken : NodeSet) (le : a ≤ b) : rank taken a ≤ rank taken b := by
  refine Int.ofNat_le.mpr (NodeSet.sizeLe fun n mem => ?_)
  obtain ⟨here, below⟩ := NodeSet.memFilter.mp mem
  exact NodeSet.memFilter.mpr ⟨here, decide_eq_true ((of_decide_eq_true below).trans_le le)⟩

theorem rankLt (here : a ∈ taken) : rank taken a < rank taken b ↔ a < b := by
  constructor
  · intro below
    by_contra not
    have := rankLe taken (Int.not_lt.mp not)
    omega
  · intro below
    refine Int.ofNat_lt.mpr (NodeSet.sizeLt (fun n mem => ?_)
      (NodeSet.memFilter.mpr ⟨here, decide_eq_true below⟩) (by simp))
    obtain ⟨there, less⟩ := NodeSet.memFilter.mp mem
    exact NodeSet.memFilter.mpr ⟨there, decide_eq_true ((of_decide_eq_true less).trans below)⟩

theorem rankInj (hereA : a ∈ taken) (hereB : b ∈ taken) : rank taken a = rank taken b ↔ a = b := by
  constructor
  · intro same
    have left := rankLt (b := b) hereA
    have right := rankLt (b := a) hereB
    omega
  · rintro rfl
    rfl

end Times

namespace Schedule
open OneWay.Graph (setAt)
variable {R : Type} [Scalar R] {g : Graph R} {s : Schedule} {n : Int}

def FromZero (s : Schedule) : Prop := ∀ time ∈ s.prepare.known ++ s.measure.known, 0 ≤ time

instance : Decidable s.FromZero := inferInstanceAs (Decidable (∀ time ∈ _, 0 ≤ time))

theorem nodesMatchIff : s.nodesMatch g = true ↔
    (∀ n, n ∈ s.prepare.keys ↔ n ∈ toPrepare g) ∧ ∀ n, n ∈ s.measure.keys ↔ n ∈ toMeasure g := by
  have same : ∀ (ks : List Int) (nodes : NodeSet),
      NodeSet.ofList ks = nodes ↔ ∀ n, n ∈ ks ↔ n ∈ nodes := by
    intro ks nodes
    constructor
    · rintro rfl n
      exact NodeSet.memOfList.symm
    · exact fun all => NodeSet.eqOfMem fun n => NodeSet.memOfList.trans (all n)
  simp [nodesMatch, same]

theorem allTimedIff : s.allTimed = true ↔
    (∀ n ∈ s.prepare.keys, ∃ time, s.prepare.get? n = some (some time)) ∧
      ∀ n ∈ s.measure.keys, ∃ time, s.measure.get? n = some (some time) := by
  have each : ∀ t : Times, t.values.all Option.isSome = true ↔
      ∀ n ∈ t.keys, ∃ time, t.get? n = some (some time) := by
    intro t
    simp only [List.all_eq_true, Table.memValues, Table.memKeys]
    constructor
    · rintro all n ⟨v, found⟩
      obtain ⟨time, rfl⟩ := Option.isSome_iff_exists.mp (all v ⟨n, found⟩)
      exact ⟨time, found⟩
    · rintro all v ⟨n, found⟩
      obtain ⟨time, timed⟩ := all n ⟨v, found⟩
      rw [found] at timed
      cases timed
      rfl
  rw [allTimed, Bool.and_eq_true, each, each]

theorem respectsIff : s.respectsDependencies = true ↔ ∀ n, ∀ child ∈ setAt s.dependencies n,
    ∀ time later, s.measure.get? n = some (some time) → s.measure.get? child = some (some later) →
      time < later := by
  have joined : ∀ {n time : Int}, (s.measure.get? n).join = some time ↔
      s.measure.get? n = some (some time) := Option.join_eq_some_iff
  rw [respectsDependencies, List.all_eq_true]
  constructor
  · intro all n child mem time later early late
    have passed := all _ (Dependency.entryOfMember mem)
    simp only [joined.mpr early, List.all_eq_true] at passed
    have ordered := passed child mem
    simpa only [joined.mpr late, decide_eq_true_eq] using ordered
  · rintro all ⟨n, children⟩ entry
    cases early : (s.measure.get? n).join with
    | none => simp only [early]
    | some time =>
      simp only [early, List.all_eq_true]
      intro child mem
      cases late : (s.measure.get? child).join with
      | none => rfl
      | some later =>
        rw [← Dependency.memEntry entry] at mem
        exact decide_eq_true (all n child mem time later (joined.mp early) (joined.mp late))

theorem apartIff : s.apart = true ↔ ∀ n time, s.prepare.get? n = some (some time) →
    s.measure.get? n ≠ some (some time) := by
  simp only [apart, List.all_eq_true, NodeSet.isEmptyIff, NodeSet.memInter, Times.memAtTime, List.mem_append,
    Times.memKnown, not_and]
  constructor
  · intro all n time early
    exact all time (.inl ⟨n, early⟩) n early
  · intro all time _ n early
    exact all n time early

theorem isValidIff : s.isValid g = true ↔ s.nodesMatch g = true ∧ s.allTimed = true ∧
    s.respectsDependencies = true ∧ s.apart = true := by
  simp [isValid, and_assoc]

theorem validTimes (valid : s.isValid g = true) (n : Int) :
    ((∃ time, s.prepare.get? n = some (some time)) ↔ n ∈ toPrepare g) ∧
      ((∃ time, s.measure.get? n = some (some time)) ↔ n ∈ toMeasure g) := by
  obtain ⟨nodes, timed, -, -⟩ := isValidIff.mp valid
  obtain ⟨prepares, measures⟩ := nodesMatchIff.mp nodes
  obtain ⟨timedP, timedM⟩ := allTimedIff.mp timed
  constructor
  · rw [← prepares n]
    exact ⟨fun given => Table.memKeys.mpr ⟨_, given.choose_spec⟩, timedP n⟩
  · rw [← measures n]
    exact ⟨fun given => Table.memKeys.mpr ⟨_, given.choose_spec⟩, timedM n⟩

theorem timelineAt {i : Nat} {slot : NodeSet × NodeSet} : s.timeline[i]? = some slot ↔
    i < s.slices.toNat ∧ slot = (s.prepare.atTime i, s.measure.atTime i) := by
  simp only [timeline, List.getElem?_map, Option.map_eq_some_iff, List.getElem?_eq_some_iff,
    List.getElem_range, List.length_range]
  constructor
  · rintro ⟨_, ⟨inside, rfl⟩, rfl⟩
    exact ⟨inside, rfl⟩
  · rintro ⟨inside, rfl⟩
    exact ⟨i, ⟨inside, rfl⟩, rfl⟩

theorem FromZero.inside (zero : s.FromZero) :
    (∀ time ∈ s.prepare.known, 0 ≤ time ∧ time < s.slices.toNat) ∧
      ∀ time ∈ s.measure.known, 0 ≤ time ∧ time < s.slices.toNat := by
  constructor
  · intro time mem
    have start := zero time (List.mem_append_left _ mem)
    have stop := Times.knownLatest mem
    exact ⟨start, by unfold slices; omega⟩
  · intro time mem
    have start := zero time (List.mem_append_right _ mem)
    have stop := Times.knownLatest mem
    exact ⟨start, by unfold slices; omega⟩

theorem FromZero.slotAt (zero : s.FromZero) {time : Int} (mem : time ∈ s.prepare.known ++ s.measure.known) :
    ∃ i : Nat, time = i ∧ s.timeline[i]? = some (s.prepare.atTime i, s.measure.atTime i) := by
  obtain ⟨i, rfl⟩ := Int.eq_ofNat_of_zero_le (zero time mem)
  have stop : (i : Int) < s.slices.toNat :=
    (List.mem_append.mp mem).elim (fun here => (zero.inside.1 _ here).2) fun here => (zero.inside.2 _ here).2
  exact ⟨i, rfl, timelineAt.mpr ⟨by omega, rfl⟩⟩

theorem timelineOnce (valid : s.isValid g = true) (zero : s.FromZero) :
    Once (s.timeline.flatMap fun slot => slot.1.toList) (· ∈ toPrepare g) ∧
      Once (s.timeline.flatMap fun slot => slot.2.toList) (· ∈ toMeasure g) := by
  rw [timeline, List.flatMap_map, List.flatMap_map]
  exact ⟨(Times.slotsOnce zero.inside.1).congr fun n => (validTimes valid n).1,
    (Times.slotsOnce zero.inside.2).congr fun n => (validTimes valid n).2⟩

end Schedule
end OneWay
