import OneWay.Proofs.Scheduled

/-! Closing the gaps of a schedule. Ranks keep the order of the times in use, so a compressed schedule is as
valid as the given one; and if no time is negative, its slots are those of the given one without the ones
in which nothing happens, so that the same commands come out. -/
namespace OneWay

theorem Times.getRanked {t : Times} {f : Int → Int} {n time : Int} :
    (t.get? n).map (Option.map f) = some (some time) ↔
      ∃ old, t.get? n = some (some old) ∧ f old = time := by
  simp [Option.map_eq_some_iff]

namespace Schedule
open OneWay.Graph (setAt)
open Times (rank)
variable {R : Type} [Scalar R] {g : Graph R} {s : Schedule} {n time : Int}

def compressed (s : Schedule) : Schedule :=
  { s with
    prepare := (Times.compress s.prepare s.measure).1
    measure := (Times.compress s.prepare s.measure).2 }

def times (s : Schedule) : NodeSet := Times.used s.prepare s.measure

theorem prepareCompressed : s.compressed.prepare.get? n = some (some time) ↔
    ∃ old, s.prepare.get? n = some (some old) ∧ rank s.times old = time :=
  Times.getCompress.1 ▸ Times.getRanked

theorem measureCompressed : s.compressed.measure.get? n = some (some time) ↔
    ∃ old, s.measure.get? n = some (some old) ∧ rank s.times old = time :=
  Times.getCompress.2 ▸ Times.getRanked

theorem preparedTime (found : s.prepare.get? n = some (some time)) : time ∈ s.times :=
  Times.memUsed.mpr (.inl ⟨n, found⟩)

theorem measuredTime (found : s.measure.get? n = some (some time)) : time ∈ s.times :=
  Times.memUsed.mpr (.inr ⟨n, found⟩)

theorem nodesCompressed : s.compressed.nodesMatch g = s.nodesMatch g := by
  simp only [nodesMatch, compressed, Times.compress, Table.keysMapValues]

theorem timedCompressed : s.compressed.allTimed = s.allTimed := by
  simp [allTimed, compressed, Times.compress, Table.values, Table.mapValues, Function.comp_def]

theorem respectsCompressed : s.compressed.respectsDependencies = s.respectsDependencies := by
  rw [Bool.eq_iff_iff, respectsIff, respectsIff]
  constructor
  · intro kept n child member early late atN atChild
    have ranked := kept n child member _ _ (measureCompressed.mpr ⟨early, atN, rfl⟩)
      (measureCompressed.mpr ⟨late, atChild, rfl⟩)
    exact (Times.rankLt (measuredTime atN)).mp ranked
  · intro kept n child member early late atN atChild
    obtain ⟨time, first, rfl⟩ := measureCompressed.mp atN
    obtain ⟨later, second, rfl⟩ := measureCompressed.mp atChild
    exact (Times.rankLt (measuredTime first)).mpr (kept n child member time later first second)

theorem apartCompressed : s.compressed.apart = s.apart := by
  rw [Bool.eq_iff_iff, apartIff, apartIff]
  constructor
  · intro kept n time early late
    exact kept n _ (prepareCompressed.mpr ⟨time, early, rfl⟩) (measureCompressed.mpr ⟨time, late, rfl⟩)
  · intro kept n time early late
    obtain ⟨first, prepared, rfl⟩ := prepareCompressed.mp early
    obtain ⟨second, measured, same⟩ := measureCompressed.mp late
    have met := (Times.rankInj (measuredTime measured) (preparedTime prepared)).mp same
    exact kept n first prepared (met ▸ measured)

theorem validCompressed : s.compressed.isValid g = s.isValid g := by
  rw [isValid, isValid, nodesCompressed, timedCompressed, respectsCompressed, apartCompressed]

def slotAt (s : Schedule) (time : Int) : NodeSet × NodeSet := (s.prepare.atTime time, s.measure.atTime time)

def busy (slot : NodeSet × NodeSet) : Bool := !(slot.1.isEmpty && slot.2.isEmpty)

theorem busyAt : busy (s.slotAt time) = true ↔ time ∈ s.times := by
  rw [times, Times.memUsed, busy, Bool.not_eq_true', Bool.and_eq_false_iff, ← Bool.not_eq_true,
    ← Bool.not_eq_true, NodeSet.isEmptyIff, NodeSet.isEmptyIff]
  simp [slotAt, Times.memAtTime]

theorem busyTimeline (zero : s.FromZero) : s.timeline.filter busy = s.times.toList.map s.slotAt := by
  have inUse : ((List.range s.slices.toNat).filter fun (i : Nat) => busy (s.slotAt i)).map Int.ofNat =
      s.times.toList := by
    refine NodeSet.listEqOfMem ?_ s.times.ascending fun time => ?_
    · exact List.pairwise_map.mpr ((List.pairwise_lt_range.filter _).imp Int.ofNat_lt.mpr)
    · rw [← NodeSet.memDef, List.mem_map]
      constructor
      · rintro ⟨i, mem, rfl⟩
        exact busyAt.mp (List.mem_filter.mp mem).2
      · intro used
        have known : time ∈ s.prepare.known ++ s.measure.known := NodeSet.memOfList.mp used
        obtain ⟨i, rfl, slot⟩ := zero.slotAt known
        exact ⟨i, List.mem_filter.mpr ⟨List.mem_range.mpr (timelineAt.mp slot).1, busyAt.mpr used⟩, rfl⟩
  rw [← inUse, List.map_map, timeline, List.filter_map]
  rfl

theorem timesCompressed : s.compressed.times.toList = s.times.toList.map (rank s.times) := by
  refine NodeSet.listEqOfMem s.compressed.times.ascending ?_ fun time => ?_
  · refine List.pairwise_map.mpr (s.times.ascending.imp_of_mem fun {a b} here _ below => ?_)
    exact (Times.rankLt here).mpr below
  · rw [← NodeSet.memDef, List.mem_map]
    constructor
    · intro used
      rcases Times.memUsed.mp used with ⟨n, found⟩ | ⟨n, found⟩
      · obtain ⟨old, found, same⟩ := prepareCompressed.mp found
        exact ⟨old, preparedTime found, same⟩
      · obtain ⟨old, found, same⟩ := measureCompressed.mp found
        exact ⟨old, measuredTime found, same⟩
    · rintro ⟨old, used, rfl⟩
      rcases Times.memUsed.mp used with ⟨n, found⟩ | ⟨n, found⟩
      · exact preparedTime (prepareCompressed.mpr ⟨old, found, rfl⟩)
      · exact measuredTime (measureCompressed.mpr ⟨old, found, rfl⟩)

theorem atCompressed {before after : Times}
    (moved : ∀ {n time}, after.get? n = some (some time) ↔
      ∃ old, before.get? n = some (some old) ∧ rank s.times old = time)
    (inUse : ∀ {n time}, before.get? n = some (some time) → time ∈ s.times) (used : time ∈ s.times) :
    after.atTime (rank s.times time) = before.atTime time := by
  refine NodeSet.eqOfMem fun n => ?_
  rw [Times.memAtTime, Times.memAtTime, moved]
  constructor
  · rintro ⟨old, found, same⟩
    exact (Times.rankInj (inUse found) used).mp same ▸ found
  · exact fun found => ⟨time, found, rfl⟩

theorem slotCompressed (used : time ∈ s.times) : s.compressed.slotAt (rank s.times time) = s.slotAt time :=
  Prod.ext (atCompressed prepareCompressed preparedTime used) (atCompressed measureCompressed measuredTime used)

theorem compressedFromZero : s.compressed.FromZero := by
  intro time mem
  have used : time ∈ s.compressed.times := NodeSet.memOfList.mpr mem
  rw [NodeSet.memDef, timesCompressed, List.mem_map] at used
  obtain ⟨old, _, rfl⟩ := used
  exact Int.natCast_nonneg _

theorem busyCompressed (zero : s.FromZero) : s.compressed.timeline.filter busy = s.timeline.filter busy := by
  rw [busyTimeline compressedFromZero, busyTimeline zero, timesCompressed, List.map_map]
  exact List.map_congr_left fun time used => slotCompressed used

end Schedule

namespace Graph
open Schedule
variable {R : Type} [Scalar R] {g : Graph R} {s : Schedule} {made : List (Int × Int)}
  {slots : List (NodeSet × NodeSet)}

theorem slotIdle {prepare measure : NodeSet} (idle : busy (prepare, measure) = false) :
    g.slot made prepare measure = .ok ([], made) := by
  obtain ⟨noN, noM⟩ : prepare.toList = [] ∧ measure.toList = [] := by
    simpa [busy, NodeSet.isEmpty] using idle
  simp only [slot, noN, noM, Result.bindOk, Result.pureOk]
  exact ⟨made, rfl, [], rfl, by simp⟩

theorem scheduledBusy : g.scheduled made (slots.filter busy) = g.scheduled made slots := by
  induction slots generalizing made with
  | nil => rfl
  | cons slot slots ih =>
    obtain ⟨prepare, measure⟩ := slot
    cases work : busy (prepare, measure) with
    | true =>
      rw [List.filter_cons_of_pos work, scheduled, scheduled]
      simp only [ih]
    | false =>
      rw [List.filter_cons_of_neg (by simp [work]), ih, scheduled, slotIdle work]
      exact (bind_pure (g.scheduled made slots)).symm

/- A compressed schedule is valid or not as the given one is. Where no time is negative, compilation with
it comes to the same, be it a pattern or a refusal. -/
theorem compressedAlike (g : Graph R) (s : Schedule) : s.compressed.isValid g = s.isValid g ∧
    (s.FromZero → ∀ xflow zflow correct,
      g.compile xflow zflow (some s.compressed) correct = g.compile xflow zflow (some s) correct) := by
  refine ⟨validCompressed, fun zero xflow zflow correct => ?_⟩
  have commands : g.scheduled [] s.compressed.timeline = g.scheduled [] s.timeline := by
    rw [← scheduledBusy, busyCompressed zero, scheduledBusy]
  simp only [compile, commands]

def twigSparse : Times × Times :=
  (.ofList [(1, some 3), (2, none), (3, some 3)], .ofList [(0, some 5), (1, some 9), (3, some 9)])

set_option maxRecDepth 1024

theorem twigCompressed : ∃ s p,
    (ofFlow twig twigFlow none).map (withTimes · twig twigSparse.1 twigSparse.2) = .ok s ∧
    s.FromZero ∧ s.timeline.length = 10 ∧ s.compressed.timeline.length = 3 ∧
    s.compressed.isValid twig = s.isValid twig ∧
    twig.compile twigFlow none (some s) true = .ok p ∧
    twig.compile twigFlow none (some s.compressed) true = .ok p := by
  obtain ⟨s, made⟩ : ∃ s,
      (ofFlow twig twigFlow none).map (withTimes · twig twigSparse.1 twigSparse.2) = .ok s := ⟨_, rfl⟩
  have zero : s.FromZero := by
    cases made
    decide
  obtain ⟨p, ok⟩ : ∃ p, twig.compile twigFlow none (some s) true = .ok p := by
    cases made
    exact ⟨_, rfl⟩
  obtain ⟨valid, alike⟩ := compressedAlike twig s
  refine ⟨s, p, made, zero, ?_, ?_, valid, ok, (alike zero _ _ _).trans ok⟩
  · cases made
    rfl
  · cases made
    rfl

end Graph
end OneWay
