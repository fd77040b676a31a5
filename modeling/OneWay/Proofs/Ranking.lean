import Mathlib.Data.Finset.Card
import OneWay.Proofs.Compression

/-! Closing the gaps of two tables of times is renumbering them. A renumbering keeps which nodes have times
and how any two times compare, within a table and across the two, and its times are 0, 1, 2 and so on. There
is just one: a new time can only be the number of earlier ones. So what has no gaps is left as it is. -/
namespace OneWay

namespace Times
variable {t t' : Times} {before after : Times × Times} {prepare measure : Times} {taken : NodeSet}
  {n old new : Int} {k : Nat}

def numbers (k : Nat) : NodeSet :=
  ⟨(List.range k).map Int.ofNat, List.pairwise_map.mpr (List.pairwise_lt_range.imp Int.ofNat_lt.mpr)⟩

theorem memNumbers : new ∈ numbers k ↔ 0 ≤ new ∧ new < k := by
  rw [NodeSet.memDef, numbers, List.mem_map]
  constructor
  · rintro ⟨i, mem, rfl⟩
    exact ⟨Int.natCast_nonneg i, Int.ofNat_lt.mpr (List.mem_range.mp mem)⟩
  · rintro ⟨start, stop⟩
    exact ⟨new.toNat, List.mem_range.mpr (by omega), Int.toNat_of_nonneg start⟩

theorem sizeNumbers : (numbers k).size = k := by
  rw [NodeSet.size, numbers, List.length_map, List.length_range]

theorem rankNumbers (here : new ∈ numbers k) : rank (numbers k) new = new := by
  obtain ⟨start, stop⟩ := memNumbers.mp here
  have below : (numbers k).filter (· < new) = numbers new.toNat := by
    refine NodeSet.eqOfMem fun time => ?_
    rw [NodeSet.memFilter, memNumbers, memNumbers, decide_eq_true_eq]
    omega
  rw [rank, below, sizeNumbers, Int.toNat_of_nonneg start]

theorem ranksListed (taken : NodeSet) : taken.toList.map (rank taken) = (numbers taken.size).toList := by
  have rising : (taken.toList.map (rank taken)).Pairwise (· < ·) :=
    List.pairwise_map.mpr (taken.ascending.imp_of_mem fun {a b} here _ below => (rankLt here).mpr below)
  have inside : taken.toList.map (rank taken) ⊆ (numbers taken.size).toList := by
    intro r mem
    obtain ⟨time, here, rfl⟩ := List.mem_map.mp mem
    have fewer : (taken.filter (· < time)).size < taken.size :=
      NodeSet.sizeLt (fun _ mem => (NodeSet.memFilter.mp mem).1) here (by simp)
    exact memNumbers.mpr ⟨Int.natCast_nonneg _, Int.ofNat_lt.mpr fewer⟩
  -- As many different ranks as there are numbers for them: every number is one.
  have once : (taken.toList.map (rank taken)).Nodup := rising.imp Int.ne_of_lt
  have enough : (numbers taken.size).toList.length ≤ (taken.toList.map (rank taken)).length := by
    rw [← NodeSet.size, sizeNumbers, List.length_map, NodeSet.size]
  have perm := (List.subperm_of_subset once inside).perm_of_length_le enough
  exact NodeSet.listEqOfMem rising (NodeSet.ascending _) fun r => perm.mem_iff

theorem usedCard : (prepare.known ++ measure.known).toFinset.card = (used prepare measure).size := by
  have same : (prepare.known ++ measure.known).toFinset = (used prepare measure).toList.toFinset := by
    ext time
    rw [List.mem_toFinset, List.mem_toFinset, ← NodeSet.memDef, used, NodeSet.memOfList]
  rw [same, List.toFinset_card_of_nodup (NodeSet.nodup _), NodeSet.size]

structure Shaped (t t' : Times) : Prop where
  keys : t'.keys = t.keys
  unset : ∀ n, t'.get? n = some none ↔ t.get? n = some none

def Moved (before after : Times × Times) (old new : Int) : Prop :=
  (∃ n, before.1.get? n = some (some old) ∧ after.1.get? n = some (some new)) ∨
    ∃ n, before.2.get? n = some (some old) ∧ after.2.get? n = some (some new)

structure Renumbers (before after : Times × Times) : Prop where
  prepare : Shaped before.1 after.1
  measure : Shaped before.2 after.2
  order : ∀ {old new old' new'}, Moved before after old new → Moved before after old' new' →
    (new < new' ↔ old < old') ∧ (new = new' ↔ old = old')
  gapless : ∀ time, time ∈ after.1.known ++ after.2.known ↔
    0 ≤ time ∧ time < (before.1.known ++ before.2.known).toFinset.card

theorem timedIff : (∃ time, t.get? n = some (some time)) ↔ n ∈ t.keys ∧ ¬ t.get? n = some none := by
  rw [Table.memKeys]
  cases t.get? n with
  | none => simp
  | some time => cases time <;> simp

theorem Shaped.timed (shaped : Shaped t t') (n : Int) :
    (∃ old, t.get? n = some (some old)) ↔ ∃ new, t'.get? n = some (some new) := by
  rw [timedIff, timedIff, shaped.keys, shaped.unset]

theorem shapedMap {f : Int → Int} : Shaped t (t.mapValues fun _ time => time.map f) where
  keys := Table.keysMapValues
  unset n := by simp [Table.getMapValues]

theorem Shaped.eqMap {f : Int → Int} (shaped : Shaped t t')
    (moved : ∀ n old new, t.get? n = some (some old) → t'.get? n = some (some new) → new = f old) :
    t' = t.mapValues fun _ time => time.map f := by
  refine Table.eqOfGet (shaped.keys.trans Table.keysMapValues.symm) fun n => ?_
  rw [Table.getMapValues]
  cases found : t.get? n with
  | none =>
    rw [Table.getNone, ← shaped.keys, ← Table.getNone] at found
    rw [found, Option.map_none]
  | some time =>
    cases time with
    | none => exact (shaped.unset n).mpr found
    | some old =>
      obtain ⟨new, there⟩ := (shaped.timed n).mp ⟨old, found⟩
      rw [there, moved n old new found there]
      rfl

theorem Moved.used (moved : Moved before after old new) :
    old ∈ used before.1 before.2 ∧ new ∈ used after.1 after.2 := by
  rw [memUsed, memUsed]
  rcases moved with ⟨n, was, is⟩ | ⟨n, was, is⟩
  · exact ⟨.inl ⟨n, was⟩, .inl ⟨n, is⟩⟩
  · exact ⟨.inr ⟨n, was⟩, .inr ⟨n, is⟩⟩

namespace Renumbers

theorem total (renumbers : Renumbers before after) (here : old ∈ used before.1 before.2) :
    ∃ new, Moved before after old new := by
  rcases memUsed.mp here with ⟨n, was⟩ | ⟨n, was⟩
  · obtain ⟨new, is⟩ := (renumbers.prepare.timed n).mp ⟨old, was⟩
    exact ⟨new, .inl ⟨n, was, is⟩⟩
  · obtain ⟨new, is⟩ := (renumbers.measure.timed n).mp ⟨old, was⟩
    exact ⟨new, .inr ⟨n, was, is⟩⟩

theorem onto (renumbers : Renumbers before after) (there : new ∈ used after.1 after.2) :
    ∃ old, Moved before after old new := by
  rcases memUsed.mp there with ⟨n, is⟩ | ⟨n, is⟩
  · obtain ⟨old, was⟩ := (renumbers.prepare.timed n).mpr ⟨new, is⟩
    exact ⟨old, .inl ⟨n, was, is⟩⟩
  · obtain ⟨old, was⟩ := (renumbers.measure.timed n).mpr ⟨new, is⟩
    exact ⟨old, .inr ⟨n, was, is⟩⟩

theorem usedAfter (renumbers : Renumbers before after) :
    used after.1 after.2 = numbers (used before.1 before.2).size := by
  refine NodeSet.eqOfMem fun time => ?_
  rw [memNumbers, ← usedCard, used, NodeSet.memOfList]
  exact renumbers.gapless time

theorem rankKept (renumbers : Renumbers before after) (moved : Moved before after old new) :
    rank (used after.1 after.2) new = rank (used before.1 before.2) old := by
  have total : ∀ old ∈ used before.1 before.2, ∃ new, Moved before after old new :=
    fun old => renumbers.total
  choose! f moves using total
  have listed : ((used before.1 before.2).filter (· < old)).toList.map f =
      ((used after.1 after.2).filter (· < new)).toList := by
    refine NodeSet.listEqOfMem ?_ (NodeSet.ascending _) fun time => ?_
    · refine List.pairwise_map.mpr ((NodeSet.ascending _).imp_of_mem fun {a b} hereA hereB below => ?_)
      have first := moves a (NodeSet.memFilter.mp hereA).1
      have second := moves b (NodeSet.memFilter.mp hereB).1
      exact (renumbers.order first second).1.mpr below
    · rw [List.mem_map, ← NodeSet.memDef, NodeSet.memFilter, decide_eq_true_eq]
      constructor
      · rintro ⟨a, mem, rfl⟩
        obtain ⟨here, below⟩ := NodeSet.memFilter.mp mem
        refine ⟨(moves a here).used.2, ?_⟩
        exact (renumbers.order (moves a here) moved).1.mpr (of_decide_eq_true below)
      · rintro ⟨there, below⟩
        obtain ⟨a, comes⟩ := renumbers.onto there
        have here := comes.used.1
        refine ⟨a, NodeSet.memFilter.mpr ⟨here, decide_eq_true ?_⟩, ?_⟩
        · exact (renumbers.order comes moved).1.mp below
        · exact (renumbers.order (moves a here) comes).2.mpr rfl
  rw [rank, rank, NodeSet.size, NodeSet.size, ← listed, List.length_map]

theorem eqRank (renumbers : Renumbers before after) (moved : Moved before after old new) :
    new = rank (used before.1 before.2) old := by
  have there := moved.used.2
  rw [← renumbers.rankKept moved]
  rw [renumbers.usedAfter] at there ⊢
  exact (rankNumbers there).symm

theorem eqCompress (renumbers : Renumbers before after) : after = compress before.1 before.2 := by
  refine Prod.ext (renumbers.prepare.eqMap fun n old new was is => ?_)
    (renumbers.measure.eqMap fun n old new was is => ?_)
  · exact renumbers.eqRank (.inl ⟨n, was, is⟩)
  · exact renumbers.eqRank (.inr ⟨n, was, is⟩)

theorem again (renumbers : Renumbers before after) : Renumbers after after where
  prepare := ⟨rfl, fun _ => Iff.rfl⟩
  measure := ⟨rfl, fun _ => Iff.rfl⟩
  order {old new old' new'} first second := by
    have stays : ∀ {old new}, Moved after after old new → new = old := by
      rintro old new (⟨n, was, is⟩ | ⟨n, was, is⟩)
      · exact Option.some.inj (Option.some.inj (is.symm.trans was))
      · exact Option.some.inj (Option.some.inj (is.symm.trans was))
    rw [stays first, stays second]
    exact ⟨Iff.rfl, Iff.rfl⟩
  gapless time := by
    rw [renumbers.gapless, usedCard, usedCard, renumbers.usedAfter, sizeNumbers]

end Renumbers

theorem movedCompress (moved : Moved (prepare, measure) (compress prepare measure) old new) :
    new = rank (used prepare measure) old := by
  rcases moved with ⟨n, was, is⟩ | ⟨n, was, is⟩
  · rw [getCompress.1, was] at is
    exact (Option.some.inj (Option.some.inj is)).symm
  · rw [getCompress.2, was] at is
    exact (Option.some.inj (Option.some.inj is)).symm

theorem usedCompress : used (compress prepare measure).1 (compress prepare measure).2 =
    numbers (used prepare measure).size := by
  have listed : (used (compress prepare measure).1 (compress prepare measure).2).toList =
      (used prepare measure).toList.map (rank (used prepare measure)) :=
    Schedule.timesCompressed (s := ⟨∅, prepare, measure⟩)
  refine NodeSet.eqOfMem fun time => ?_
  rw [NodeSet.memDef, listed, ranksListed, NodeSet.memDef]

theorem renumbersCompress : Renumbers (prepare, measure) (compress prepare measure) where
  prepare := shapedMap
  measure := shapedMap
  order first second := by
    rw [movedCompress first, movedCompress second]
    exact ⟨rankLt first.used.1, rankInj first.used.1 second.used.1⟩
  gapless time := by
    rw [usedCard, ← memNumbers, ← usedCompress, used, NodeSet.memOfList]

theorem compressIsRenumbering (prepare measure : Times) :
    Renumbers (prepare, measure) (compress prepare measure) ∧
    (∀ after, Renumbers (prepare, measure) after → after = compress prepare measure) ∧
    compress (compress prepare measure).1 (compress prepare measure).2 = compress prepare measure :=
  ⟨renumbersCompress, fun _ => Renumbers.eqCompress, renumbersCompress.again.eqCompress.symm⟩

example : compress (.ofList [(1, some (-5)), (2, none), (3, some 7)]) (.ofList [(3, some 12), (0, some 7)]) =
    (.ofList [(1, some 0), (2, none), (3, some 1)], .ofList [(3, some 2), (0, some 1)]) := rfl

end Times
end OneWay
