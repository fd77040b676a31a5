import Mathlib.Data.List.Nodup
import OneWay.Graph.Basic
import OneWay.Proofs.Result

/-! More about tables and node sets: the entries of a table are the graph of its look-up, and a table
collected from the entries of another has the same keys. -/
namespace OneWay

namespace NodeSet

theorem nodup (s : NodeSet) : s.toList.Nodup := s.ascending.imp fun below => Int.ne_of_lt below

theorem isEmptyIff {s : NodeSet} : s.isEmpty = true ↔ ∀ n, n ∉ s := by
  rw [isEmpty, List.isEmpty_iff]
  constructor
  · intro none n mem
    rw [memDef, none] at mem
    exact List.not_mem_nil mem
  · intro none
    exact List.eq_nil_iff_forall_not_mem.mpr none

theorem eqIff {s t : NodeSet} : s = t ↔ ∀ n, n ∈ s ↔ n ∈ t := by
  constructor
  · rintro rfl n
    exact Iff.rfl
  · exact eqOfMem

theorem eqEmptyIff {s : NodeSet} : s = ∅ ↔ ∀ n, n ∉ s := by
  simp [eqIff]

theorem isEmptyIffEq {s : NodeSet} : s.isEmpty = true ↔ s = ∅ := isEmptyIff.trans eqEmptyIff.symm

theorem toListSingleton {n : Int} : (singleton n).toList = [n] := rfl

def pairs (s : NodeSet) (near : Int → NodeSet) : List (Int × Int) :=
  s.toList.flatMap fun a => (near a).toList.map fun b => (a, b)

theorem memPairs {s : NodeSet} {near : Int → NodeSet} {a b : Int} :
    (a, b) ∈ s.pairs near ↔ a ∈ s ∧ b ∈ near a := by
  simp only [pairs, List.mem_flatMap, List.mem_map, Prod.mk.injEq, memDef]
  constructor
  · rintro ⟨a', mem, b', mem', rfl, rfl⟩
    exact ⟨mem, mem'⟩
  · rintro ⟨mem, mem'⟩
    exact ⟨a, mem, b, mem', rfl, rfl⟩

theorem pairsNodup {s : NodeSet} {near : Int → NodeSet} : (s.pairs near).Nodup := by
  refine List.nodup_flatMap.mpr ⟨fun a _ => ?_, s.nodup.imp fun {a a'} other => ?_⟩
  · exact (nodup _).map fun b b' eq => (Prod.mk.inj eq).2
  · intro e mem mem'
    obtain ⟨_, _, eq⟩ := List.mem_map.mp mem
    obtain ⟨_, _, eq'⟩ := List.mem_map.mp mem'
    exact other (Prod.mk.inj (eq.trans eq'.symm)).1

end NodeSet

namespace Table
variable {α β ε : Type}

theorem memEntries {t : Table α} {k : Int} {v : α} : (k, v) ∈ t.entries ↔ t.get? k = some v := by
  have once := t.distinct
  unfold get?
  generalize t.entries = xs at once ⊢
  induction xs with
  | nil => simp
  | cons e rest ih =>
    obtain ⟨fresh, once⟩ := List.nodup_cons.mp once
    by_cases here : e.1 = k
    · have elsewhere : (k, v) ∉ rest := fun mem =>
        fresh (here ▸ List.mem_map_of_mem (f := Prod.fst) mem)
      simp only [List.mem_cons, elsewhere, or_false, List.find?_cons, here, BEq.rfl, Option.map_some,
        Option.some.injEq]
      constructor
      · intro eq
        rw [← eq]
      · rintro rfl
        rw [← here]
    · have other : (k, v) ≠ e := fun eq => here (by rw [← eq])
      simp only [List.mem_cons, other, false_or, List.find?_cons, beq_eq_false_iff_ne.mpr here, ih once]

theorem getNone {t : Table α} {k : Int} : t.get? k = none ↔ k ∉ t.keys := by
  rw [memKeys]
  cases t.get? k <;> simp

theorem eqOfGet {s t : Table α} (keys : s.keys = t.keys)
    (same : ∀ k, s.get? k = t.get? k) : s = t := by
  have listed (t : Table α) : t.entries = t.keys.filterMap fun k => (t.get? k).map fun v => (k, v) := by
    rw [Table.keys, List.filterMap_map]
    refine (List.filterMap_some.symm).trans (List.filterMap_congr fun e mem => ?_)
    rw [Function.comp_apply, memEntries.mp mem, Option.map_some]
  have entries : s.entries = t.entries := by rw [listed s, listed t, keys]; simp only [same]
  cases s
  cases t
  cases entries
  rfl

@[simp] theorem notContainsIff {t : Table α} {k : Int} : t.contains k = false ↔ k ∉ t.keys := by
  rw [← containsIff, Bool.not_eq_true]

theorem memValues {t : Table α} {v : α} : v ∈ t.values ↔ ∃ k, t.get? k = some v := by
  simp only [values, List.mem_map, Prod.exists, memEntries, exists_eq_right]

@[simp] theorem memKeysSet {t : Table α} {k j : Int} {v : α} :
    j ∈ (t.set k v).keys ↔ j = k ∨ j ∈ t.keys := memKeysWrite

@[simp] theorem memKeysErase {t : Table α} {k j : Int} : j ∈ (t.erase k).keys ↔ j ∈ t.keys ∧ j ≠ k := by
  simp only [memKeys, getErase]
  by_cases h : j = k <;> simp [h]

theorem eraseAbsent {t : Table α} {k : Int} (absent : k ∉ t.keys) : t.erase k = t := by
  have whole : t.entries.filter (·.1 != k) = t.entries := by
    refine List.filter_eq_self.mpr fun e mem => bne_iff_ne.mpr fun same => absent ?_
    exact same ▸ List.mem_map_of_mem mem
  cases t
  simpa [erase] using whole

@[simp] theorem keysMapValues {f : Int → α → β} {t : Table α} : (t.mapValues f).keys = t.keys := by
  simp [keys, mapValues, List.map_map, Function.comp_def]

@[simp] theorem keysEmpty : (∅ : Table α).keys = [] := rfl

theorem writeFresh {k : Int} {v : α} {xs : List (Int × α)} (fresh : k ∉ xs.map Prod.fst) :
    write k v xs = xs ++ [(k, v)] := by
  induction xs with
  | nil => rfl
  | cons e rest ih =>
    simp only [List.map_cons, List.mem_cons, not_or] at fresh
    have other : ¬ e.1 = k := fun eq => fresh.1 eq.symm
    rw [write, if_neg other, ih fresh.2, List.cons_append]

theorem keysWriteOld {k : Int} {v : α} {xs : List (Int × α)} (old : k ∈ xs.map Prod.fst) :
    (write k v xs).map Prod.fst = xs.map Prod.fst := by
  induction xs with
  | nil => cases old
  | cons e rest ih =>
    rw [write]
    split
    · rename_i here
      rw [List.map_cons, List.map_cons, here]
    · rename_i other
      have later : k ∈ rest.map Prod.fst := by
        rcases List.mem_cons.mp old with same | mem
        · exact absurd same.symm other
        · exact mem
      rw [List.map_cons, List.map_cons, ih later]

theorem keysSetOld {t : Table α} {k : Int} {v : α} (old : k ∈ t.keys) :
    (t.set k v).keys = t.keys := keysWriteOld old

theorem entriesSet {t : Table α} {k : Int} {v : α} (fresh : k ∉ t.keys) :
    (t.set k v).entries = t.entries ++ [(k, v)] := writeFresh fresh

theorem keysSet {t : Table α} {k : Int} {v : α} (fresh : k ∉ t.keys) :
    (t.set k v).keys = t.keys ++ [k] := by
  rw [keys, entriesSet fresh, List.map_append]
  rfl

theorem foldlSetEntries {xs : List (Int × α)} {t : Table α} (once : (xs.map Prod.fst).Nodup)
    (fresh : ∀ k ∈ xs.map Prod.fst, k ∉ t.keys) :
    (xs.foldl (fun t e => t.set e.1 e.2) t).entries = t.entries ++ xs := by
  induction xs generalizing t with
  | nil => simp
  | cons e rest ih =>
    obtain ⟨new, once⟩ := List.nodup_cons.mp once
    have here : e.1 ∉ t.keys := fresh e.1 (by simp)
    rw [List.foldl_cons, ih once, entriesSet here, List.append_assoc]
    · rfl
    · intro k mem
      rw [memKeysSet]
      rintro (rfl | old)
      · exact new mem
      · exact fresh k (List.mem_cons_of_mem _ mem) old

theorem entriesOfList {xs : List (Int × α)} (once : (xs.map Prod.fst).Nodup) :
    (ofList xs).entries = xs := by
  rw [ofList, foldlSetEntries once (by simp)]
  rfl

theorem collectFrom {h : Int × α → Except ε β} {xs : List (Int × α)} {acc t : Table β}
    (once : (xs.map Prod.fst).Nodup) (fresh : ∀ k ∈ xs.map Prod.fst, k ∉ acc.keys)
    (ok : xs.foldlM (fun t e => do return t.set e.1 (← h e)) acc = .ok t) :
    t.keys = acc.keys ++ xs.map Prod.fst ∧
      (∀ e ∈ xs, ∃ v, h e = .ok v ∧ t.get? e.1 = some v) ∧
      ∀ k ∉ xs.map Prod.fst, t.get? k = acc.get? k := by
  induction xs generalizing acc with
  | nil =>
    rw [List.foldlM_nil, Result.pureOk] at ok
    simp [ok]
  | cons e rest ih =>
    obtain ⟨new, once⟩ := List.nodup_cons.mp once
    simp only [List.foldlM_cons, Result.bindOk, Result.pureOk] at ok
    obtain ⟨_, ⟨v, found, rfl⟩, ok⟩ := ok
    have here : e.1 ∉ acc.keys := fresh e.1 (by simp)
    have later : ∀ k ∈ rest.map Prod.fst, k ∉ (acc.set e.1 v).keys := by
      intro k mem
      rw [memKeysSet]
      rintro (rfl | old)
      · exact new mem
      · exact fresh k (List.mem_cons_of_mem _ mem) old
    obtain ⟨keys, each, others⟩ := ih once later ok
    refine ⟨by rw [keys, keysSet here, List.append_assoc]; rfl, ?_, ?_⟩
    · intro e' mem
      rcases List.mem_cons.mp mem with rfl | mem
      · exact ⟨v, found, by rw [others e'.1 new, getSet, if_pos rfl]⟩
      · exact each e' mem
    · intro k absent
      simp only [List.map_cons, List.mem_cons, not_or] at absent
      rw [others k absent.2, getSet, if_neg absent.1]

theorem collectTotal {h : Int × α → Except ε β} {xs : List (Int × α)} (acc : Table β)
    (each : ∀ e ∈ xs, ∃ v, h e = .ok v) :
    ∃ t, xs.foldlM (fun t e => do return t.set e.1 (← h e)) acc = .ok t := by
  refine Result.foldlMTotal (fun e mem t => ?_) acc
  obtain ⟨v, found⟩ := each e mem
  simp only [Result.bindOk, Result.pureOk]
  exact ⟨_, v, found, rfl⟩

theorem getCollect {h : Int × α → Except ε β} {s : Table α} {t : Table β}
    (ok : s.entries.foldlM (fun (t : Table β) e => do return t.set e.1 (← h e)) ∅ = .ok t) :
    t.keys = s.keys ∧ ∀ k a, s.get? k = some a → ∃ v, h (k, a) = .ok v ∧ t.get? k = some v := by
  obtain ⟨same, each, -⟩ := collectFrom s.distinct (by simp) ok
  rw [keysEmpty, List.nil_append] at same
  exact ⟨same, fun k a found => each (k, a) (memEntries.mpr found)⟩

end Table
end OneWay
