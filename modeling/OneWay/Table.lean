/-! Tables keyed by numbers. A key occurs once and stays where it was first written, so a table also
remembers the order in which its keys came. -/
namespace OneWay

structure Table (α : Type) where
  entries : List (Int × α)
  distinct : (entries.map Prod.fst).Nodup

namespace Table
variable {α β : Type}

def write (k : Int) (v : α) : List (Int × α) → List (Int × α)
  | [] => [(k, v)]
  | e :: rest => if e.1 = k then (k, v) :: rest else e :: write k v rest

theorem memKeysWrite {k j : Int} {v : α} {xs : List (Int × α)} :
    j ∈ (write k v xs).map Prod.fst ↔ j = k ∨ j ∈ xs.map Prod.fst := by
  induction xs with
  | nil => simp [write]
  | cons e rest ih =>
    rw [write]
    split
    · rename_i same
      simp [same]
    · simp only [List.map_cons, List.mem_cons, ih]
      constructor
      · rintro (h | h | h) <;> simp [h]
      · rintro (h | h | h) <;> simp [h]

theorem writeDistinct {k : Int} {v : α} {xs : List (Int × α)} (once : (xs.map Prod.fst).Nodup) :
    ((write k v xs).map Prod.fst).Nodup := by
  induction xs with
  | nil => simp [write]
  | cons e rest ih =>
    obtain ⟨fresh, once⟩ := List.nodup_cons.mp once
    rw [write]
    split
    · rename_i same
      exact List.nodup_cons.mpr ⟨same ▸ fresh, once⟩
    · rename_i other
      refine List.nodup_cons.mpr ⟨?_, ih once⟩
      intro mem
      rcases memKeysWrite.mp mem with h | h
      · exact other h
      · exact fresh h

theorem findWrite {k j : Int} {v : α} {xs : List (Int × α)} :
    ((write k v xs).find? (·.1 == j)).map Prod.snd =
      if j = k then some v else (xs.find? (·.1 == j)).map Prod.snd := by
  induction xs with
  | nil =>
    by_cases h : j = k
    · simp [write, h]
    · have other : ¬ k = j := fun eq => h eq.symm
      simp [write, h, other]
  | cons e rest ih =>
    rw [write]
    by_cases same : e.1 = k
    · by_cases h : j = k
      · simp [same, h]
      · have other : ¬ k = j := fun eq => h eq.symm
        simp [same, h, other]
    · by_cases here : e.1 = j
      · have h : ¬ j = k := fun eq => same (here.trans eq)
        simp [here, h]
      · simp [same, here, ih]

def empty : Table α := ⟨[], .nil⟩

instance : EmptyCollection (Table α) := ⟨empty⟩

def get? (t : Table α) (k : Int) : Option α := (t.entries.find? (·.1 == k)).map Prod.snd

def keys (t : Table α) : List Int := t.entries.map Prod.fst

def values (t : Table α) : List α := t.entries.map Prod.snd

def contains (t : Table α) (k : Int) : Bool := t.entries.any (·.1 == k)

def size (t : Table α) : Nat := t.entries.length

def isEmpty (t : Table α) : Bool := t.entries.isEmpty

def set (t : Table α) (k : Int) (v : α) : Table α :=
  ⟨write k v t.entries, writeDistinct t.distinct⟩

def erase (t : Table α) (k : Int) : Table α :=
  ⟨t.entries.filter (·.1 != k), t.distinct.sublist (List.filter_sublist.map _)⟩

def ofList (xs : List (Int × α)) : Table α := xs.foldl (fun t e => t.set e.1 e.2) ∅

def mapValues (f : Int → α → β) (t : Table α) : Table β :=
  ⟨t.entries.map fun e => (e.1, f e.1 e.2), by simpa [List.map_map, Function.comp_def] using t.distinct⟩

@[simp] theorem getEmpty {k : Int} : (∅ : Table α).get? k = none := rfl

@[simp] theorem getSet {t : Table α} {k j : Int} {v : α} :
    (t.set k v).get? j = if j = k then some v else t.get? j := findWrite

@[simp] theorem getErase {t : Table α} {k j : Int} :
    (t.erase k).get? j = if j = k then none else t.get? j := by
  unfold get? erase
  rw [List.find?_filter]
  by_cases h : j = k
  · subst h
    simp
  · rw [if_neg h]
    congr 2
    funext e
    by_cases here : e.1 = j
    · simp [here, h]
    · simp [here]

theorem memKeys {t : Table α} {k : Int} : k ∈ t.keys ↔ ∃ v, t.get? k = some v := by
  simp only [keys, get?, List.mem_map, Option.map_eq_some_iff]
  constructor
  · rintro ⟨e, mem, rfl⟩
    cases found : t.entries.find? (·.1 == e.1) with
    | none => exact absurd (List.find?_eq_none.mp found e mem) (by simp)
    | some a => exact ⟨a.2, a, rfl, rfl⟩
  · rintro ⟨v, e, found, -⟩
    exact ⟨e, List.mem_of_find?_eq_some found, by simpa using List.find?_some found⟩

@[simp] theorem containsIff {t : Table α} {k : Int} : t.contains k = true ↔ k ∈ t.keys := by
  simp [contains, keys]

@[simp] theorem getMapValues {f : Int → α → β} {t : Table α} {k : Int} :
    (t.mapValues f).get? k = (t.get? k).map (f k) := by
  simp only [get?, mapValues, List.find?_map, Function.comp_def, Option.map_map]
  cases found : t.entries.find? (·.1 == k) with
  | none => rfl
  | some e =>
    have here : e.1 = k := by simpa using List.find?_some found
    simp [here]

def sorted (t : Table α) : List (Int × α) := t.entries.mergeSort fun a b => a.1 ≤ b.1

def byValue (t : Table Int) : List (Int × Int) := t.entries.mergeSort fun a b => a.2 ≤ b.2

end Table
end OneWay
