/-! Finite sets of nodes, kept as strictly ascending lists: two sets with the same members are equal, and
every walk over a set goes upwards. -/
namespace OneWay

structure NodeSet where
  toList : List Int
  ascending : toList.Pairwise (· < ·)
  deriving DecidableEq, Repr

def placeNode (n : Int) : List Int → List Int
  | [] => [n]
  | m :: rest => if n < m then n :: m :: rest else if n = m then m :: rest else m :: placeNode n rest

theorem memPlaceNode {n m : Int} {xs : List Int} : m ∈ placeNode n xs ↔ m = n ∨ m ∈ xs := by
  induction xs with
  | nil => simp [placeNode]
  | cons x rest ih =>
    rw [placeNode]
    split
    · simp
    · split
      · rename_i same
        simp [same]
      · simp only [List.mem_cons, ih]
        constructor
        · rintro (h | h | h) <;> simp [h]
        · rintro (h | h | h) <;> simp [h]

theorem placeNodeAscending {n : Int} {xs : List Int} (up : xs.Pairwise (· < ·)) :
    (placeNode n xs).Pairwise (· < ·) := by
  induction xs with
  | nil => simp [placeNode]
  | cons x rest ih =>
    obtain ⟨first, tail⟩ := List.pairwise_cons.mp up
    rw [placeNode]
    split
    · rename_i below
      refine List.pairwise_cons.mpr ⟨?_, up⟩
      intro y mem
      rcases List.mem_cons.mp mem with rfl | mem
      · exact below
      · exact Int.lt_trans below (first y mem)
    · split
      · exact up
      · refine List.pairwise_cons.mpr ⟨?_, ih tail⟩
        intro y mem
        rcases memPlaceNode.mp mem with rfl | mem
        · omega
        · exact first y mem

namespace NodeSet

instance : Membership Int NodeSet := ⟨fun s n => n ∈ s.toList⟩

instance (n : Int) (s : NodeSet) : Decidable (n ∈ s) :=
  inferInstanceAs (Decidable (n ∈ s.toList))

theorem memDef {n : Int} {s : NodeSet} : n ∈ s ↔ n ∈ s.toList := Iff.rfl

theorem listEqOfMem {xs ys : List Int} (hx : xs.Pairwise (· < ·)) (hy : ys.Pairwise (· < ·))
    (same : ∀ n, n ∈ xs ↔ n ∈ ys) : xs = ys := by
  induction xs generalizing ys with
  | nil =>
    cases ys with
    | nil => rfl
    | cons y _ => exact absurd ((same y).mpr (by simp)) (by simp)
  | cons x xs ih =>
    cases ys with
    | nil => exact absurd ((same x).mp (by simp)) (by simp)
    | cons y ys =>
      obtain ⟨xFirst, hx⟩ := List.pairwise_cons.mp hx
      obtain ⟨yFirst, hy'⟩ := List.pairwise_cons.mp hy
      have heads : x = y := by
        rcases List.mem_cons.mp ((same x).mp (by simp)) with h | h
        · exact h
        · rcases List.mem_cons.mp ((same y).mpr (by simp)) with h' | h'
          · exact h'.symm
          · have := xFirst y h'
            have := yFirst x h
            omega
      subst heads
      refine congrArg (x :: ·) (ih hx hy' fun n => ?_)
      constructor
      · intro mem
        rcases List.mem_cons.mp ((same n).mp (List.mem_cons_of_mem _ mem)) with h | h
        · have := xFirst n mem
          omega
        · exact h
      · intro mem
        rcases List.mem_cons.mp ((same n).mpr (List.mem_cons_of_mem _ mem)) with h | h
        · have := yFirst n mem
          omega
        · exact h

theorem eqOfMem {s t : NodeSet} (same : ∀ n, n ∈ s ↔ n ∈ t) : s = t := by
  cases s; cases t
  simp only [mk.injEq]
  exact listEqOfMem (by assumption) (by assumption) same

def empty : NodeSet := ⟨[], .nil⟩

instance : EmptyCollection NodeSet := ⟨empty⟩

def insert (n : Int) (s : NodeSet) : NodeSet :=
  ⟨placeNode n s.toList, placeNodeAscending s.ascending⟩

def singleton (n : Int) : NodeSet := insert n ∅

def ofList (xs : List Int) : NodeSet := xs.foldr insert ∅

def filter (keep : Int → Bool) (s : NodeSet) : NodeSet :=
  ⟨s.toList.filter keep, s.ascending.filter keep⟩

def erase (n : Int) (s : NodeSet) : NodeSet := s.filter (· != n)

def union (s t : NodeSet) : NodeSet := s.toList.foldr insert t

def inter (s t : NodeSet) : NodeSet := s.filter (· ∈ t)

def diff (s t : NodeSet) : NodeSet := s.filter (· ∉ t)

def symmDiff (s t : NodeSet) : NodeSet := (s.diff t).union (t.diff s)

def isEmpty (s : NodeSet) : Bool := s.toList.isEmpty

def size (s : NodeSet) : Nat := s.toList.length

@[simp] theorem notMemEmpty {n : Int} : ¬ n ∈ (∅ : NodeSet) := List.not_mem_nil

@[simp] theorem memInsert {n m : Int} {s : NodeSet} : m ∈ insert n s ↔ m = n ∨ m ∈ s :=
  memPlaceNode

@[simp] theorem memSingleton {n m : Int} : m ∈ singleton n ↔ m = n := by
  simp [singleton]

@[simp] theorem memOfList {n : Int} {xs : List Int} : n ∈ ofList xs ↔ n ∈ xs := by
  induction xs with
  | nil => simp [ofList]
  | cons x rest ih =>
    have step : ofList (x :: rest) = insert x (ofList rest) := rfl
    simp [step, ih]

@[simp] theorem memFilter {n : Int} {keep : Int → Bool} {s : NodeSet} :
    n ∈ s.filter keep ↔ n ∈ s ∧ keep n = true := List.mem_filter

@[simp] theorem memErase {n m : Int} {s : NodeSet} : m ∈ s.erase n ↔ m ∈ s ∧ m ≠ n := by
  simp [erase]

@[simp] theorem memUnion {n : Int} {s t : NodeSet} : n ∈ s.union t ↔ n ∈ s ∨ n ∈ t := by
  cases s with
  | mk xs up =>
    simp only [union, memDef (s := ⟨xs, up⟩)]
    clear up
    induction xs with
    | nil => simp
    | cons x rest ih => simp [ih, or_assoc]

@[simp] theorem memInter {n : Int} {s t : NodeSet} : n ∈ s.inter t ↔ n ∈ s ∧ n ∈ t := by
  simp [inter]

@[simp] theorem memDiff {n : Int} {s t : NodeSet} : n ∈ s.diff t ↔ n ∈ s ∧ n ∉ t := by
  simp [diff]

@[simp] theorem memSymmDiff {n : Int} {s t : NodeSet} :
    n ∈ s.symmDiff t ↔ (n ∈ s ∧ n ∉ t) ∨ (n ∈ t ∧ n ∉ s) := by
  simp [symmDiff]

end NodeSet

end OneWay
