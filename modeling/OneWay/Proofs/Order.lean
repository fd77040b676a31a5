import Mathlib.Data.List.Nodup
import Mathlib.Data.List.Perm.Subperm
import OneWay.Flow.Order
import OneWay.Proofs.Table

/-! The order by batches lists every node once, after all its members, and it exists unless some nodes
wait for each other. -/
namespace OneWay.Dependency
open OneWay.Graph (setAt)
variable {d : Dependency} {n m : Int}

theorem eraseDupsNodup (xs : List Int) : xs.eraseDups.Nodup := by
  induction h : xs.length using Nat.strongRecOn generalizing xs with
  | _ size ih =>
    cases xs with
    | nil => simp
    | cons x rest =>
      rw [List.eraseDups_cons, List.nodup_cons]
      constructor
      · rw [List.mem_eraseDups]
        simp
      · refine ih _ ?_ _ rfl
        have := List.length_filter_le (fun y => !y == x) rest
        simp only [List.length_cons] at h
        omega

theorem memberKey (mem : m ∈ setAt d n) : n ∈ d.keys := by
  by_contra absent
  simp [setAt, Table.getNone.mpr absent] at mem

theorem memEntry {s : NodeSet} (mem : (n, s) ∈ d.entries) : setAt d n = s := by
  simp [setAt, Table.memEntries.mp mem]

theorem entryOfMember (mem : m ∈ setAt d n) : (n, setAt d n) ∈ d.entries := by
  obtain ⟨s, found⟩ := Table.memKeys.mp (memberKey mem)
  rw [Table.memEntries, found, setAt, found, Option.getD_some]

theorem memVertices : n ∈ d.vertices ↔ n ∈ d.keys ∨ ∃ k, n ∈ setAt d k := by
  simp only [vertices, List.mem_eraseDups, List.mem_flatMap, List.mem_cons, Prod.exists]
  constructor
  · rintro ⟨k, s, entry, rfl | mem⟩
    · exact .inl (List.mem_map_of_mem (f := Prod.fst) entry)
    · exact .inr ⟨k, memEntry entry ▸ mem⟩
  · rintro (key | ⟨k, mem⟩)
    · obtain ⟨e, entry, rfl⟩ := List.mem_map.mp key
      exact ⟨e.1, e.2, entry, .inl rfl⟩
    · exact ⟨k, setAt d k, entryOfMember mem, .inr mem⟩

theorem verticesNodup : d.vertices.Nodup := eraseDupsNodup _

theorem memHolders : n ∈ d.holders m ↔ m ∈ setAt d n := by
  simp only [holders, List.mem_map, List.mem_filter, decide_eq_true_eq, Prod.exists,
    exists_and_right, exists_eq_right]
  constructor
  · rintro ⟨s, entry, mem⟩
    exact memEntry entry ▸ mem
  · intro mem
    exact ⟨setAt d n, entryOfMember mem, mem⟩

theorem holdersNodup : (d.holders m).Nodup := d.distinct.sublist (List.filter_sublist.map _)

theorem pendingCount (known : n ∈ d.vertices) : (d.pending.get? n).getD 0 = (setAt d n).size := by
  have once : ((d.vertices.map fun n => (n, ((d.get? n).getD ∅).size)).map Prod.fst).Nodup := by
    simpa [List.map_map, Function.comp_def] using verticesNodup
  have entry : (n, (setAt d n).size) ∈ d.pending.entries := by
    rw [pending, Table.entriesOfList once]
    exact List.mem_map.mpr ⟨n, known, rfl⟩
  rw [Table.memEntries.mp entry, Option.getD_some]

theorem arriveAll (xs : List Int) (counts : Table Nat) (ready : List Int)
    (enough : ∀ n ∈ xs, xs.count n ≤ (counts.get? n).getD 0) :
    (∀ n, ((xs.foldl arrive (counts, ready)).1.get? n).getD 0 = (counts.get? n).getD 0 - xs.count n) ∧
      ∃ new, (xs.foldl arrive (counts, ready)).2 = ready ++ new ∧ new.Nodup ∧
        ∀ n, n ∈ new ↔ n ∈ xs ∧ (counts.get? n).getD 0 = xs.count n := by
  induction xs generalizing counts ready with
  | nil => exact ⟨by simp, [], by simp, .nil, by simp⟩
  | cons x rest ih =>
    have here := enough x (by simp)
    rw [List.count_cons_self] at here
    have state : arrive (counts, ready) x =
        (counts.set x ((counts.get? x).getD 0 - 1),
          if (counts.get? x).getD 0 - 1 = 0 then ready ++ [x] else ready) := rfl
    have step : ∀ n, ((counts.set x ((counts.get? x).getD 0 - 1)).get? n).getD 0 =
        (counts.get? n).getD 0 - (if n = x then 1 else 0) := by
      intro n
      rw [Table.getSet]
      split
      · rename_i same
        simp [same]
      · simp
    have counted : ∀ n, (x :: rest).count n = rest.count n + if n = x then 1 else 0 := by
      intro n
      rw [List.count_cons]
      by_cases same : n = x
      · simp [same]
      · have other : ¬ x = n := fun eq => same eq.symm
        simp [same, other]
    have smaller : ∀ n ∈ rest,
        rest.count n ≤ ((counts.set x ((counts.get? x).getD 0 - 1)).get? n).getD 0 := by
      intro n mem
      have bound := enough n (List.mem_cons_of_mem _ mem)
      rw [counted] at bound
      rw [step]
      omega
    obtain ⟨left, new, listed, once, reached⟩ := ih (counts.set x _)
      (if (counts.get? x).getD 0 - 1 = 0 then ready ++ [x] else ready) smaller
    rw [List.foldl_cons, state]
    refine ⟨fun n => by rw [left, step, counted]; omega, ?_⟩
    by_cases last : (counts.get? x).getD 0 - 1 = 0
    · have gone : x ∉ rest := List.count_eq_zero.mp (by omega)
      refine ⟨x :: new, by rw [listed, if_pos last, List.append_assoc]; rfl,
        List.nodup_cons.mpr ⟨fun mem => gone ((reached x).mp mem).1, once⟩, fun n => ?_⟩
      rw [List.mem_cons, reached, step, counted, List.mem_cons]
      by_cases same : n = x
      · subst same
        simp only [true_or, if_true, true_and, true_iff]
        omega
      · simp [same]
    · refine ⟨new, by rw [listed, if_neg last], once, fun n => ?_⟩
      rw [reached, step, counted, List.mem_cons]
      by_cases same : n = x
      · subst same
        simp only [true_or, if_true, true_and]
        constructor
        · rintro ⟨mem, eq⟩
          omega
        · intro eq
          exact ⟨List.count_pos_iff.mp (by omega), by omega⟩
      · simp [same]

def waiting (d : Dependency) (came : List Int) (n : Int) : Nat :=
  (setAt d n).toList.countP fun m => m ∉ came

theorem countPMemComm {xs ys : List Int} (onceX : xs.Nodup) (onceY : ys.Nodup) :
    xs.countP (· ∈ ys) = ys.countP (· ∈ xs) := by
  rw [List.countP_eq_length_filter, List.countP_eq_length_filter]
  refine List.Perm.length_eq ((List.perm_ext_iff_of_nodup (onceX.filter _) (onceY.filter _)).mpr ?_)
  intro a
  simp [and_comm]

theorem waitingBatch {came batch : List Int} (once : (came ++ batch).Nodup) :
    waiting d came n = waiting d (came ++ batch) n + (batch.flatMap d.holders).count n := by
  have each : ∀ b, (d.holders b).count n = if b ∈ setAt d n then 1 else 0 := by
    intro b
    by_cases mem : b ∈ setAt d n
    · rw [if_pos mem]
      exact List.count_eq_one_of_mem holdersNodup (memHolders.mpr mem)
    · rw [if_neg mem]
      exact List.count_eq_zero.mpr fun holds => mem (memHolders.mp holds)
  have arrivals : (batch.flatMap d.holders).count n = (setAt d n).toList.countP (· ∈ batch) := by
    rw [countPMemComm (setAt d n).nodup (List.nodup_append.mp once).2.1, List.count_flatMap]
    clear once
    induction batch with
    | nil => rfl
    | cons b rest ih =>
      rw [List.map_cons, List.sum_cons, ih, List.countP_cons, Function.comp_apply, each, Nat.add_comm]
      simp [NodeSet.memDef]
  have apart : ∀ m, m ∈ batch → m ∉ came := fun m late early =>
    (List.nodup_append.mp once).2.2 m early m late rfl
  rw [arrivals, waiting, waiting]
  clear arrivals each
  induction (setAt d n).toList with
  | nil => rfl
  | cons m rest ih =>
    simp only [List.countP_cons, ih, List.mem_append, decide_eq_true_eq]
    by_cases early : m ∈ came
    · have late : m ∉ batch := fun mem => apart m mem early
      simp [early, late]
    · by_cases late : m ∈ batch <;> simp [early, late] <;> omega

inductive Ordered (d : Dependency) : List Int → Prop where
  | nil : Ordered d []
  | snoc {xs : List Int} {n : Int} (before : Ordered d xs) (fresh : n ∉ xs)
      (ready : ∀ m ∈ setAt d n, m ∈ xs) : Ordered d (xs ++ [n])

theorem orderedAppend {xs ys : List Int} (before : Ordered d xs) (once : (xs ++ ys).Nodup)
    (ready : ∀ n ∈ ys, ∀ m ∈ setAt d n, m ∈ xs) : Ordered d (xs ++ ys) := by
  induction ys generalizing xs with
  | nil => simpa using before
  | cons y rest ih =>
    rw [List.append_cons] at once ⊢
    have fresh : y ∉ xs := fun mem =>
      (List.nodup_append.mp (List.nodup_append.mp once).1).2.2 y mem y (by simp) rfl
    refine ih (.snoc before fresh (ready y (by simp))) once fun n mem m needed => ?_
    exact List.mem_append_left _ (ready n (List.mem_cons_of_mem _ mem) m needed)

theorem orderedNodup {xs : List Int} (ordered : Ordered d xs) : xs.Nodup := by
  induction ordered with
  | nil => exact .nil
  | snoc before fresh ready ih =>
    refine List.nodup_append.mpr ⟨ih, by simp, ?_⟩
    intro a mem b last eq
    rw [List.mem_singleton] at last
    exact fresh (last ▸ eq ▸ mem)

theorem orderedClosed {xs : List Int} (ordered : Ordered d xs) (mem : n ∈ xs) :
    ∀ m ∈ setAt d n, m ∈ xs := by
  induction ordered with
  | nil => cases mem
  | snoc before fresh ready ih =>
    intro m needed
    rcases List.mem_append.mp mem with early | last
    · exact List.mem_append_left _ (ih early m needed)
    · rw [List.mem_singleton] at last
      exact List.mem_append_left _ (ready m (last ▸ needed))

theorem orderedPairwise {xs : List Int} (ordered : Ordered d xs) :
    xs.Pairwise fun a b => b ∉ setAt d a := by
  induction ordered with
  | nil => exact .nil
  | snoc before fresh ready ih =>
    refine List.pairwise_append.mpr ⟨ih, List.pairwise_singleton _ _, ?_⟩
    intro a early b last needed
    rw [List.mem_singleton] at last
    exact fresh (last ▸ orderedClosed before early b needed)

/- What holds between two batches: the nodes that have come and those of the next batch are the ones
none of whose members is missing, and every other node is counted with the members it waits for. -/
structure Progress (d : Dependency) (came : List Int) (counts : Table Nat) (batch : List Int) : Prop where
  ordered : Ordered d came
  once : (came ++ batch).Nodup
  known : ∀ n ∈ came ++ batch, n ∈ d.vertices
  ready : ∀ n ∈ d.vertices, n ∈ came ++ batch ↔ ∀ m ∈ setAt d n, m ∈ came
  counted : ∀ n ∈ d.vertices, n ∉ came ++ batch → (counts.get? n).getD 0 = waiting d came n

theorem waitingZero {came : List Int} : waiting d came n = 0 ↔ ∀ m ∈ setAt d n, m ∈ came := by
  simp [waiting, NodeSet.memDef]

theorem progressStart :
    Progress d [] d.pending (d.vertices.filter fun n => ((d.get? n).getD ∅).isEmpty) where
  ordered := .nil
  once := verticesNodup.filter _
  known n mem := (List.mem_filter.mp mem).1
  ready n known := by
    rw [List.nil_append, List.mem_filter, NodeSet.isEmptyIff]
    simp [known, setAt]
  counted n known _ := by
    rw [pendingCount known]
    simp [waiting, NodeSet.size]

theorem progressStep {came batch : List Int} {counts : Table Nat} (now : Progress d came counts batch) :
    Progress d (came ++ batch) (d.nextBatch counts batch).1 (d.nextBatch counts batch).2 := by
  have notYet : ∀ n b, b ∈ batch → b ∈ setAt d n → n ∈ d.vertices ∧ n ∉ came ++ batch := by
    intro n b late needed
    have known := memVertices.mpr (.inl (memberKey needed))
    refine ⟨known, fun mem => ?_⟩
    exact (List.nodup_append.mp now.once).2.2 b ((now.ready n known).mp mem b needed) b late rfl
  have arrives : ∀ n, n ∈ batch.flatMap d.holders ↔ ∃ b ∈ batch, b ∈ setAt d n := by
    intro n
    simp [List.mem_flatMap, memHolders]
  have counted : ∀ n, n ∈ d.vertices → n ∉ came ++ batch → (counts.get? n).getD 0 =
      waiting d (came ++ batch) n + (batch.flatMap d.holders).count n := by
    intro n known missing
    rw [now.counted n known missing, waitingBatch now.once]
  have enough : ∀ n ∈ batch.flatMap d.holders,
      (batch.flatMap d.holders).count n ≤ (counts.get? n).getD 0 := by
    intro n mem
    obtain ⟨b, late, needed⟩ := (arrives n).mp mem
    obtain ⟨known, missing⟩ := notYet n b late needed
    rw [counted n known missing]
    omega
  obtain ⟨left, new, listed, once, reached⟩ := arriveAll _ counts [] enough
  have next : (d.nextBatch counts batch).2 = new := listed
  have isNew : ∀ n, n ∈ new ↔ n ∈ d.vertices ∧ n ∉ came ++ batch ∧ ∀ m ∈ setAt d n, m ∈ came ++ batch := by
    intro n
    rw [reached, arrives]
    constructor
    · rintro ⟨⟨b, late, needed⟩, eq⟩
      obtain ⟨known, missing⟩ := notYet n b late needed
      rw [counted n known missing] at eq
      exact ⟨known, missing, waitingZero.mp (by omega)⟩
    · rintro ⟨known, missing, all⟩
      have some : ∃ b ∈ batch, b ∈ setAt d n := by
        by_contra none
        refine missing ((now.ready n known).mpr fun m needed => ?_)
        rcases List.mem_append.mp (all m needed) with early | late
        · exact early
        · exact absurd ⟨m, late, needed⟩ none
      refine ⟨some, ?_⟩
      rw [counted n known missing, waitingZero.mpr all, Nat.zero_add]
  rw [next]
  refine ⟨?_, ?_, ?_, ?_, ?_⟩
  · refine orderedAppend now.ordered now.once fun n late => ?_
    have mem := List.mem_append_right came late
    exact (now.ready n (now.known n mem)).mp mem
  · refine List.nodup_append.mpr ⟨now.once, once, fun a early b late eq => ?_⟩
    exact ((isNew b).mp late).2.1 (eq ▸ early)
  · intro n mem
    rcases List.mem_append.mp mem with early | late
    · exact now.known n early
    · exact ((isNew n).mp late).1
  · intro n known
    rw [List.mem_append, isNew]
    constructor
    · rintro (early | ⟨_, _, all⟩)
      · exact fun m needed => List.mem_append_left _ ((now.ready n known).mp early m needed)
      · exact all
    · intro all
      by_cases early : n ∈ came ++ batch
      · exact .inl early
      · exact .inr ⟨known, early, all⟩
  · intro n known missing
    have early : n ∉ came ++ batch := fun mem => missing (List.mem_append_left _ mem)
    rw [nextBatch, left, counted n known early]
    omega

theorem progressFull {came batch : List Int} {counts : Table Nat} (now : Progress d came counts batch)
    (full : d.vertices.length ≤ came.length) : batch = [] := by
  have bound := (List.subperm_of_subset now.once now.known).length_le
  rw [List.length_append] at bound
  exact List.length_eq_zero_iff.mp (by omega)

theorem batchesSpec (limit : Nat) {came batch : List Int} {counts : Table Nat}
    (now : Progress d came counts batch) (enough : d.vertices.length ≤ came.length + limit) :
    Ordered d (came ++ d.batches limit counts batch) ∧
      (∀ n ∈ came ++ d.batches limit counts batch, n ∈ d.vertices) ∧
      ∀ n ∈ d.vertices, n ∉ came ++ d.batches limit counts batch →
        ∃ m ∈ setAt d n, m ∉ came ++ d.batches limit counts batch := by
  have finished : ∀ {came : List Int} {counts : Table Nat}, Progress d came counts [] →
      Ordered d (came ++ []) ∧ (∀ n ∈ came ++ [], n ∈ d.vertices) ∧
        ∀ n ∈ d.vertices, n ∉ came ++ [] → ∃ m ∈ setAt d n, m ∉ came ++ [] := by
    intro came counts last
    refine ⟨by simpa using last.ordered, last.known, fun n known missing => ?_⟩
    by_contra none
    refine missing ((last.ready n known).mpr fun m needed => ?_)
    by_contra absent
    exact none ⟨m, needed, by simpa using absent⟩
  induction limit generalizing came counts batch with
  | zero =>
    obtain rfl := progressFull now (by omega)
    exact finished now
  | succ limit ih =>
    rw [batches]
    by_cases empty : batch = []
    · subst empty
      exact finished now
    · have some : 0 < batch.length := List.length_pos_iff.mpr empty
      rw [if_neg (by simpa using empty), ← List.append_assoc]
      exact ih (progressStep now) (by rw [List.length_append]; omega)

def sequence (d : Dependency) : List Int :=
  d.batches d.vertices.length d.pending (d.vertices.filter fun n => ((d.get? n).getD ∅).isEmpty)

theorem orderEq : d.order =
    if d.sequence.length = d.vertices.length then .ok d.sequence else .error .cyclic := rfl

theorem sequenceSpec : Ordered d d.sequence ∧ (∀ n ∈ d.sequence, n ∈ d.vertices) ∧
    ∀ n ∈ d.vertices, n ∉ d.sequence → ∃ m ∈ setAt d n, m ∉ d.sequence := by
  have spec := batchesSpec d.vertices.length (progressStart (d := d)) (by simp)
  simp only [List.nil_append] at spec
  exact spec

theorem orderSpec {xs : List Int} (ok : d.order = .ok xs) :
    Ordered d xs ∧ ∀ n, n ∈ xs ↔ n ∈ d.vertices := by
  obtain ⟨ordered, known, -⟩ := sequenceSpec (d := d)
  rw [orderEq] at ok
  split at ok
  · rename_i full
    cases ok
    refine ⟨ordered, fun n => ⟨known n, fun mem => ?_⟩⟩
    have perm := (List.subperm_of_subset (orderedNodup ordered) known).perm_of_length_le (by omega)
    exact perm.mem_iff.mpr mem
  · cases ok

theorem orderNone (none : ∀ xs, d.order ≠ .ok xs) :
    ∃ rest : List Int, rest ≠ [] ∧ ∀ n ∈ rest, ∃ m ∈ setAt d n, m ∈ rest := by
  obtain ⟨ordered, known, stuck⟩ := sequenceSpec (d := d)
  refine ⟨d.vertices.filter (· ∉ d.sequence), ?_, ?_⟩
  · intro empty
    have all : ∀ n ∈ d.vertices, n ∈ d.sequence := by simpa [List.filter_eq_nil_iff] using empty
    have short := (List.subperm_of_subset verticesNodup all).length_le
    have long := (List.subperm_of_subset (orderedNodup ordered) known).length_le
    exact none d.sequence (by rw [orderEq, if_pos (by omega)])
  · intro n mem
    simp only [List.mem_filter, decide_eq_true_eq] at mem ⊢
    obtain ⟨m, needed, absent⟩ := stuck n mem.1 mem.2
    exact ⟨m, needed, memVertices.mpr (.inr ⟨n, needed⟩), absent⟩

theorem orderOfRank (rank : Int → Nat) (lower : ∀ n, ∀ m ∈ setAt d n, rank m < rank n) :
    ∃ xs, d.order = .ok xs := by
  by_contra none
  obtain ⟨rest, some, waits⟩ := orderNone fun xs ok => none ⟨xs, ok⟩
  obtain ⟨n, mem⟩ := List.exists_mem_of_ne_nil rest some
  have none : ∀ r n, rank n ≤ r → n ∉ rest := by
    intro r
    induction r with
    | zero =>
      intro n low mem
      obtain ⟨m, needed, _⟩ := waits n mem
      have := lower n m needed
      omega
    | succ r ih =>
      intro n low mem
      obtain ⟨m, needed, again⟩ := waits n mem
      have := lower n m needed
      exact ih m (by omega) again
  exact none (rank n) n (Nat.le_refl _) mem

end OneWay.Dependency
