import OneWay.Proofs.Causality

/-! When focusing ends. The loop for a node adds the correction of the first node that is disturbed. If that
node is disturbed by its own correction too, it is left alone from then on, and what is disturbed lies
further ahead. If it is not, it stays disturbed and stays the first, and the loop goes on for ever. No check
asks that nodes be disturbed by their own corrections, so a flow without rounds may be accepted and never
be focused. -/
namespace OneWay

theorem pairwiseIdxOf {xs : List Int} (once : xs.Nodup) :
    xs.Pairwise fun a b => xs.idxOf a < xs.idxOf b := by
  refine List.pairwise_iff_getElem.mpr fun i j hereI hereJ below => ?_
  rwa [once.idxOf_getElem, once.idxOf_getElem]

namespace Graph
open Relation (TransGen)
variable {R : Type} [Scalar R] {g : Graph R} {order rest ms : List Int} {f f' now : Table NodeSet}
  {s t odd : NodeSet} {n m v : Int} {limit : Nat}

def disturbs (g : Graph R) (s : NodeSet) (m : Int) : Bool :=
  match g.planeAt m with
  | .ok .xy => decide (Odd (g.hits s m))
  | .ok .xz => decide (m ∈ s)
  | .ok .yz => decide (m ∈ s)
  | _ => false

theorem disturbsIff (found : g.oddNeighbors s = .ok odd) : g.disturbs s m = true ↔ g.Disturbs s odd m := by
  unfold disturbs Disturbs
  cases here : g.planeAt m with
  | error _ => simp
  | ok plane => cases plane <;> simp [memOddNeighbors found]

theorem disturbsTouched (disturbed : g.disturbs s m = true) : m ∈ s ∨ Odd (g.hits s m) := by
  unfold disturbs at disturbed
  split at disturbed
  · exact .inr (of_decide_eq_true disturbed)
  · exact .inl (of_decide_eq_true disturbed)
  · exact .inl (of_decide_eq_true disturbed)
  · cases disturbed

theorem disturbsSymmDiff : g.disturbs (s.symmDiff t) m = (g.disturbs s m ^^ g.disturbs t m) := by
  rw [Bool.eq_iff_iff]
  unfold disturbs
  split
  · simp only [decide_eq_true_eq, hitsSymmDiff, Bool.xor_iff_ne]
    by_cases first : Odd (g.hits s m) <;> by_cases second : Odd (g.hits t m) <;> simp [first, second]
  · by_cases first : m ∈ s <;> by_cases second : m ∈ t <;> simp [first, second]
  · by_cases first : m ∈ s <;> by_cases second : m ∈ t <;> simp [first, second]
  · rfl

theorem disturbsEither (disturbed : g.disturbs (s.symmDiff t) m = true) :
    g.disturbs s m = true ∨ g.disturbs t m = true := by
  rw [disturbsSymmDiff] at disturbed
  cases first : g.disturbs s m with
  | true => exact .inl rfl
  | false => simpa [first] using disturbed

def joined (f : Table NodeSet) (s : NodeSet) (ms : List Int) : NodeSet :=
  ms.foldl (fun t m => t.symmDiff (setAt f m)) s

theorem joinedPerm {ms' : List Int} (perm : ms.Perm ms') : joined f s ms = joined f s ms' := by
  have swap : RightCommutative fun (t : NodeSet) m => t.symmDiff (setAt f m) := by
    refine ⟨fun t a b => NodeSet.eqOfMem fun k => ?_⟩
    simp only [NodeSet.memSymmDiff]
    tauto
  exact perm.foldl_eq s

theorem joinedKeeps (free : ∀ k ∈ ms, g.disturbs (setAt f k) m = false) :
    g.disturbs (joined f s ms) m = g.disturbs s m := by
  induction ms generalizing s with
  | nil => rfl
  | cons k ms ih =>
    obtain ⟨here, free⟩ := List.forall_mem_cons.mp free
    have step : joined f s (k :: ms) = joined f (s.symmDiff (setAt f k)) ms := rfl
    rw [step, ih free, disturbsSymmDiff, here, Bool.xor_false]

def Quiet (g : Graph R) (n : Int) (s : NodeSet) : Prop :=
  ∀ m ∈ g.innerNodes, m ≠ n → g.disturbs s m = false

structure Calms (g : Graph R) (f : Table NodeSet) (n : Int) (s : NodeSet) (ms : List Int) : Prop where
  apart : n ∉ ms
  own : ∀ m ∈ ms, g.disturbs (setAt f m) m = true
  quiet : g.Quiet n (joined f s ms)

def Settles (g : Graph R) (f : Table NodeSet) (n : Int) : Prop :=
  ∃ ms : List Int, ms.Nodup ∧ g.Calms f n (setAt f n) ms

structure Rising (g : Graph R) (order : List Int) (f : Table NodeSet) : Prop where
  sound : g.Sound
  keys : ∀ n, n ∈ f.keys ↔ n ∈ g.innerNodes
  listed : ∀ n, n ∈ order ↔ n ∈ g.innerNodes
  once : order.Nodup
  planes : ∀ n ∈ g.innerNodes, ∃ plane, g.planeAt n = .ok plane
  there : ∀ n, ∀ m ∈ setAt f n, m ∈ g.nodes
  later : ∀ n ∈ g.innerNodes, ∀ m ∈ g.innerNodes, m ≠ n → g.disturbs (setAt f n) m = true →
    order.idxOf n < order.idxOf m

theorem Rising.given (rising : g.Rising order f) (inner : n ∈ g.innerNodes) :
    f.get? n = some (setAt f n) := by
  obtain ⟨s, found⟩ := Table.memKeys.mp ((rising.keys n).mpr inner)
  rw [setAt, found, Option.getD_some]

/- The state of the loop for a node: its correction is a set that disturbs later nodes only, and these have
the corrections of the flow. -/
structure Focusing (g : Graph R) (order : List Int) (f : Table NodeSet) (n : Int) (now : Table NodeSet)
    (s : NodeSet) : Prop where
  keys : now.keys = f.keys
  given : now.get? n = some s
  rest : ∀ m, order.idxOf n < order.idxOf m → now.get? m = f.get? m
  there : ∀ m ∈ s, m ∈ g.nodes
  ahead : ∀ m ∈ g.innerNodes, m ≠ n → g.disturbs s m = true → order.idxOf n < order.idxOf m

namespace Focusing
variable (loop : g.Focusing order f n now s)
include loop

theorem unfocused (rising : g.Rising order f) : ∃ disturbed, g.unfocused now n = .ok disturbed ∧
    ∀ m, m ∈ disturbed ↔ m ∈ g.innerNodes ∧ m ≠ n ∧ g.disturbs s m = true := by
  obtain ⟨odd, found⟩ := rising.sound.oddNeighborsTotal loop.there
  obtain ⟨disturbed, ok, mem⟩ :=
    unfocusedFound (fun m => by rw [loop.keys]; exact rising.keys m) rising.planes loop.given found
  refine ⟨disturbed, ok, fun m => ?_⟩
  rw [mem, disturbsIff found]

theorem absorbed (rising : g.Rising order f) (inner : v ∈ g.innerNodes)
    (after : order.idxOf n < order.idxOf v) :
    g.Focusing order f n (now.set n (s.symmDiff (setAt f v))) (s.symmDiff (setAt f v)) where
  keys := by
    rw [Table.keysSetOld (Table.memKeys.mpr ⟨s, loop.given⟩), loop.keys]
  given := by rw [Table.getSet, if_pos rfl]
  rest m later := by
    have other : m ≠ n := fun same => Nat.lt_irrefl _ (same ▸ later)
    rw [Table.getSet, if_neg other, loop.rest m later]
  there m mem := by
    rcases NodeSet.memSymmDiff.mp mem with ⟨old, _⟩ | ⟨new, _⟩
    · exact loop.there m old
    · exact rising.there v m new
  ahead m innerM other disturbed := by
    rcases disturbsEither disturbed with old | new
    · exact loop.ahead m innerM other old
    · by_cases same : m = v
      · exact same ▸ after
      · exact after.trans (rising.later v inner m innerM same new)

theorem step (rising : g.Rising order f) :
    (g.Quiet n s ∧ g.unfocused now n = .ok ∅ ∧ ∀ limit, g.focusNode order n (limit + 1) now = .ok now) ∨
    ∃ v ∈ g.innerNodes, v ≠ n ∧ g.disturbs s v = true ∧
      (∀ m ∈ g.innerNodes, m ≠ n → g.disturbs s m = true → order.idxOf v ≤ order.idxOf m) ∧
      g.Focusing order f n (now.set n (s.symmDiff (setAt f v))) (s.symmDiff (setAt f v)) ∧
      ∀ limit, g.focusNode order n (limit + 1) now =
        g.focusNode order n limit (now.set n (s.symmDiff (setAt f v))) := by
  obtain ⟨disturbed, ok, mem⟩ := loop.unfocused rising
  by_cases none : disturbed = ∅
  · subst none
    refine .inl ⟨fun m inner other => ?_, ok, fun limit => ?_⟩
    · by_contra disturbs
      exact NodeSet.notMemEmpty ((mem m).mpr ⟨inner, other, by simpa using disturbs⟩)
    · simp only [focusNode, Result.bindOk]
      exact ⟨∅, ok, rfl⟩
  · have nonempty : disturbed.toList ≠ [] := fun nil =>
      none (NodeSet.eqEmptyIff.mpr fun m => by rw [NodeSet.memDef, nil]; simp)
    obtain ⟨v, here, first, least⟩ := Flow.earliestOk
      (fun m there => (rising.listed m).mpr ((mem m).mp there).1) nonempty
    obtain ⟨inner, other, disturbs⟩ := (mem v).mp here
    have after := loop.ahead v inner other disturbs
    refine .inr ⟨v, inner, other, disturbs, fun m innerM otherM disturbsM => ?_,
      loop.absorbed rising inner after, fun limit => ?_⟩
    · exact least m ((mem m).mpr ⟨innerM, otherM, disturbsM⟩)
    · have goesOn : disturbed.isEmpty = false := by
        rw [Bool.eq_false_iff, ne_eq, NodeSet.isEmptyIffEq]
        exact none
      have taken : now.get? v = some (setAt f v) := (loop.rest v after).trans (rising.given inner)
      have added : Flow.absorb now n disturbed.toList order = .ok (now.set n (s.symmDiff (setAt f v))) := by
        simp only [Flow.absorb, first, Result.okBind, loop.given, taken]
        rfl
      simp only [focusNode, ok, Result.okBind, goesOn, Bool.false_eq_true, if_false, added]

theorem turn (rising : g.Rising order f) (inner : v ∈ g.innerNodes) (other : v ≠ n)
    (disturbs : g.disturbs s v = true)
    (least : ∀ m ∈ g.innerNodes, m ≠ n → g.disturbs s m = true → order.idxOf v ≤ order.idxOf m) :
    g.Focusing order f n (now.set n (s.symmDiff (setAt f v))) (s.symmDiff (setAt f v)) ∧
      ∀ limit, g.focusNode order n (limit + 1) now =
        g.focusNode order n limit (now.set n (s.symmDiff (setAt f v))) := by
  rcases loop.step rising with ⟨quiet, _⟩ | ⟨w, innerW, otherW, disturbsW, leastW, next⟩
  · rw [quiet v inner other] at disturbs
    cases disturbs
  · have same : w = v := (List.idxOf_inj ((rising.listed w).mpr innerW)).mp
      (Nat.le_antisymm (leastW v inner other disturbs) (least w innerW otherW disturbsW))
    exact same ▸ next

theorem endless (rising : g.Rising order f) (inner : v ∈ g.innerNodes) (other : v ≠ n)
    (disturbs : g.disturbs s v = true) (own : g.disturbs (setAt f v) v = false)
    (least : ∀ m ∈ g.innerNodes, m ≠ n → g.disturbs s m = true → order.idxOf v ≤ order.idxOf m)
    (limit : Nat) : g.focusNode order n limit now = .error .stillUnfocused := by
  induction limit generalizing now s with
  | zero => rfl
  | succ limit ih =>
    obtain ⟨next, turn⟩ := loop.turn rising inner other disturbs least
    rw [turn]
    refine ih next ?_ fun m innerM otherM disturbsM => ?_
    · rw [disturbsSymmDiff, disturbs, own, Bool.xor_false]
    · rcases disturbsEither disturbsM with old | new
      · exact least m innerM otherM old
      · by_cases here : m = v
        · rw [here]
        · exact Nat.le_of_lt (rising.later v inner m innerM here new)

end Focusing

theorem calmsCons : g.Calms f n s (v :: ms) ↔
    v ≠ n ∧ g.disturbs (setAt f v) v = true ∧ g.Calms f n (s.symmDiff (setAt f v)) ms := by
  constructor
  · intro calms
    obtain ⟨other, apart⟩ := not_or.mp (List.mem_cons.not.mp calms.apart)
    obtain ⟨own, rest⟩ := List.forall_mem_cons.mp calms.own
    exact ⟨Ne.symm other, own, apart, rest, calms.quiet⟩
  · rintro ⟨other, own, calms⟩
    refine ⟨?_, List.forall_mem_cons.mpr ⟨own, calms.own⟩, calms.quiet⟩
    exact List.mem_cons.not.mpr (not_or.mpr ⟨Ne.symm other, calms.apart⟩)

section
variable (rising : g.Rising order f) (tail : v :: rest <:+ order) (kept : ms.Sublist rest)
include rising tail

theorem Rising.forward : ∀ k ∈ rest, order.idxOf v < order.idxOf k := fun _ mem =>
  List.rel_of_pairwise_cons ((pairwiseIdxOf rising.once).sublist tail.sublist) mem

theorem Rising.inside (inner : m ∈ g.innerNodes) (after : order.idxOf v < order.idxOf m) : m ∈ rest := by
  have listed := (rising.listed m).mpr inner
  have forward := pairwiseIdxOf rising.once
  obtain ⟨before, rfl⟩ := tail
  rcases List.mem_append.mp listed with early | late
  · have := (List.pairwise_append.mp forward).2.2 m early v List.mem_cons_self
    omega
  · refine (List.mem_cons.mp late).resolve_left fun same => ?_
    exact Nat.lt_irrefl _ (same ▸ after)

theorem Rising.least (within : ∀ m ∈ g.innerNodes, m ≠ n → g.disturbs s m = true → m ∈ v :: rest) :
    ∀ m ∈ g.innerNodes, m ≠ n → g.disturbs s m = true → order.idxOf v ≤ order.idxOf m := by
  intro m inner other disturbs
  rcases List.mem_cons.mp (within m inner other disturbs) with rfl | late
  · exact Nat.le_refl _
  · exact Nat.le_of_lt (rising.forward tail m late)

theorem Rising.beyond (within : ∀ m ∈ g.innerNodes, m ≠ n → g.disturbs s m = true → m ∈ v :: rest)
    (disturbs : g.disturbs s v = true) (own : g.disturbs (setAt f v) v = true) :
    ∀ m ∈ g.innerNodes, m ≠ n → g.disturbs (s.symmDiff (setAt f v)) m = true → m ∈ rest := by
  intro m inner other disturbed
  have moved : m ≠ v := by
    rintro rfl
    simp [disturbsSymmDiff, disturbs, own] at disturbed
  rcases disturbsEither disturbed with old | new
  · exact (List.mem_cons.mp (within m inner other old)).resolve_left moved
  · have innerV := (rising.listed v).mp (tail.subset List.mem_cons_self)
    exact rising.inside tail inner (rising.later v innerV m inner moved new)

include kept

theorem Rising.free : ∀ k ∈ ms, g.disturbs (setAt f k) v = false := by
  intro k mem
  have before := rising.forward tail k (kept.subset mem)
  have innerV := (rising.listed v).mp (tail.subset List.mem_cons_self)
  have innerK := (rising.listed k).mp (tail.subset (List.mem_cons_of_mem _ (kept.subset mem)))
  by_contra disturbs
  have apart : v ≠ k := fun same => Nat.lt_irrefl _ (same ▸ before)
  have after := rising.later k innerK v innerV apart (by simpa using disturbs)
  omega

theorem Calms.skipped (calms : g.Calms f n s ms) (other : v ≠ n) : g.disturbs s v = false := by
  have inner := (rising.listed v).mp (tail.subset List.mem_cons_self)
  rw [← joinedKeeps (rising.free tail kept)]
  exact calms.quiet v inner other

theorem Calms.taken (calms : g.Calms f n s (v :: ms)) : v ≠ n ∧ g.disturbs s v = true := by
  obtain ⟨other, own, calms⟩ := calmsCons.mp calms
  have still := calms.skipped rising tail kept other
  rw [disturbsSymmDiff, own, Bool.xor_true, Bool.not_eq_false'] at still
  exact ⟨other, still⟩

end

/- All that the loop for a node does, read off a last part of the order outside of which its correction
disturbs nothing. Either some nodes of this part calm the correction, and the loop ends after one turn for
each, or none do, and it never ends. Then some node is not disturbed by its own correction. -/
theorem Focusing.sweep (rising : g.Rising order f) (loop : g.Focusing order f n now s)
    (tail : rest <:+ order)
    (within : ∀ m ∈ g.innerNodes, m ≠ n → g.disturbs s m = true → m ∈ rest) :
    (∃ ms f', ms.Sublist rest ∧ g.Calms f n s ms ∧ g.Focusing order f n f' (joined f s ms) ∧
      g.unfocused f' n = .ok ∅ ∧ ∀ limit, ms.length < limit → g.focusNode order n limit now = .ok f') ∨
    (∀ ms, ms.Sublist rest → ¬ g.Calms f n s ms) ∧
      (∀ limit, g.focusNode order n limit now = .error .stillUnfocused) ∧
      ∃ v ∈ g.innerNodes, g.disturbs (setAt f v) v = false := by
  induction rest generalizing now s with
  | nil =>
    rcases loop.step rising with ⟨quiet, focused, stops⟩ | ⟨v, inner, other, disturbs, _⟩
    · refine .inl ⟨[], now, .slnil, ⟨by simp, by simp, quiet⟩, loop, focused, fun limit some => ?_⟩
      obtain ⟨limit, rfl⟩ := Nat.exists_eq_add_one.mpr some
      exact stops limit
    · cases within v inner other disturbs
  | cons v rest ih =>
    have shorter : rest <:+ order := (List.suffix_cons v rest).trans tail
    have inner : v ∈ g.innerNodes := (rising.listed v).mp (tail.subset List.mem_cons_self)
    by_cases here : v ≠ n ∧ g.disturbs s v = true
    · obtain ⟨other, disturbs⟩ := here
      have least := rising.least tail within
      cases own : g.disturbs (setAt f v) v with
      | false =>
        refine .inr ⟨fun ms kept calms => ?_, loop.endless rising inner other disturbs own least, v, inner, own⟩
        cases kept with
        | cons _ kept => simp [calms.skipped rising tail kept other] at disturbs
        | cons_cons _ _ => simp [(calmsCons.mp calms).2.1] at own
      | true =>
        obtain ⟨next, turn⟩ := loop.turn rising inner other disturbs least
        have beyond := rising.beyond tail within disturbs own
        rcases ih next shorter beyond with ⟨ms, f', kept, calms, done, focused, runs⟩ | ⟨none, runs, lacking⟩
        · refine .inl ⟨v :: ms, f', kept.cons_cons v, calmsCons.mpr ⟨other, own, calms⟩, done, focused,
            fun limit some => ?_⟩
          obtain ⟨limit, rfl⟩ := Nat.exists_eq_add_one.mpr (Nat.zero_lt_of_lt some)
          rw [turn]
          exact runs limit (Nat.lt_of_succ_lt_succ some)
        · refine .inr ⟨fun ms kept calms => ?_, fun limit => ?_, lacking⟩
          · cases kept with
            | cons _ kept => simp [calms.skipped rising tail kept other] at disturbs
            | cons_cons _ kept => exact none _ kept (calmsCons.mp calms).2.2
          · cases limit with
            | zero => rfl
            | succ limit => rw [turn, runs]
    · have beyond : ∀ m ∈ g.innerNodes, m ≠ n → g.disturbs s m = true → m ∈ rest := by
        intro m innerM otherM disturbsM
        refine (List.mem_cons.mp (within m innerM otherM disturbsM)).resolve_left fun same => ?_
        exact here (same ▸ ⟨otherM, disturbsM⟩)
      rcases ih loop shorter beyond with ⟨ms, f', kept, found⟩ | ⟨none, runs⟩
      · exact .inl ⟨ms, f', kept.cons v, found⟩
      · refine .inr ⟨fun ms kept calms => ?_, runs⟩
        cases kept with
        | cons _ kept => exact none _ kept calms
        | cons_cons _ kept => exact here (calms.taken rising tail kept)

theorem Settles.listed (rising : g.Rising order f) (settles : g.Settles f n) :
    ∃ ms, ms.Sublist order ∧ g.Calms f n (setAt f n) ms := by
  obtain ⟨ms, once, apart, own, quiet⟩ := settles
  have among : ∀ m ∈ ms, m ∈ order := by
    intro m mem
    refine (rising.listed m).mpr ((rising.keys m).mp ?_)
    by_contra absent
    have none : setAt f m = ∅ := by rw [setAt, Table.getNone.mpr absent, Option.getD_none]
    have touched := disturbsTouched (own m mem)
    rw [none] at touched
    rcases touched with member | odd
    · exact NodeSet.notMemEmpty member
    · exact Nat.not_odd_zero odd
  have perm : ms.Perm (order.filter (· ∈ ms)) := by
    refine (List.perm_ext_iff_of_nodup once (rising.once.filter _)).mpr fun m => ?_
    simpa using among m
  refine ⟨order.filter (· ∈ ms), List.filter_sublist, ?_, ?_, ?_⟩
  · exact fun mem => apart (perm.mem_iff.mpr mem)
  · exact fun m mem => own m (perm.mem_iff.mpr mem)
  · rwa [← joinedPerm perm]

theorem loopEnds (rising : g.Rising order f) (inner : n ∈ g.innerNodes) (keys : now.keys = f.keys)
    (rest : ∀ m, order.idxOf n ≤ order.idxOf m → now.get? m = f.get? m) :
    (g.Settles f n → ∃ f', g.unfocused f' n = .ok ∅ ∧
      ∀ limit, f.size ≤ limit → g.focusNode order n limit now = .ok f') ∧
    (¬ g.Settles f n → (∀ limit, g.focusNode order n limit now = .error .stillUnfocused) ∧
      ∃ v ∈ g.innerNodes, g.disturbs (setAt f v) v = false) := by
  have loop : g.Focusing order f n now (setAt f n) :=
    ⟨keys, (rest n (Nat.le_refl _)).trans (rising.given inner), fun m later => rest m (Nat.le_of_lt later),
      rising.there n, fun m innerM other => rising.later n inner m innerM other⟩
  rcases loop.sweep rising (List.suffix_refl order) fun m innerM _ _ => (rising.listed m).mpr innerM with
    ⟨ms, f', kept, calms, _, focused, runs⟩ | ⟨none, runs⟩
  · refine ⟨fun _ => ⟨f', focused, fun limit enough => runs limit (Nat.lt_of_lt_of_le ?_ enough)⟩,
      fun not => absurd ⟨ms, kept.nodup rising.once, calms⟩ not⟩
    have fewer : (n :: ms).Subperm f.keys := by
      refine List.subperm_of_subset (List.nodup_cons.mpr ⟨calms.apart, kept.nodup rising.once⟩) ?_
      intro m mem
      refine (rising.keys m).mpr ?_
      rcases List.mem_cons.mp mem with rfl | other
      · exact inner
      · exact (rising.listed m).mp (kept.subset other)
    have size : f.keys.length = f.size := by simp [Table.keys, Table.size]
    have short := fewer.length_le
    rw [List.length_cons] at short
    omega
  · refine ⟨fun settles => ?_, fun _ => runs⟩
    obtain ⟨ms, kept, calms⟩ := settles.listed rising
    exact absurd calms (none ms kept)

theorem focusNodeElse (ran : g.focusNode order n limit now = .ok f') :
    f'.keys = now.keys ∧ ∀ m, m ≠ n → f'.get? m = now.get? m := by
  induction limit generalizing now with
  | zero => cases ran
  | succ limit ih =>
    simp only [focusNode, Result.bindOk] at ran
    obtain ⟨disturbed, _, ran⟩ := ran
    split at ran
    · cases ran
      exact ⟨rfl, fun _ _ => rfl⟩
    · obtain ⟨next, added, ran⟩ := Result.bindOk.mp ran
      obtain ⟨keys, others⟩ := ih ran
      simp only [Flow.absorb, Result.bindOk] at added
      obtain ⟨v, _, added⟩ := added
      split at added
      · rename_i mine other given _
        cases added
        refine ⟨keys.trans (Table.keysSetOld (Table.memKeys.mpr ⟨mine, given⟩)), fun m apart => ?_⟩
        rw [others m apart, Table.getSet, if_neg apart]
      · cases added

theorem focusEachElse {targets : List Int} (ran : g.focusEach order targets now = .ok f') :
    f'.keys = now.keys ∧ ∀ m, m ∉ targets → f'.get? m = now.get? m := by
  induction targets generalizing now with
  | nil =>
    cases ran
    exact ⟨rfl, fun _ _ => rfl⟩
  | cons n targets ih =>
    rw [focusEach, List.foldlM_cons, Result.bindOk] at ran
    obtain ⟨next, first, ran⟩ := ran
    obtain ⟨keys, others⟩ := focusNodeElse first
    obtain ⟨keys', others'⟩ := ih ran
    refine ⟨keys'.trans keys, fun m apart => ?_⟩
    obtain ⟨here, later⟩ := not_or.mp (List.mem_cons.not.mp apart)
    rw [others' m later, others m here]

def Enters (g : Graph R) (order : List Int) (f : Table NodeSet) (n : Int) (now : Table NodeSet) : Prop :=
  ∃ before after, order = before ++ n :: after ∧ g.focusEach order before f = .ok now

theorem entersEnds (rising : g.Rising order f) (enters : g.Enters order f n now) :
    (g.Settles f n → ∃ f', g.unfocused f' n = .ok ∅ ∧
      ∀ limit, f.size ≤ limit → g.focusNode order n limit now = .ok f') ∧
    (¬ g.Settles f n → (∀ limit, g.focusNode order n limit now = .error .stillUnfocused) ∧
      ∃ v ∈ g.innerNodes, g.disturbs (setAt f v) v = false) := by
  obtain ⟨before, after, whole, ran⟩ := enters
  obtain ⟨keys, others⟩ := focusEachElse ran
  have forward := pairwiseIdxOf rising.once
  have inner : n ∈ g.innerNodes := (rising.listed n).mp (by simp [whole])
  refine loopEnds rising inner keys fun m late => others m fun early => ?_
  have : order.idxOf m < order.idxOf n := by
    have split : (before ++ n :: after).Pairwise fun a b => order.idxOf a < order.idxOf b := whole ▸ forward
    exact (List.pairwise_append.mp split).2.2 m early n List.mem_cons_self
  omega

theorem focusEachEnds (rising : g.Rising order f) {before targets : List Int}
    (whole : order = before ++ targets) (ran : g.focusEach order before f = .ok now) :
    (∃ f', g.focusEach order targets now = .ok f') ↔ ∀ n ∈ targets, g.Settles f n := by
  induction targets generalizing before now with
  | nil => exact iff_of_true ⟨now, rfl⟩ (by simp)
  | cons n targets ih =>
    obtain ⟨ends, endless⟩ := entersEnds rising ⟨before, targets, whole, ran⟩
    have size : now.size = f.size := by
      have same := congrArg List.length (focusEachElse ran).1
      simpa [Table.keys, Table.size] using same
    have first : g.focusEach order (n :: targets) now =
        g.focusNode order n (Nat.pow 2 now.size) now >>= g.focusEach order targets := rfl
    rw [first, List.forall_mem_cons]
    by_cases settles : g.Settles f n
    · obtain ⟨next, _, runs⟩ := ends settles
      have enough : f.size ≤ Nat.pow 2 now.size := size ▸ Nat.le_of_lt Nat.lt_two_pow_self
      have here : g.focusNode order n (Nat.pow 2 now.size) now = .ok next := runs _ enough
      have on : g.focusEach order (before ++ [n]) f = .ok next := by
        rw [focusEach, List.foldlM_append, Result.bindOk]
        refine ⟨now, ran, ?_⟩
        rw [List.foldlM_cons, Result.bindOk]
        exact ⟨next, here, rfl⟩
      rw [here, Result.okBind, and_iff_right settles]
      exact ih (by rw [whole, List.append_assoc]; rfl) on
    · refine iff_of_false (fun some => ?_) fun all => settles all.1
      obtain ⟨f', ran'⟩ := some
      rw [(endless settles).1] at ran'
      cases ran'

end Graph

theorem Flow.toSetsBack (t : Table NodeSet) (fault : Fault) : (ofSets t).toSets fault = .ok t := by
  obtain ⟨_, sets⟩ := setsOfSets t
  rw [toSets, setsGeneral sets, Bool.or_true, if_pos rfl]
  refine congrArg Except.ok (Table.eqOfGet (by simp [ofSets]) fun n => ?_)
  rw [Table.getMapValues, ofSets, Table.getMapValues, Option.map_map]
  exact Option.map_id'

namespace Graph
open Relation (TransGen)
variable {R : Type} [Scalar R] {g : Graph R} {f : Table NodeSet} {n m : Int}

theorem oddSetsOk (sound : g.Sound) (there : ∀ n, ∀ m ∈ setAt f n, m ∈ g.nodes) :
    ∃ z, g.oddSets f = .ok z ∧ ∀ n m, m ∈ setAt z n ↔ Odd (g.hits (setAt f n) m) := by
  have each : ∀ e ∈ f.entries, ∃ odd, g.oddNeighbors e.2 = .ok odd := by
    intro e entry
    refine sound.oddNeighborsTotal fun m mem => there e.1 m ?_
    rwa [setAt, Table.memEntries.mp entry]
  obtain ⟨z, collected⟩ := Table.collectTotal (h := fun e : Int × NodeSet => g.oddNeighbors e.2) ∅ each
  obtain ⟨keys, found⟩ := Table.getCollect collected
  refine ⟨z, collected, fun n m => ?_⟩
  cases here : f.get? n with
  | none =>
    have none : z.get? n = none := by rw [Table.getNone, keys, ← Table.getNone, here]
    simp only [setAt, here, none, Option.getD_none]
    exact iff_of_false NodeSet.notMemEmpty Nat.not_odd_zero
  | some s =>
    obtain ⟨odd, ok, there⟩ := found n s here
    simp only [setAt, here, there, Option.getD_some]
    exact memOddNeighbors ok

theorem withoutOk {order dropped : List Int} (once : order.Nodup) (apart : dropped.Nodup)
    (there : ∀ n ∈ dropped, n ∈ order) : without order dropped = .ok (order.filter (· ∉ dropped)) := by
  induction dropped generalizing order with
  | nil => simp [without, pure, Except.pure]
  | cons n dropped ih =>
    obtain ⟨fresh, apart⟩ := List.nodup_cons.mp apart
    obtain ⟨here, there⟩ := List.forall_mem_cons.mp there
    have first : without order (n :: dropped) = without (order.erase n) dropped := by
      rw [without, List.foldlM_cons, if_pos here]
      rfl
    rw [first, ih (once.erase n) apart fun m mem => ?_]
    · rw [once.erase_eq_filter, List.filter_filter]
      congr 2
      funext m
      by_cases same : m = n <;> simp [same]
    · exact (List.mem_erase_of_ne fun same : m = n => fresh (same ▸ mem)).mpr (there m mem)

theorem dependenciesInformed (sound : g.Sound) (targets : ∀ n, ∀ m ∈ setAt f n, m ∈ g.nodes) :
    ∃ d, g.dependenciesOf (.ofSets f) none = .ok d ∧ d.Awaits = g.Informs f none ∧
      (∀ n, n ∈ d.keys ↔ n ∈ g.nodes) ∧ ∀ n m, d.Awaits n m → m ∈ d.keys := by
  obtain ⟨z, corrections, odd⟩ := oddSetsOk sound targets
  have awaits : (g.dependencies f z).Awaits = g.Informs f none := by
    refine funext₂ fun n m => propext ?_
    rw [Dependency.Awaits, dependencyMember, odd, and_comm (b := m ≠ n)]
    rfl
  refine ⟨g.dependencies f z, ?_, awaits, fun n => dependencyKeys sound, fun n m needed => ?_⟩
  · simp only [dependenciesOf, Flow.toSetsBack, Result.okBind, corrections]
    rfl
  · rw [awaits] at needed
    exact (dependencyKeys sound).mpr (sound.informsThere targets (by simp) needed)

theorem withoutUncorrected {xs : List Int} (keys : ∀ n, n ∈ f.keys ↔ n ∈ g.innerNodes) (once : xs.Nodup)
    (all : ∀ n, n ∈ xs ↔ n ∈ g.nodes) :
    ∃ order, without xs (g.nodes.diff (.ofList f.keys)).toList = .ok order ∧ order.Sublist xs ∧
      ∀ n, n ∈ order ↔ n ∈ g.innerNodes := by
  have dropped : ∀ n, n ∈ (g.nodes.diff (.ofList f.keys)).toList ↔ n ∈ g.nodes ∧ n ∉ g.innerNodes := by
    intro n
    rw [← NodeSet.memDef, NodeSet.memDiff, NodeSet.memOfList, keys]
  refine ⟨_, withoutOk once (g.nodes.diff (.ofList f.keys)).nodup fun n mem => (all n).mpr ((dropped n).mp mem).1,
    List.filter_sublist, fun n => ?_⟩
  rw [List.mem_filter, all, decide_eq_true_eq, dropped]
  constructor
  · rintro ⟨there, kept⟩
    exact not_not.mp fun outer => kept ⟨there, outer⟩
  · exact fun inner => ⟨(memInnerNodes.mp inner).1, fun gone => gone.2 inner⟩

theorem focusOrder (reach : g.Reachable) (planes : ∀ n ∈ g.innerNodes, ∃ plane, g.planeAt n = .ok plane)
    (keys : ∀ n, n ∈ f.keys ↔ n ∈ g.innerNodes) (targets : ∀ n, ∀ m ∈ setAt f n, m ∈ g.nodes)
    (acyclic : ∀ n, ¬ TransGen (g.Informs f none) n n) :
    g.checkFlow (.ofSets f) none = .ok () ∧ ∃ order, order.Perm g.innerNodes.toList ∧ g.Rising order f ∧
      g.focus (.ofSets f) = g.focusEach order order f := by
  have sound := reachableSound reach
  obtain ⟨d, built, awaits, nodes, closed⟩ := dependenciesInformed sound targets
  have checked : d.check = .ok () := by
    refine (Dependency.checkIff closed).mpr fun pair => ?_
    obtain ⟨n, m, forth, back⟩ := pair
    rw [awaits] at forth back
    exact acyclic n (.tail (.single forth) back)
  obtain ⟨xs, ordered⟩ := Dependency.orderOfAcyclic fun n => by rw [awaits]; exact acyclic n
  obtain ⟨rises, all⟩ := Dependency.orderSpec ordered
  have vertex : ∀ n, n ∈ xs.reverse ↔ n ∈ g.nodes := by
    intro n
    rw [List.mem_reverse, all, Dependency.memVertices, nodes]
    refine or_iff_left_of_imp fun needed => ?_
    obtain ⟨k, mem⟩ := needed
    exact (nodes n).mp (closed k n mem)
  have once := List.nodup_reverse.mpr (Dependency.orderedNodup rises)
  obtain ⟨order, taken, kept, listed⟩ := withoutUncorrected keys once vertex
  have forward : order.Pairwise fun a b => ¬ d.Awaits b a :=
    (List.pairwise_reverse.mpr (Dependency.orderedPairwise rises)).sublist kept
  refine ⟨?_, order, ?_, ⟨sound, keys, listed, kept.nodup once, planes, targets, ?_⟩, ?_⟩
  · rw [checkFlow, built]
    exact checked
  · refine (List.perm_ext_iff_of_nodup (kept.nodup once) g.innerNodes.nodup).mpr fun n => ?_
    rw [listed]
    exact NodeSet.memDef
  · intro n inner m innerM other disturbed
    refine idxOfBefore forward ((listed n).mpr inner) ((listed m).mpr innerM) (Ne.symm other) fun absent => absent ?_
    rw [awaits]
    exact ⟨inner, (disturbsTouched disturbed).imp_right fun near => ⟨other, near⟩⟩
  · simp only [focus, Flow.toSetsBack, Result.okBind, built, checked, ordered, taken]
    rfl

/- A flow of sets without rounds passes the check and is then focused node by node. The loop for a node ends
just when the correction of the node settles, and focusing returns just when all of them do; this is so
where every measured node is disturbed by its own correction. A loop that ends takes no more turns than
there are other nodes. One that does not end leaves a node disturbed after any number of turns. -/
theorem focusEndsIff (reach : g.Reachable) (planes : ∀ n ∈ g.innerNodes, ∃ plane, g.planeAt n = .ok plane)
    (keys : ∀ n, n ∈ f.keys ↔ n ∈ g.innerNodes) (targets : ∀ n, ∀ m ∈ setAt f n, m ∈ g.nodes)
    (acyclic : ∀ n, ¬ TransGen (g.Informs f none) n n) :
    g.checkFlow (.ofSets f) none = .ok () ∧
    ((∃ f', g.focus (.ofSets f) = .ok f') ↔ ∀ n ∈ g.innerNodes, g.Settles f n) ∧
    ((∀ n ∈ g.innerNodes, g.disturbs (setAt f n) n = true) → ∀ n ∈ g.innerNodes, g.Settles f n) ∧
    ∃ order, order.Perm g.innerNodes.toList ∧ g.focus (.ofSets f) = g.focusAll order f ∧
      ∀ n now, g.Enters order f n now →
        (g.Settles f n → ∃ f', g.focusNode order n f.size now = .ok f' ∧ g.unfocused f' n = .ok ∅) ∧
        (¬ g.Settles f n → ∀ limit, g.focusNode order n limit now = .error .stillUnfocused) := by
  obtain ⟨checked, order, perm, rising, focused⟩ := focusOrder reach planes keys targets acyclic
  refine ⟨checked, ?_, fun own n inner => ?_, order, perm, focused, fun n now enters => ?_⟩
  · rw [focused, focusEachEnds rising (List.nil_append order).symm rfl]
    exact forall_congr' fun n => by rw [rising.listed]
  · by_contra restless
    obtain ⟨_, v, innerV, still⟩ := (loopEnds rising inner rfl fun _ _ => rfl).2 restless
    rw [own v innerV] at still
    cases still
  · obtain ⟨ends, endless⟩ := entersEnds rising enters
    refine ⟨fun settles => ?_, fun restless => (endless restless).1⟩
    obtain ⟨f', quiet, runs⟩ := ends settles
    exact ⟨f', runs _ (Nat.le_refl _), quiet⟩

theorem informsRising (reach : g.Reachable) (targets : ∀ n, ∀ m ∈ setAt f n, m ∈ g.nodes)
    (up : ∀ n ∈ g.innerNodes, ∀ m ∈ g.nodes,
      m ∈ setAt f n ∨ m ≠ n ∧ Odd (g.hits (setAt f n) m) → n < m) :
    ∀ n, ¬ TransGen (g.Informs f none) n n := by
  refine acyclicOfRising id fun n m informs => ?_
  have there := (reachableSound reach).informsThere targets (by simp) informs
  exact up n informs.1 m there informs.2

theorem setAtThere (all : ∀ e ∈ f.entries, ∀ m ∈ e.2, m ∈ g.nodes) : ∀ n, ∀ m ∈ setAt f n, m ∈ g.nodes :=
  fun _ m mem => all _ (Dependency.entryOfMember (d := f) mem) m mem

def lane : Graph Float := after [.addNode, .addNode, .addNode, .addNode, .addEdge 0 1, .addEdge 1 2, .addEdge 2 3,
  .registerInput 0, .registerOutput 3 0, .assignBasis 0 (.axial .x .plus), .assignBasis 1 (.axial .x .plus),
  .assignBasis 2 (.axial .x .minus)]

def laneFlow : Table NodeSet := .ofList [(0, .singleton 1), (1, .singleton 2), (2, .singleton 3)]

def laneFocused : Table NodeSet := .ofList [(0, .ofList [1, 3]), (1, .singleton 2), (2, .singleton 3)]

set_option maxRecDepth 2048

theorem laneFocuses : lane.Reachable ∧ (∀ n ∈ lane.innerNodes, lane.planeAt n = .ok .xy) ∧
    (∀ n ∈ lane.innerNodes, lane.Settles laneFlow n) ∧ lane.focus (.ofSets laneFlow) = .ok laneFocused := by
  have reach : lane.Reachable := ⟨_, rfl⟩
  have planes : ∀ n ∈ lane.innerNodes, lane.planeAt n = .ok .xy := by decide
  have keys : ∀ n, n ∈ laneFlow.keys ↔ n ∈ lane.innerNodes := fun n => by
    rw [show lane.innerNodes = .ofList [0, 1, 2] from rfl, NodeSet.memOfList]
    exact Iff.rfl
  have targets : ∀ n, ∀ m ∈ setAt laneFlow n, m ∈ lane.nodes := setAtThere (by decide)
  have acyclic := informsRising reach targets (by decide)
  obtain ⟨_, returns, _⟩ := focusEndsIff reach (fun n inner => ⟨_, planes n inner⟩) keys targets acyclic
  have run : lane.focus (.ofSets laneFlow) = .ok laneFocused := rfl
  exact ⟨reach, planes, returns.mp ⟨_, run⟩, run⟩

/- The correction of the first node disturbs the second, and that of the second disturbs no node, itself
included. -/
def snag : Graph Float := after [.addNode, .addNode, .addNode, .addNode, .addEdge 0 1, .addEdge 1 2,
  .registerInput 0, .registerInput 3, .registerOutput 2 0, .registerOutput 3 1,
  .assignBasis 0 (.axial .x .plus), .assignBasis 1 (.axial .x .plus)]

def snagFlow : Table NodeSet := .ofList [(0, .singleton 2), (1, .singleton 3)]

def snagToggled : Table NodeSet := .ofList [(0, .ofList [2, 3]), (1, .singleton 3)]

theorem snagEndless : snag.Reachable ∧ (∀ n ∈ snag.innerNodes, snag.planeAt n = .ok .xy) ∧
    (∀ n, n ∈ snagFlow.keys ↔ n ∈ snag.innerNodes) ∧ (∀ n, ∀ m ∈ setAt snagFlow n, m ∈ snag.nodes) ∧
    (∀ n, ¬ TransGen (snag.Informs snagFlow none) n n) ∧ snag.checkFlow (.ofSets snagFlow) none = .ok () ∧
    snag.focus (.ofSets snagFlow) = snag.focusAll [0, 1] snagFlow ∧
    ∀ limit, snag.focusNode [0, 1] 0 limit snagFlow = .error .stillUnfocused := by
  have reach : snag.Reachable := ⟨_, rfl⟩
  have keys : ∀ n, n ∈ snagFlow.keys ↔ n ∈ snag.innerNodes := fun n => by
    rw [show snag.innerNodes = .ofList [0, 1] from rfl, NodeSet.memOfList]
    exact Iff.rfl
  have targets : ∀ n, ∀ m ∈ setAt snagFlow n, m ∈ snag.nodes := setAtThere (by decide)
  have both (limit : Nat) : snag.focusNode [0, 1] 0 limit snagFlow = .error .stillUnfocused ∧
      snag.focusNode [0, 1] 0 limit snagToggled = .error .stillUnfocused := by
    induction limit with
    | zero => exact ⟨rfl, rfl⟩
    | succ limit ih => exact ⟨ih.2, ih.1⟩
  exact ⟨reach, by decide, keys, targets, informsRising reach targets (by decide), rfl, rfl,
    fun limit => (both limit).1⟩

end Graph
end OneWay
