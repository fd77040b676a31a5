import Mathlib.Algebra.Ring.Parity
import Mathlib.Data.Finset.Card
import OneWay.Flow.Focus
import OneWay.Proofs.Compile

/-! Focusing. Odd neighbourhoods add up like the sets they belong to, so that absorbing the correction of
the first node that is disturbed takes this node out and brings in later ones only: the first disturbed
node moves towards the end of the order, and after at most as many steps as there are nodes none is
left. -/
namespace OneWay

theorem idxOfBefore {r : Int → Int → Prop} {xs : List Int} {a b : Int} (forward : xs.Pairwise r)
    (hereA : a ∈ xs) (hereB : b ∈ xs) (apart : a ≠ b) (back : ¬ r b a) : xs.idxOf a < xs.idxOf b := by
  by_contra late
  have different : xs.idxOf a ≠ xs.idxOf b := fun same => apart ((List.idxOf_inj hereA).mp same)
  have insideA := List.idxOf_lt_length_iff.mpr hereA
  have insideB := List.idxOf_lt_length_iff.mpr hereB
  have related := List.pairwise_iff_getElem.mp forward (xs.idxOf b) (xs.idxOf a) insideB insideA (by omega)
  rw [List.getElem_idxOf, List.getElem_idxOf] at related
  exact back related

theorem Result.filterMOk {ε α : Type} {f : α → Except ε Bool} {keep : α → Bool} {xs : List α}
    (each : ∀ x ∈ xs, f x = .ok (keep x)) : xs.filterM f = .ok (xs.filter keep) := by
  have run : ∀ (ys acc : List α), (∀ x ∈ ys, f x = .ok (keep x)) →
      ys.filterAuxM f acc = .ok ((ys.filter keep).reverse ++ acc) := by
    intro ys
    induction ys with
    | nil => exact fun acc _ => rfl
    | cons y ys ih =>
      intro acc each
      obtain ⟨head, tail⟩ := List.forall_mem_cons.mp each
      rw [List.filterAuxM, bindOk]
      refine ⟨keep y, head, ?_⟩
      rw [ih _ tail]
      cases kept : keep y <;> simp [kept]
  rw [List.filterM, bindOk]
  exact ⟨_, run xs [] each, by simp [pureOk]⟩

namespace Graph
variable {R : Type} [Scalar R] {g : Graph R} {s t odd odd' : NodeSet} {m n : Int}

def hits (g : Graph R) (s : NodeSet) (m : Int) : Nat :=
  s.toList.countP fun n => decide (m ∈ g.adjacent n)

theorem memOddNeighbors (ok : g.oddNeighbors s = .ok odd) : m ∈ odd ↔ Odd (g.hits s m) := by
  have run : ∀ (ns : List Int) (acc : NodeSet),
      ns.foldlM (fun odd n => do return odd.symmDiff (← g.neighbors n)) acc = .ok odd →
      (m ∈ odd ↔ (m ∈ acc ↔ ¬ Odd (ns.countP fun n => decide (m ∈ g.adjacent n)))) := by
    intro ns
    induction ns with
    | nil =>
      intro acc ok
      cases ok
      simp
    | cons n ns ih =>
      intro acc ok
      simp only [List.foldlM_cons, Result.bindOk, Result.pureOk, neighborsOk] at ok
      obtain ⟨_, ⟨_, ⟨_, _, rfl⟩, rfl⟩, ok⟩ := ok
      rw [ih _ ok, NodeSet.memSymmDiff, List.countP_cons]
      by_cases old : m ∈ acc <;> by_cases near : m ∈ g.adjacent n <;>
        simp [old, near, Nat.odd_add_one]
  rw [run _ _ ok]
  simp [hits]

theorem oddNeighborsThere (ok : g.oddNeighbors s = .ok odd) : ∀ m ∈ s, m ∈ g.nodes ∧ m ∈ g.adjacency.keys := by
  have run : ∀ (ns : List Int) (acc : NodeSet),
      ns.foldlM (fun odd n => do return odd.symmDiff (← g.neighbors n)) acc = .ok odd →
      ∀ n ∈ ns, n ∈ g.nodes ∧ n ∈ g.adjacency.keys := by
    intro ns
    induction ns with
    | nil => simp
    | cons n ns ih =>
      intro acc ok
      simp only [List.foldlM_cons, Result.bindOk, neighborsOk] at ok
      obtain ⟨next, ⟨_, ⟨here, known, _⟩, _⟩, ok⟩ := ok
      exact List.forall_mem_cons.mpr ⟨⟨here, known⟩, ih next ok⟩
  exact run _ _ ok

theorem hitsSplit {whole : NodeSet} (parts : ∀ n, n ∈ whole ↔ n ∈ s ∨ n ∈ t)
    (apart : ∀ n ∈ s, n ∉ t) : g.hits whole m = g.hits s m + g.hits t m := by
  have perm : whole.toList.Perm (s.toList ++ t.toList) := by
    refine (List.perm_ext_iff_of_nodup whole.nodup ?_).mpr fun n => ?_
    · refine List.nodup_append.mpr ⟨s.nodup, t.nodup, fun a first b second same => ?_⟩
      exact apart a first (same ▸ second)
    · rw [List.mem_append]
      exact parts n
  rw [hits, perm.countP_eq, List.countP_append, hits, hits]

theorem hitsSymmDiff :
    Odd (g.hits (s.symmDiff t) m) ↔ (Odd (g.hits s m) ↔ ¬ Odd (g.hits t m)) := by
  have apart (a b : NodeSet) : g.hits a m = g.hits (a.diff b) m + g.hits (a.inter b) m := by
    refine hitsSplit (fun n => ?_) fun n first second => ?_
    · by_cases both : n ∈ b <;> simp [both]
    · exact (NodeSet.memDiff.mp first).2 (NodeSet.memInter.mp second).2
  have sides : g.hits (s.symmDiff t) m = g.hits (s.diff t) m + g.hits (t.diff s) m := by
    refine hitsSplit (fun n => ?_) fun n first second => ?_
    · rw [NodeSet.memSymmDiff, NodeSet.memDiff, NodeSet.memDiff]
    · exact (NodeSet.memDiff.mp first).2 (NodeSet.memDiff.mp second).1
  have common : s.inter t = t.inter s := NodeSet.eqOfMem fun n => by simp [and_comm]
  have first := apart s t
  have second := apart t s
  rw [sides, Nat.odd_iff, Nat.odd_iff, Nat.odd_iff]
  rw [common] at first
  omega

theorem oddSymmDiff (first : g.oddNeighbors s = .ok odd) (second : g.oddNeighbors t = .ok odd') :
    g.oddNeighbors (s.symmDiff t) = .ok (odd.symmDiff odd') := by
  have there : ∀ m ∈ s.symmDiff t, m ∈ g.nodes ∧ m ∈ g.adjacency.keys := by
    intro m mem
    rcases NodeSet.memSymmDiff.mp mem with ⟨mem, _⟩ | ⟨mem, _⟩
    · exact oddNeighborsThere first m mem
    · exact oddNeighborsThere second m mem
  obtain ⟨both, ok⟩ := oddNeighborsTotal there
  have same : both = odd.symmDiff odd' := by
    refine NodeSet.eqOfMem fun m => ?_
    rw [memOddNeighbors ok, hitsSymmDiff, ← memOddNeighbors first, ← memOddNeighbors second,
      NodeSet.memSymmDiff]
    by_cases here : m ∈ odd <;> simp [here]
  rw [ok, same]

end Graph

/- What a correction does to its own node, by the plane in which the node is measured: whether the node
is one of those corrected by X, and whether it is an odd neighbour of them. -/
def Plane.Corrected : Plane → Prop → Prop → Prop
  | .xy, own, odd => ¬ own ∧ odd
  | .xz, own, odd => own ∧ odd
  | .yz, own, odd => own ∧ ¬ odd
  | .other _, _, _ => False

namespace Graph
variable {R : Type} [Scalar R] {g : Graph R} {order : List Int} {f : Table NodeSet}
  {s t odd odd' : NodeSet} {m n v : Int}

def Corrects (g : Graph R) (order : List Int) (n : Int) (s : NodeSet) : Prop :=
  ∃ plane odd, g.planeAt n = .ok plane ∧ g.oddNeighbors s = .ok odd ∧
    plane.Corrected (n ∈ s) (n ∈ odd) ∧
    ∀ m, m ∈ s ∨ m ∈ odd → m ∉ g.outputNodes → m ≠ n → m ∈ order ∧ order.idxOf n < order.idxOf m

structure Corrected (g : Graph R) (order : List Int) (f : Table NodeSet) : Prop where
  keys : ∀ n, n ∈ f.keys ↔ n ∈ g.innerNodes
  listed : ∀ n, n ∈ order ↔ n ∈ g.innerNodes
  each : ∀ n s, f.get? n = some s → g.Corrects order n s

def Disturbs (g : Graph R) (s odd : NodeSet) (m : Int) : Prop :=
  ∃ plane, g.planeAt m = .ok plane ∧
    (plane = .xy ∧ m ∈ odd ∨ (plane = .xz ∨ plane = .yz) ∧ m ∈ s)

theorem Disturbs.touched (disturbs : g.Disturbs s odd m) : m ∈ s ∨ m ∈ odd := by
  obtain ⟨plane, _, ⟨_, touched⟩ | ⟨_, own⟩⟩ := disturbs
  · exact .inr touched
  · exact .inl own

theorem measuredInOk (pick : Plane → Bool) (planes : ∀ m ∈ s, ∃ plane, g.planeAt m = .ok plane) :
    ∃ kept, g.measuredIn pick s = .ok kept ∧
      ∀ m, m ∈ kept ↔ m ∈ s ∧ ∃ plane, g.planeAt m = .ok plane ∧ pick plane = true := by
  have each : ∀ m ∈ s.toList, (do return pick (← g.planeAt m)) =
      (.ok ((g.planeAt m).toOption.any pick) : Except Fault Bool) := by
    intro m mem
    obtain ⟨plane, found⟩ := planes m mem
    rw [found]
    rfl
  refine ⟨_, Result.bindOk.mpr ⟨_, Result.filterMOk each, rfl⟩, fun m => ?_⟩
  rw [NodeSet.memOfList, List.mem_filter, ← NodeSet.memDef]
  refine and_congr_right fun mem => ?_
  obtain ⟨plane, found⟩ := planes m mem
  simp [found, Except.toOption]

theorem unfocusedFound (keys : ∀ n, n ∈ f.keys ↔ n ∈ g.innerNodes)
    (planes : ∀ n ∈ g.innerNodes, ∃ plane, g.planeAt n = .ok plane) (given : f.get? n = some s)
    (found : g.oddNeighbors s = .ok odd) : ∃ disturbed, g.unfocused f n = .ok disturbed ∧
      ∀ m, m ∈ disturbed ↔ m ∈ g.innerNodes ∧ m ≠ n ∧ g.Disturbs s odd m := by
  have others : ∀ m, m ∈ ((NodeSet.ofList f.keys).diff g.outputNodes).erase n ↔
      m ∈ g.innerNodes ∧ m ≠ n := by
    intro m
    rw [NodeSet.memErase, NodeSet.memDiff, NodeSet.memOfList, keys]
    refine and_congr_left fun _ => and_iff_left_of_imp fun inner => ?_
    rw [memOutputNodes]
    exact (memInnerNodes.mp inner).2
  have measured (c : NodeSet) : ∀ m ∈ c.inter (((NodeSet.ofList f.keys).diff g.outputNodes).erase n),
      ∃ plane, g.planeAt m = .ok plane := fun m mem =>
    planes m ((others m).mp (NodeSet.memInter.mp mem).2).1
  obtain ⟨xy, foundXy, memXy⟩ := measuredInOk (· == .xy) (measured odd)
  obtain ⟨xz, foundXz, memXz⟩ := measuredInOk (· == .xz) (measured s)
  obtain ⟨yz, foundYz, memYz⟩ := measuredInOk (· == .yz) (measured s)
  refine ⟨(xy.union xz).union yz, ?_, fun m => ?_⟩
  · simp only [unfocused, given, Result.bindOk, Result.pureOk]
    exact ⟨odd, found, xy, foundXy, xz, foundXz, yz, foundYz, rfl⟩
  · rw [NodeSet.memUnion, NodeSet.memUnion, memXy, memXz, memYz]
    simp only [NodeSet.memInter, others, beq_iff_eq, Disturbs]
    by_cases inner : m ∈ g.innerNodes
    · obtain ⟨plane, here⟩ := planes m inner
      simp only [here, Except.ok.injEq, exists_eq_left']
      tauto
    · simp [inner]

namespace Corrected

theorem correction (flow : g.Corrected order f) (inner : n ∈ g.innerNodes) :
    ∃ s, f.get? n = some s ∧ g.Corrects order n s := by
  obtain ⟨s, given⟩ := Table.memKeys.mp ((flow.keys n).mpr inner)
  exact ⟨s, given, flow.each n s given⟩

theorem inner (flow : g.Corrected order f) (given : f.get? n = some s) : n ∈ g.innerNodes :=
  (flow.keys n).mp (Table.memKeys.mpr ⟨s, given⟩)

theorem plane (flow : g.Corrected order f) (inner : n ∈ g.innerNodes) :
    ∃ plane, g.planeAt n = .ok plane := by
  obtain ⟨_, _, plane, _, found, _⟩ := flow.correction inner
  exact ⟨plane, found⟩

theorem unfocusedOk (flow : g.Corrected order f) (given : f.get? n = some s)
    (found : g.oddNeighbors s = .ok odd) : ∃ disturbed, g.unfocused f n = .ok disturbed ∧
      ∀ m, m ∈ disturbed ↔ m ∈ g.innerNodes ∧ m ≠ n ∧ g.Disturbs s odd m :=
  unfocusedFound flow.keys (fun _ => flow.plane) given found

end Corrected

theorem Corrects.join (mine : g.Corrects order n s) (other : g.Corrects order v t)
    (found : g.oddNeighbors s = .ok odd) (touched : v ∈ s ∨ v ∈ odd) (apart : v ≠ n)
    (inner : n ∈ g.innerNodes) (inner' : v ∈ g.innerNodes) : g.Corrects order n (s.symmDiff t) := by
  have measured : ∀ k ∈ g.innerNodes, k ∉ g.outputNodes := fun k mem output =>
    (memInnerNodes.mp mem).2 (memOutputNodes.mp output)
  obtain ⟨plane, _, plain, found', corrected, later⟩ := mine
  cases found.symm.trans found'
  obtain ⟨_, odd', _, found', _, later'⟩ := other
  have after := (later v touched (measured v inner') apart).2
  have free : n ∉ t ∧ n ∉ odd' := by
    refine not_or.mp fun back => ?_
    have := (later' n back (measured n inner) (Ne.symm apart)).2
    omega
  refine ⟨plane, _, plain, oddSymmDiff found found', ?_, fun k mem outside different => ?_⟩
  · simpa [free] using corrected
  · have either : (k ∈ s ∨ k ∈ odd) ∨ k ∈ t ∨ k ∈ odd' := by
      simp only [NodeSet.memSymmDiff] at mem
      tauto
    rcases either with old | new
    · exact later k old outside different
    · by_cases here : k = v
      · rw [here]
        exact later v touched (measured v inner') apart
      · obtain ⟨there, further⟩ := later' k new outside here
        exact ⟨there, by omega⟩

theorem Corrects.moved (other : g.Corrects order v t) (found : g.oddNeighbors t = .ok odd')
    (disturbed : g.Disturbs s odd v)
    (first : g.Disturbs s odd m → order.idxOf v ≤ order.idxOf m)
    (listed : m ∈ order) (outside : m ∉ g.outputNodes)
    (after : g.Disturbs (s.symmDiff t) (odd.symmDiff odd') m) : order.idxOf v < order.idxOf m := by
  obtain ⟨plane, _, plain, found', corrected, later⟩ := other
  cases found.symm.trans found'
  obtain ⟨_, plain', how⟩ := disturbed
  cases plain.symm.trans plain'
  have gone : m ≠ v := by
    rintro rfl
    obtain ⟨_, plain'', kept⟩ := after
    cases plain.symm.trans plain''
    simp only [NodeSet.memSymmDiff] at kept
    rcases how with ⟨rfl, touched⟩ | ⟨rfl | rfl, touched⟩
    · simp_all [Plane.Corrected]
    · simp_all [Plane.Corrected]
    · simp_all [Plane.Corrected]
  obtain ⟨plane', plain'', kept⟩ := after
  have either : g.Disturbs s odd m ∨ m ∈ t ∨ m ∈ odd' := by
    simp only [NodeSet.memSymmDiff] at kept
    rcases kept with ⟨which, ⟨old, _⟩ | ⟨new, _⟩⟩ | ⟨which, ⟨old, _⟩ | ⟨new, _⟩⟩
    · exact .inl ⟨plane', plain'', .inl ⟨which, old⟩⟩
    · exact .inr (.inr new)
    · exact .inl ⟨plane', plain'', .inr ⟨which, old⟩⟩
    · exact .inr (.inl new)
  rcases either with old | new
  · have different : order.idxOf v ≠ order.idxOf m := fun same =>
      gone ((List.idxOf_inj listed).mp same.symm)
    have := first old
    omega
  · exact (later m new outside gone).2

end Graph

theorem Result.foldlMFixed {ε α β : Type} {f : β → α → Except ε β} {xs : List α} {b : β}
    (each : ∀ x ∈ xs, f b x = .ok b) : xs.foldlM f b = .ok b := by
  induction xs with
  | nil => rfl
  | cons x xs ih =>
    obtain ⟨head, tail⟩ := List.forall_mem_cons.mp each
    rw [List.foldlM_cons, bindOk]
    exact ⟨b, head, ih tail⟩

namespace Flow
variable {order candidates : List Int}

theorem leastOfFold (first : Int × Nat) (rest : List (Int × Nat)) :
    rest.foldl (fun best next => if next.2 < best.2 then next else best) first ∈ first :: rest ∧
      ∀ e ∈ first :: rest,
        (rest.foldl (fun best next => if next.2 < best.2 then next else best) first).2 ≤ e.2 := by
  induction rest generalizing first with
  | nil => simp
  | cons next rest ih =>
    rw [List.foldl_cons]
    obtain ⟨mem, least⟩ := ih (if next.2 < first.2 then next else first)
    obtain ⟨here, later⟩ := List.forall_mem_cons.mp least
    split at here
    · rename_i below
      rw [if_pos below] at mem later ⊢
      refine ⟨List.mem_cons_of_mem _ mem, ?_⟩
      exact List.forall_mem_cons.mpr ⟨by omega, List.forall_mem_cons.mpr ⟨here, later⟩⟩
    · rename_i above
      rw [if_neg above] at mem later ⊢
      refine ⟨?_, List.forall_mem_cons.mpr ⟨here, List.forall_mem_cons.mpr ⟨by omega, later⟩⟩⟩
      rcases List.mem_cons.mp mem with same | mem
      · rw [same]
        exact List.mem_cons_self
      · exact List.mem_cons_of_mem _ (List.mem_cons_of_mem _ mem)

theorem earliestOk (listed : ∀ n ∈ candidates, n ∈ order) (some : candidates ≠ []) :
    ∃ n ∈ candidates, earliest order candidates = .ok n ∧
      ∀ m ∈ candidates, order.idxOf n ≤ order.idxOf m := by
  have place : ∀ n ∈ candidates, order.idxOf? n = .some (order.idxOf n) := by
    intro n mem
    cases found : order.idxOf? n with
    | none => exact absurd (listed n mem) (List.idxOf?_eq_none_iff.mp found)
    | some i => rw [List.idxOf_eq_getD_idxOf?, found, Option.getD_some]
  cases candidates with
  | nil => exact absurd rfl some
  | cons first rest =>
    obtain ⟨mem, least⟩ := leastOfFold (first, order.idxOf first)
      (rest.map fun n => (n, order.idxOf n))
    rw [← List.map_cons (f := fun n => (n, order.idxOf n))] at mem least
    obtain ⟨n, here, eq⟩ := List.mem_map.mp mem
    refine ⟨n, here, ?_, fun m there => ?_⟩
    · rw [earliest, Result.bindOk]
      refine ⟨(first :: rest).map fun n => (n, order.idxOf n), Result.mapMOk.mpr ?_, ?_⟩
      · refine List.forall₂_map_right_iff.mpr (List.forall₂_same.mpr fun m mem => ?_)
        rw [place m mem]
      · exact congrArg _ (congrArg Prod.fst eq.symm)
    · have := least _ (List.mem_map_of_mem there)
      rwa [← eq] at this

end Flow

namespace Graph
variable {R : Type} [Scalar R] {g : Graph R} {order : List Int} {f f' : Table NodeSet}
  {s odd : NodeSet} {m n : Int}

theorem unfocusedCongr (keys : f'.keys = f.keys) (same : f'.get? n = f.get? n) :
    g.unfocused f' n = g.unfocused f n := by
  simp only [unfocused, keys, same]

theorem Corrected.replace (flow : g.Corrected order f) {s t : NodeSet} (given : f.get? n = some s)
    (corrects : g.Corrects order n t) :
    (f.set n t).keys = f.keys ∧ g.Corrected order (f.set n t) := by
  have keys : (f.set n t).keys = f.keys := Table.keysSetOld (Table.memKeys.mpr ⟨s, given⟩)
  refine ⟨keys, fun m => keys ▸ flow.keys m, flow.listed, fun m c taken => ?_⟩
  rw [Table.getSet] at taken
  split at taken
  · rename_i same
    cases taken
    exact same ▸ corrects
  · exact flow.each m c taken

theorem Corrected.absorb (flow : g.Corrected order f) {disturbed : NodeSet}
    (found : g.unfocused f n = .ok disturbed) (inner : n ∈ g.innerNodes) (some : disturbed ≠ ∅) :
    ∃ v ∈ disturbed, ∃ f', Flow.absorb f n disturbed.toList order = .ok f' ∧ g.Corrected order f' ∧
      f'.keys = f.keys ∧ (∀ m, m ≠ n → f'.get? m = f.get? m) ∧
      (∀ m ∈ disturbed, order.idxOf v ≤ order.idxOf m) ∧
      ∀ left, g.unfocused f' n = .ok left → ∀ m ∈ left, order.idxOf v < order.idxOf m := by
  obtain ⟨s, given, mine⟩ := flow.correction inner
  obtain ⟨plane, odd, plain, oddOk, rest⟩ := mine
  have mine : g.Corrects order n s := ⟨plane, odd, plain, oddOk, rest⟩
  obtain ⟨_, same, mem⟩ := flow.unfocusedOk given oddOk
  cases found.symm.trans same
  have nonempty : disturbed.toList ≠ [] := fun none =>
    some (NodeSet.eqOfMem fun m => by rw [NodeSet.memDef, none]; simp)
  obtain ⟨v, here, first, least⟩ := Flow.earliestOk
    (fun m there => (flow.listed m).mpr ((mem m).mp there).1) nonempty
  obtain ⟨inner', apart, disturbs⟩ := (mem v).mp here
  obtain ⟨t, given', other⟩ := flow.correction inner'
  have otherOdd : ∃ odd', g.oddNeighbors t = .ok odd' := by
    obtain ⟨_, odd', _, ok, _⟩ := other
    exact ⟨odd', ok⟩
  obtain ⟨odd', oddOk'⟩ := otherOdd
  obtain ⟨keys, after⟩ := flow.replace given (mine.join other oddOk disturbs.touched apart inner inner')
  refine ⟨v, here, f.set n (s.symmDiff t), ?_, after, keys, ?_, least, ?_⟩
  · simp only [Flow.absorb, Result.bindOk]
    exact ⟨v, first, by rw [given, given']; rfl⟩
  · intro m different
    rw [Table.getSet, if_neg different]
  · intro left leftOk m there
    obtain ⟨_, same, mem'⟩ := after.unfocusedOk (n := n) (by rw [Table.getSet, if_pos rfl])
      (oddSymmDiff oddOk oddOk')
    cases leftOk.symm.trans same
    obtain ⟨innerM, apartM, disturbsM⟩ := (mem' m).mp there
    have outside : m ∉ g.outputNodes := fun output =>
      (memInnerNodes.mp innerM).2 (memOutputNodes.mp output)
    exact other.moved oddOk' disturbs (fun old => least m ((mem m).mpr ⟨innerM, apartM, old⟩))
      ((flow.listed m).mpr innerM) outside disturbsM

def ahead (order : List Int) (f : Table NodeSet) (place : Nat) : Finset Int :=
  f.keys.toFinset.filter fun m => place ≤ order.idxOf m

theorem aheadFalls (key : m ∈ f.keys) {place : Nat} (here : place ≤ order.idxOf m) :
    (ahead order f (order.idxOf m + 1)).card < (ahead order f place).card := by
  refine Finset.card_lt_card (Finset.ssubset_iff_of_subset ?_ |>.mpr ⟨m, ?_, ?_⟩)
  · intro k mem
    simp only [ahead, Finset.mem_filter] at mem ⊢
    exact ⟨mem.1, by omega⟩
  · simpa [ahead, here] using key
  · simp [ahead]

/- All steps for one node. They end because what is disturbed lies further and further ahead. -/
theorem Corrected.focusNode (flow : g.Corrected order f) (inner : n ∈ g.innerNodes) {limit : Nat}
    (place : Nat)
    (bound : ∀ disturbed, g.unfocused f n = .ok disturbed → ∀ m ∈ disturbed, place ≤ order.idxOf m)
    (enough : (ahead order f place).card < limit) :
    ∃ f', g.focusNode order n limit f = .ok f' ∧ g.Corrected order f' ∧ f'.keys = f.keys ∧
      (∀ m, m ≠ n → f'.get? m = f.get? m) ∧ g.unfocused f' n = .ok ∅ := by
  induction limit generalizing f place with
  | zero => omega
  | succ limit ih =>
    obtain ⟨s, given, _, odd, _, oddOk, _⟩ := flow.correction inner
    obtain ⟨disturbed, found, mem⟩ := flow.unfocusedOk given oddOk
    by_cases none : disturbed = ∅
    · subst none
      refine ⟨f, ?_, flow, rfl, fun m _ => rfl, found⟩
      simp only [Graph.focusNode, Result.bindOk]
      exact ⟨∅, found, rfl⟩
    · obtain ⟨v, here, next, step, flow', keys, others, least, further⟩ :=
        flow.absorb found inner none
      have key : v ∈ f.keys := (flow.keys v).mpr ((mem v).mp here).1
      have falls := aheadFalls key (bound disturbed found v here)
      have same : ahead order next (order.idxOf v + 1) = ahead order f (order.idxOf v + 1) := by
        rw [ahead, ahead, keys]
      obtain ⟨f', run, flow'', keys', others', focused⟩ := ih flow' (order.idxOf v + 1)
        further (by rw [same]; omega)
      refine ⟨f', ?_, flow'', keys'.trans keys, fun m apart => ?_, focused⟩
      · have open' : disturbed.isEmpty = false := by
          rw [Bool.eq_false_iff, ne_eq, NodeSet.isEmptyIffEq]
          exact none
        simp only [Graph.focusNode, Result.bindOk]
        refine ⟨disturbed, found, ?_⟩
        rw [open', if_neg Bool.false_ne_true]
        exact Result.bindOk.mpr ⟨next, step, run⟩
      · rw [others' m apart, others m apart]

theorem Corrected.focusEach (flow : g.Corrected order f) {targets : List Int}
    (inner : ∀ n ∈ targets, n ∈ g.innerNodes) : ∃ f',
      g.focusEach order targets f = .ok f' ∧ g.Corrected order f' ∧ f'.keys = f.keys ∧ (∀ n ∈ targets, g.unfocused f' n = .ok ∅) ∧
      ∀ n, g.unfocused f n = .ok ∅ → g.unfocused f' n = .ok ∅ := by
  induction targets generalizing f with
  | nil => exact ⟨f, rfl, flow, rfl, by simp, fun n now => now⟩
  | cons n targets ih =>
    obtain ⟨here, later⟩ := List.forall_mem_cons.mp inner
    have enough : (ahead order f 0).card < Nat.pow 2 f.size := by
      have few : (ahead order f 0).card ≤ f.keys.length :=
        (Finset.card_filter_le _ _).trans f.keys.toFinset_card_le
      have size : f.keys.length = f.size := by simp [Table.keys, Table.size]
      have room : f.size < Nat.pow 2 f.size := Nat.lt_two_pow_self
      omega
    obtain ⟨next, step, flow', keys, others, focused⟩ :=
      flow.focusNode here 0 (fun _ _ _ _ => Nat.zero_le _) enough
    obtain ⟨f', run, flow'', keys', each, kept⟩ := ih flow' later
    refine ⟨f', ?_, flow'', keys'.trans keys, ?_, fun m now => kept m ?_⟩
    · rw [Graph.focusEach, List.foldlM_cons, Result.bindOk]
      exact ⟨next, step, run⟩
    · exact List.forall_mem_cons.mpr ⟨kept n focused, each⟩
    · by_cases same : m = n
      · exact same ▸ focused
      · rw [unfocusedCongr keys (others m same), now]

theorem focusNodeDone (focused : g.unfocused f n = .ok ∅) {limit : Nat} (enough : 0 < limit) :
    g.focusNode order n limit f = .ok f := by
  obtain ⟨limit, rfl⟩ := Nat.exists_eq_succ_of_ne_zero enough.ne'
  simp only [focusNode, Result.bindOk]
  exact ⟨∅, focused, rfl⟩

theorem allElsewhereOk {equator : Bool} (each : ∀ m ∈ s, m ∉ g.outputNodes →
    ∃ plane, g.planeAt m = .ok plane ∧ (decide (plane = .xy) ≠ equator ∨ m = n)) :
    g.allElsewhere n equator s = .ok true := by
  refine Result.foldlMFixed fun m mem => ?_
  obtain ⟨here, outside⟩ := NodeSet.memDiff.mp (NodeSet.memDef.mpr mem)
  obtain ⟨plane, found, free⟩ := each m here outside
  rw [Result.bindOk]
  refine ⟨plane, found, Result.pureOk.mpr ?_⟩
  simpa using free

theorem Corrected.generalFocused (flow : g.Corrected order f) (given : f.get? n = some s)
    (focused : g.unfocused f n = .ok ∅) : g.generalFocused n s = .ok true := by
  obtain ⟨own, odd, plain, oddOk, _, later⟩ := flow.each n s given
  obtain ⟨_, same, mem⟩ := flow.unfocusedOk given oddOk
  cases focused.symm.trans same
  have free : ∀ m, m ∈ s ∨ m ∈ odd → m ∉ g.outputNodes → m ≠ n →
      ∃ plane, g.planeAt m = .ok plane ∧ (m ∈ s → plane = .xy) ∧ (m ∈ odd → plane ≠ .xy) := by
    intro m touched outside apart
    have inner := (flow.listed m).mp (later m touched outside apart).1
    have quiet : ¬ g.Disturbs s odd m := fun disturbs =>
      absurd ((mem m).mpr ⟨inner, apart, disturbs⟩) NodeSet.notMemEmpty
    obtain ⟨_, _, plane, _, found, _, corrected, _⟩ := flow.correction inner
    refine ⟨plane, found, fun direct => ?_, fun indirect equator => ?_⟩
    · cases plane with
      | xy => rfl
      | xz => exact absurd ⟨_, found, .inr ⟨.inl rfl, direct⟩⟩ quiet
      | yz => exact absurd ⟨_, found, .inr ⟨.inr rfl, direct⟩⟩ quiet
      | other => exact absurd corrected id
    · exact quiet ⟨plane, found, .inl ⟨equator, indirect⟩⟩
  have all (c : NodeSet) (equator : Bool) (inside : ∀ m ∈ c, m ∈ s ∨ m ∈ odd)
      (other : ∀ m ∈ c, ∀ plane : Plane, (m ∈ s → plane = .xy) → (m ∈ odd → plane ≠ .xy) →
        decide (plane = .xy) ≠ equator) : g.allElsewhere n equator c = .ok true := by
    refine allElsewhereOk fun m here outside => ?_
    by_cases apart : m = n
    · exact ⟨own, apart ▸ plain, .inr apart⟩
    · obtain ⟨plane, found, direct, indirect⟩ := free m (inside m here) outside apart
      exact ⟨plane, found, .inl (other m here plane direct indirect)⟩
  have first := all s false (fun m => .inl) fun m here plane direct _ => by simp [direct here]
  have second := all odd true (fun m => .inr) fun m here plane _ indirect => by simp [indirect here]
  simp only [Graph.generalFocused, Result.bindOk, Result.pureOk]
  exact ⟨true, first, odd, oddOk, true, second, rfl⟩

theorem Corrected.isFocused (flow : g.Corrected order f)
    (focused : ∀ n ∈ g.innerNodes, g.unfocused f n = .ok ∅) :
    g.isFocused (Flow.ofSets f) = .ok true := by
  obtain ⟨_, sets⟩ := Flow.setsOfSets f
  refine Result.foldlMFixed fun n mem => ?_
  have key := (NodeSet.memDiff.mp (NodeSet.memDef.mpr mem)).1
  rw [NodeSet.memOfList, Flow.ofSets, Table.keysMapValues] at key
  obtain ⟨s, given⟩ := Table.memKeys.mp key
  have here : (Flow.ofSets f).get? n = some (.nodes s) := by
    rw [Flow.ofSets, Table.getMapValues, given]
    rfl
  have holds := flow.generalFocused given (focused n (flow.inner given))
  simp only [here, Flow.setsGeneral sets, if_pos, holds]
  rfl

/- The loop ends with the same nodes corrected, every correction focused and still one for the same
order, and a second run changes nothing. -/
theorem focusAllFocuses (flow : g.Corrected order f) : ∃ f', g.focusAll order f = .ok f' ∧
    f'.keys = f.keys ∧ g.isFocused (Flow.ofSets f') = .ok true ∧ g.Corrected order f' ∧
    g.focusAll order f' = .ok f' := by
  obtain ⟨f', run, flow', keys, each, _⟩ := flow.focusEach fun n mem => (flow.listed n).mp mem
  refine ⟨f', run, keys, flow'.isFocused fun n inner => each n ((flow.listed n).mpr inner), flow', ?_⟩
  exact Result.foldlMFixed fun n mem => focusNodeDone (each n mem) (Nat.pow_pos Nat.two_pos)

def knot : Graph Float := after [.addNode, .addNode, .addNode, .addNode, .addNode, .addEdge 0 1,
  .addEdge 0 2, .addEdge 3 4, .registerInput 0, .registerInput 3, .registerOutput 1 0,
  .registerOutput 4 1, .assignBasis 0 (.axial .x .plus), .assignBasis 2 (.axial .y .minus),
  .assignBasis 3 (.axial .z .plus)]

def knotFlow : Table NodeSet :=
  .ofList [(2, .ofList [2, 3]), (3, .ofList [1, 3, 4]), (0, .singleton 1)]

def knotFocused : Table NodeSet :=
  .ofList [(2, .ofList [1, 2, 4]), (3, .ofList [3, 4]), (0, .singleton 1)]

set_option maxRecDepth 2048

theorem knotCorrected : knot.Corrected [2, 3, 0] knotFlow := by
  have inner : knot.innerNodes = .ofList [2, 3, 0] := rfl
  have entries : knotFlow.entries =
      [(2, .ofList [2, 3]), (3, .ofList [1, 3, 4]), (0, .singleton 1)] := rfl
  have corrects (n : Int) (s odd : NodeSet) (plane : Plane) (plain : knot.planeAt n = .ok plane)
      (found : knot.oddNeighbors s = .ok odd) (own : plane.Corrected (n ∈ s) (n ∈ odd))
      (later : ∀ m ∈ s.union odd, m ∉ knot.outputNodes → m ≠ n →
        m ∈ [2, 3, 0] ∧ [2, 3, 0].idxOf n < [2, 3, 0].idxOf m) : knot.Corrects [2, 3, 0] n s :=
    ⟨plane, odd, plain, found, own, fun m touched => later m (NodeSet.memUnion.mpr touched)⟩
  refine ⟨fun n => ?_, fun n => ?_, fun n s given => ?_⟩
  · rw [inner, NodeSet.memOfList]
    exact Iff.rfl
  · rw [inner, NodeSet.memOfList]
  · have mem := Table.memEntries.mpr given
    simp only [entries, List.mem_cons, Prod.mk.injEq, List.not_mem_nil, or_false] at mem
    rcases mem with ⟨rfl, rfl⟩ | ⟨rfl, rfl⟩ | ⟨rfl, rfl⟩
    · exact corrects _ _ _ .yz rfl rfl ⟨by decide, by decide⟩ (by decide)
    · exact corrects _ _ _ .xz rfl rfl ⟨by decide, by decide⟩ (by decide)
    · exact corrects _ _ _ .xy rfl rfl ⟨by decide, by decide⟩ (by decide)

theorem knotFocuses : knot.Reachable ∧ knot.focusAll [2, 3, 0] knotFlow = .ok knotFocused ∧
    knot.isFocused (Flow.ofSets knotFocused) = .ok true ∧ knot.Corrected [2, 3, 0] knotFocused ∧
    knot.focusAll [2, 3, 0] knotFocused = .ok knotFocused := by
  have run : knot.focusAll [2, 3, 0] knotFlow = .ok knotFocused := rfl
  obtain ⟨f', ok, _, focused, flow, again⟩ := focusAllFocuses knotCorrected
  cases run.symm.trans ok
  exact ⟨⟨_, rfl⟩, run, focused, flow, again⟩

end Graph
end OneWay
