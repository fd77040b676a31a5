import OneWay.Proofs.Focus

/-! Odd neighbourhoods count edges. A node is an odd neighbour of a set when an odd number of its neighbours
are in the set, and the odd neighbours of two sets added up are theirs added up. The edges inside a set are a
quadratic form for which this addition is the linear part: adding a set changes their number, up to an even
one, by the edges inside it and by its odd neighbours in the set that it is added to. -/
namespace OneWay

theorem NodeSet.sizeInter {s t : NodeSet} : (s.inter t).size = s.toList.countP (· ∈ t) :=
  List.countP_eq_length_filter.symm

theorem NodeSet.pairsLength {s : NodeSet} {near : Int → NodeSet} :
    (s.pairs near).length = (s.toList.map fun a => (near a).size).sum := by
  simp only [pairs, List.length_flatMap, List.length_map, size]

theorem sumParity {α : Type} {f : α → Nat} {xs : List α} :
    (xs.map f).sum % 2 = xs.countP (fun x => decide (Odd (f x))) % 2 := by
  induction xs with
  | nil => rfl
  | cons x xs ih =>
    rw [List.map_cons, List.sum_cons, List.countP_cons]
    by_cases odd : Odd (f x)
    · have one := Nat.odd_iff.mp odd
      simp only [odd, decide_true, if_true]
      omega
    · have none := Nat.even_iff.mp (Nat.not_odd_iff_even.mp odd)
      simp only [odd, decide_false, Bool.false_eq_true, if_false]
      omega

namespace Graph
variable {R : Type} [Scalar R] {g : Graph R} {s t x odd : NodeSet} {n : Int}

def edgesWithin (g : Graph R) (s : NodeSet) : Nat := g.edges.countP fun e => decide (e.1 ∈ s ∧ e.2 ∈ s)

def edgesUp (g : Graph R) (s t : NodeSet) : Nat := g.edges.countP fun e => decide (e.1 ∈ s ∧ e.2 ∈ t)

theorem Sound.hitsNeighbors (sound : g.Sound) : g.hits s n = ((g.adjacent n).inter s).size := by
  have perm : (s.toList.filter fun m => decide (n ∈ g.adjacent m)).Perm ((g.adjacent n).inter s).toList := by
    refine (List.perm_ext_iff_of_nodup (s.nodup.filter _) (NodeSet.nodup _)).mpr fun m => ?_
    rw [List.mem_filter, ← NodeSet.memDef, ← NodeSet.memDef, NodeSet.memInter, decide_eq_true_eq, and_comm]
    exact and_congr_left' ⟨sound.joined m n, sound.joined n m⟩
  rw [hits, List.countP_eq_length_filter, perm.length_eq, NodeSet.size]

theorem Sound.pairsEdges (sound : g.Sound) : (s.pairs fun n => (g.adjacent n).inter t).Perm
    ((g.edges.filter fun e => decide (e.1 ∈ s ∧ e.2 ∈ t)) ++
      (g.edges.filter fun e => decide (e.1 ∈ t ∧ e.2 ∈ s)).map Prod.swap) := by
  have once : ((g.edges.filter fun e => decide (e.1 ∈ s ∧ e.2 ∈ t)) ++
      (g.edges.filter fun e => decide (e.1 ∈ t ∧ e.2 ∈ s)).map Prod.swap).Nodup := by
    refine List.nodup_append.mpr
      ⟨edgesNodup.filter _, (edgesNodup.filter _).map Prod.swap_injective, ?_⟩
    rintro ⟨a, b⟩ up e down rfl
    obtain ⟨⟨c, d⟩, mem, same⟩ := List.mem_map.mp down
    cases same
    have above := (memEdges.mp (List.mem_filter.mp up).1).2
    have below := (memEdges.mp (List.mem_filter.mp mem).1).2
    omega
  refine (List.perm_ext_iff_of_nodup NodeSet.pairsNodup once).mpr ?_
  rintro ⟨a, b⟩
  have swapped : ∀ es : List (Int × Int), (a, b) ∈ es.map Prod.swap ↔ (b, a) ∈ es := by simp
  rw [NodeSet.memPairs, List.mem_append, swapped, List.mem_filter, List.mem_filter, memEdges, memEdges,
    NodeSet.memInter, decide_eq_true_eq, decide_eq_true_eq]
  constructor
  · rintro ⟨inS, near, inT⟩
    rcases lt_trichotomy a b with up | same | down
    · exact .inl ⟨⟨near, up⟩, inS, inT⟩
    · exact absurd (same ▸ near) (sound.loopless a)
    · exact .inr ⟨⟨sound.joined a b near, down⟩, inT, inS⟩
  · rintro (⟨⟨near, _⟩, inS, inT⟩ | ⟨⟨near, _⟩, inT, inS⟩)
    · exact ⟨inS, near, inT⟩
    · exact ⟨inS, sound.joined b a near, inT⟩

theorem Sound.edgesBetween (sound : g.Sound) : g.edgesUp s t + g.edgesUp t s =
    (s.toList.map fun n => ((g.adjacent n).inter t).size).sum := by
  rw [← NodeSet.pairsLength, sound.pairsEdges.length_eq, List.length_append, List.length_map, edgesUp, edgesUp,
    List.countP_eq_length_filter, List.countP_eq_length_filter]

theorem edgesSymmDiff : g.edgesWithin (x.symmDiff s) % 2 =
    (g.edgesWithin x + g.edgesWithin s + (g.edgesUp x s + g.edgesUp s x)) % 2 := by
  unfold edgesWithin edgesUp
  induction g.edges with
  | nil => rfl
  | cons e rest ih =>
    simp only [List.countP_cons, NodeSet.memSymmDiff, decide_eq_true_eq] at ih ⊢
    by_cases a : e.1 ∈ x <;> by_cases b : e.1 ∈ s <;> by_cases c : e.2 ∈ x <;> by_cases d : e.2 ∈ s <;>
      simp only [a, b, c, d, not_true_eq_false, not_false_eq_true, and_true, and_false, or_true, or_false,
        if_true, if_false, and_self, or_self] <;> omega

theorem Sound.edgesOdd (sound : g.Sound) (ok : g.oddNeighbors s = .ok odd) :
    (g.edgesUp x s + g.edgesUp s x) % 2 = (x.inter odd).size % 2 := by
  have same : (x.toList.countP fun n => decide (Odd ((g.adjacent n).inter s).size)) = (x.inter odd).size := by
    rw [NodeSet.sizeInter]
    refine List.countP_congr fun n _ => ?_
    rw [decide_eq_true_eq, decide_eq_true_eq, memOddNeighbors ok, sound.hitsNeighbors]
  rw [sound.edgesBetween, sumParity, same]

/- Odd neighbourhoods of sets of nodes of a graph exist. Their members have oddly many neighbours in the
set, they add up as the sets do, and they say how the number of edges inside a set changes when another is
added to it. -/
theorem oddNeighborsQuadratic (reach : g.Reachable) (inS : ∀ n ∈ s, n ∈ g.nodes) (inT : ∀ n ∈ t, n ∈ g.nodes)
    (x : NodeSet) :
    ∃ oddS oddT, g.oddNeighbors s = .ok oddS ∧ g.oddNeighbors t = .ok oddT ∧
      (∀ v, v ∈ oddS ↔ Odd ((g.adjacent v).inter s).size) ∧
      g.oddNeighbors (s.symmDiff t) = .ok (oddS.symmDiff oddT) ∧
      g.edgesWithin (x.symmDiff s) % 2 =
        (g.edgesWithin x + g.edgesWithin s + (x.inter oddS).size) % 2 := by
  have sound := reachableSound reach
  obtain ⟨oddS, okS⟩ := sound.oddNeighborsTotal inS
  obtain ⟨oddT, okT⟩ := sound.oddNeighborsTotal inT
  refine ⟨oddS, oddT, okS, okT, fun v => ?_, oddSymmDiff okS okT, ?_⟩
  · rw [memOddNeighbors okS, sound.hitsNeighbors]
  · have between := sound.edgesOdd (x := x) okS
    rw [edgesSymmDiff, Nat.add_mod, between, ← Nat.add_mod]

def kite : Graph Float := after [.addNode, .addNode, .addNode, .addNode, .addEdge 0 1, .addEdge 1 2,
  .addEdge 2 3, .addEdge 3 0, .addEdge 0 2]

theorem kiteQuadratic : kite.Reachable ∧ ∃ oddS oddT, kite.oddNeighbors (.ofList [0, 1]) = .ok oddS ∧
    kite.oddNeighbors (.ofList [1, 3]) = .ok oddT ∧ 3 ∈ oddS ∧ 2 ∉ oddS ∧
    kite.oddNeighbors (.ofList [0, 3]) = .ok (oddS.symmDiff oddT) ∧
    kite.edgesWithin (.ofList [0, 2, 3]) = 3 ∧ kite.edgesWithin (.ofList [1, 2, 3]) = 2 ∧
    ((NodeSet.ofList [0, 2, 3]).inter oddS).size % 2 = 0 := by
  have reach : kite.Reachable := ⟨_, rfl⟩
  obtain ⟨oddS, oddT, okS, okT, members, added, edges⟩ := oddNeighborsQuadratic (s := .ofList [0, 1])
    (t := .ofList [1, 3]) reach (by decide) (by decide) (.ofList [0, 2, 3])
  have within : kite.edgesWithin (.ofList [0, 2, 3]) = 3 := by decide
  have alone : kite.edgesWithin (.ofList [0, 1]) = 1 := by decide
  have after : kite.edgesWithin (.ofList [1, 2, 3]) = 2 := by decide
  have shifted : (NodeSet.ofList [0, 2, 3]).symmDiff (.ofList [0, 1]) = .ofList [1, 2, 3] := by decide
  rw [shifted, within, alone, after] at edges
  exact ⟨reach, oddS, oddT, okS, okT, (members 3).mpr (by decide),
    fun mem => absurd ((members 2).mp mem) (by decide), added, within, after, by omega⟩

end Graph
end OneWay
