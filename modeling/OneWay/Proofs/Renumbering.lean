import OneWay.Proofs.Refinement

/-! Orders of qubits along every run of additions, removals and permutations. The axes stay the first
numbers, each once; the way from qubits to axes and the way back undo each other; and a qubit that is
taken away leaves the others in their order, with the axes after its own moved up by one. -/
namespace OneWay.QubitOrder
variable {o next : QubitOrder} {n i a : Nat}

inductive Change where
  | add (count : Int)
  | remove (axis : Int)
  | reorder (permutation : List Int)

def change (o : QubitOrder) : Change → Except Fault QubitOrder
  | .add count => .ok (o.add count)
  | .remove axis => .ok (o.remove axis)
  | .reorder permutation => o.reorder permutation

def Allows (o : QubitOrder) : Change → Prop
  | .add count => 0 ≤ count
  | .remove axis => axis ∈ o.axes
  | .reorder permutation => permutation.Perm (identity o.size).axes

def AllowsAll : QubitOrder → List Change → Prop
  | _, [] => True
  | o, c :: rest => o.Allows c ∧ ∀ next, o.change c = .ok next → next.AllowsAll rest

def closed (gone i : Int) : Int := if i < gone then i else i - 1

/- The axes of the qubits are all there, each once, and can be found both ways; a qubit leaves the others
as they were but for the numbers after its own. -/
structure Consistent (o : QubitOrder) : Prop where
  permutation : o.axes.Perm (identity o.size).axes
  inverse : ∃ qubits, o.inverse = .ok qubits ∧ o.toAxes qubits = .ok (identity o.size).axes ∧
    o.toQubits o.axes = .ok (identity o.size).axes
  qubitBack : ∀ q : Int, 0 ≤ q → q < o.size → (o.toAxis q >>= o.toQubit) = .ok q
  axisBack : ∀ a : Int, 0 ≤ a → a < o.size → (o.toQubit a >>= o.toAxis) = .ok a
  listBack : ∀ ns : List Int, (∀ i ∈ ns, 0 ≤ i ∧ i < o.size) →
    (o.toAxes ns >>= o.toQubits) = .ok ns ∧ (o.toQubits ns >>= o.toAxes) = .ok ns
  removal : ∀ e : Int, 0 ≤ e → e < o.size → ∃ axis, o.toAxis e = .ok axis ∧
    (o.remove axis).size + 1 = o.size ∧ ∀ q a : Int, 0 ≤ q → q < o.size → q ≠ e → o.toAxis q = .ok a →
      (o.remove axis).toAxis (closed e q) = .ok (closed axis a)

theorem closedNat {gone i : Nat} (other : i ≠ gone) :
    closed gone i = ((if i < gone then i else i - 1 : Nat) : Int) := by
  unfold closed
  split <;> split <;> omega

theorem mapIdentity (f : Nat → Nat) :
    (List.range n).map (fun i => (f i : Int)) = (identity n).axes.map fun i => (f i.toNat : Int) := by
  rw [identity, List.map_map]
  rfl

theorem mapBack {f h : Nat → Nat} (into : ∀ i < n, f i < n) (back : ∀ i < n, h (f i) = i) {ns : List Int}
    (valid : ∀ i ∈ ns, 0 ≤ i ∧ i < n) :
    (∀ i ∈ ns.map fun i => (f i.toNat : Int), 0 ≤ i ∧ i < n) ∧
      (ns.map fun i => (f i.toNat : Int)).map (fun i => (h i.toNat : Int)) = ns := by
  constructor
  · refine List.forall_mem_map.mpr fun i mem => ?_
    have := into i.toNat (by have := valid i mem; omega)
    omega
  · rw [List.map_map]
    refine (List.map_congr_left fun i mem => ?_).trans (List.map_id _)
    obtain ⟨start, stop⟩ := valid i mem
    show (h (f i.toNat) : Int) = i
    rw [back i.toNat (by omega), Int.toNat_of_nonneg start]

namespace Proper

theorem inverseAt (proper : o.Proper n) :
    o.inverse = .ok ((List.range n).map fun a => (o.qubitAt a : Int)) := by
  obtain ⟨qubits, run, whole, places⟩ := proper.inverse
  obtain ⟨length, listed⟩ : qubits.length = n ∧ ∀ i < n, (i : Int) ∈ qubits := by
    simpa [Tensor.isPermutation] using whole
  have held (a : Nat) (inside : a < n) : qubits[a]? = some (o.qubitAt a : Int) := by
    have place := List.idxOf_lt_length_iff.mpr (listed _ (proper.qubitLt inside))
    rw [← List.getElem_idxOf place, ← List.getElem?_eq_getElem, places _ (proper.qubitLt inside),
      proper.axisQubit inside]
  rw [run]
  refine congrArg _ (List.ext_getElem? fun a => ?_)
  by_cases inside : a < n
  · rw [held a inside, List.getElem?_map, List.getElem?_range inside]
    rfl
  · rw [List.getElem?_eq_none (by omega), List.getElem?_eq_none (by simpa using inside)]

theorem toQubit (proper : o.Proper n) (inside : a < n) : o.toQubit a = .ok (o.qubitAt a : Int) := by
  rw [QubitOrder.toQubit, proper.inverseAt]
  refine Position.getNat.mpr ?_
  rw [List.getElem?_map, List.getElem?_range inside]
  rfl

theorem toQubits (proper : o.Proper n) {axes : List Int} (valid : ∀ a ∈ axes, 0 ≤ a ∧ a < n) :
    o.toQubits axes = .ok (axes.map fun a => (o.qubitAt a.toNat : Int)) := by
  have each : ∀ a ∈ axes, o.toQubit a = .ok (o.qubitAt a.toNat : Int) := by
    intro a mem
    obtain ⟨start, stop⟩ := valid a mem
    obtain ⟨a, rfl⟩ := Int.eq_ofNat_of_zero_le start
    exact proper.toQubit (by omega)
  simp only [QubitOrder.toQubit, proper.inverseAt] at each
  rw [QubitOrder.toQubits, proper.inverseAt]
  exact Result.mapMOk.mpr (List.forall₂_map_right_iff.mpr (List.forall₂_same.mpr each))

theorem listBack (proper : o.Proper n) {ns : List Int} (valid : ∀ i ∈ ns, 0 ≤ i ∧ i < n) :
    (o.toAxes ns >>= o.toQubits) = .ok ns ∧ (o.toQubits ns >>= o.toAxes) = .ok ns := by
  obtain ⟨axes, home⟩ := mapBack (fun _ => proper.axisLt) (fun _ => proper.qubitAxis) valid
  obtain ⟨qubits, there⟩ := mapBack (fun _ => proper.qubitLt) (fun _ => proper.axisQubit) valid
  constructor
  · exact Result.bindOk.mpr ⟨_, proper.toAxes valid, by rw [proper.toQubits axes, home]⟩
  · exact Result.bindOk.mpr ⟨_, proper.toQubits valid, by rw [proper.toAxes qubits, there]⟩

theorem axisRemove (proper : o.Proper n) {e q : Nat} (gone : e < n) (inside : q < n) (other : q ≠ e) :
    (o.remove (o.axisAt e)).axisAt (if q < e then q else q - 1) =
      if o.axisAt q < o.axisAt e then o.axisAt q else o.axisAt q - 1 := by
  have apart : o.axisAt q ≠ o.axisAt e := fun same => other ((proper.axisInj inside gone).mp same)
  have moved := proper.qubitRemove (proper.axisLt gone) (proper.axisLt inside) apart
  rw [proper.qubitAxis inside, proper.qubitAxis gone] at moved
  have left := proper.remove (List.mem_of_getElem? (proper.getAxis gone))
  rw [← moved]
  refine left.axisQubit ?_
  have below := proper.axisLt inside
  have limit := proper.axisLt gone
  split <;> omega

theorem removal (proper : o.Proper n) {e : Nat} (gone : e < n) :
    (o.remove (o.axisAt e)).size + 1 = n ∧ ∀ q < n, q ≠ e →
      (o.remove (o.axisAt e)).toAxis (closed e q) = .ok (closed (o.axisAt e) (o.axisAt q)) := by
  have left := proper.remove (List.mem_of_getElem? (proper.getAxis gone))
  constructor
  · have size : (o.remove (o.axisAt e)).size = n - 1 := left.length
    omega
  · intro q inside other
    have apart : o.axisAt q ≠ o.axisAt e := fun same => other ((proper.axisInj inside gone).mp same)
    rw [closedNat other, closedNat apart, ← proper.axisRemove gone inside other]
    refine left.toAxis ?_
    split <;> omega

theorem consistent (proper : o.Proper o.size) : o.Consistent where
  permutation := proper
  inverse := by
    have range : ∀ a ∈ (identity o.size).axes, 0 ≤ a ∧ a < o.size := fun a => memIdentity.mp
    obtain ⟨qubits, there⟩ := mapBack (fun _ => proper.qubitLt) (fun _ => proper.axisQubit) range
    obtain ⟨axes, home⟩ := mapBack (fun _ => proper.axisLt) (fun _ => proper.qubitAxis) range
    refine ⟨_, proper.inverseAt, ?_, ?_⟩
    · rw [mapIdentity, proper.toAxes qubits, there]
    · rw [proper.axesEq, mapIdentity, proper.toQubits axes, home]
  qubitBack q start stop := by
    obtain ⟨q, rfl⟩ := Int.eq_ofNat_of_zero_le start
    have inside : q < o.size := Int.ofNat_lt.mp stop
    refine Result.bindOk.mpr ⟨_, proper.toAxis inside, ?_⟩
    rw [proper.toQubit (proper.axisLt inside), proper.qubitAxis inside]
  axisBack a start stop := by
    obtain ⟨a, rfl⟩ := Int.eq_ofNat_of_zero_le start
    have inside : a < o.size := Int.ofNat_lt.mp stop
    refine Result.bindOk.mpr ⟨_, proper.toQubit inside, ?_⟩
    rw [proper.toAxis (proper.qubitLt inside), proper.axisQubit inside]
  listBack ns valid := proper.listBack valid
  removal e start stop := by
    obtain ⟨e, rfl⟩ := Int.eq_ofNat_of_zero_le start
    have gone : e < o.size := Int.ofNat_lt.mp stop
    obtain ⟨size, others⟩ := proper.removal gone
    refine ⟨_, proper.toAxis gone, size, fun q a first last other found => ?_⟩
    obtain ⟨q, rfl⟩ := Int.eq_ofNat_of_zero_le first
    have inside : q < o.size := Int.ofNat_lt.mp last
    cases (proper.toAxis inside).symm.trans found
    exact others q inside fun same => other (congrArg _ same)

end Proper

theorem changeProper (proper : o.Proper o.size) {c : Change} (allowed : o.Allows c) :
    ∃ next, o.change c = .ok next ∧ next.Proper next.size := by
  have own {next : QubitOrder} {n : Nat} (proper : next.Proper n) : next.Proper next.size := by
    rwa [size, proper.length]
  cases c with
  | add count => exact ⟨_, rfl, own (proper.add count)⟩
  | remove axis => exact ⟨_, rfl, own (proper.remove allowed)⟩
  | reorder permutation =>
    obtain ⟨run, kept⟩ := proper.reorder allowed
    exact ⟨_, run, own kept⟩

theorem changesProper {changes : List Change} (proper : o.Proper o.size) (allowed : o.AllowsAll changes) :
    ∃ last, changes.foldlM change o = .ok last ∧ last.Proper last.size := by
  induction changes generalizing o with
  | nil => exact ⟨o, rfl, proper⟩
  | cons c rest ih =>
    obtain ⟨next, step, proper⟩ := changeProper proper allowed.1
    obtain ⟨last, run, proper⟩ := ih proper (allowed.2 next step)
    refine ⟨last, ?_, proper⟩
    rw [List.foldlM_cons, Result.bindOk]
    exact ⟨next, step, run⟩

theorem changesConsistent (n : Int) {changes : List Change} (allowed : (identity n).AllowsAll changes) :
    ∃ o, changes.foldlM change (identity n) = .ok o ∧ o.Consistent := by
  have start : (identity n).Proper (identity n).size := by
    simp only [Proper, size, identity, List.length_map, List.length_range, Int.toNat_natCast]
    exact .refl _
  obtain ⟨o, run, proper⟩ := changesProper start allowed
  exact ⟨o, run, proper.consistent⟩

def turned : List Change := [.add 2, .remove 1, .reorder [1, 2, 0]]

theorem turnedConsistent : (identity 2).AllowsAll turned ∧
    ∃ o, turned.foldlM change (identity 2) = .ok o ∧ o = ⟨[1, 2, 0]⟩ ∧ o.Consistent := by
  have allowed : (identity 2).AllowsAll turned := by
    refine ⟨Int.zero_le_ofNat 2, fun four made => ?_⟩
    cases made
    refine ⟨show (1 : Int) ∈ ((identity 2).add 2).axes by decide, fun three made => ?_⟩
    cases made
    refine ⟨show List.Perm [1, 2, 0] (identity (((identity 2).add 2).remove 1).size).axes by decide, ?_⟩
    exact fun _ _ => trivial
  obtain ⟨o, run, consistent⟩ := changesConsistent 2 allowed
  refine ⟨allowed, o, run, ?_, consistent⟩
  cases run
  rfl

end OneWay.QubitOrder
