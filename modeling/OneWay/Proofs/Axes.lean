import Mathlib.Data.List.Nodup
import Mathlib.Data.List.Perm.Basic
import OneWay.Proofs.Result
import OneWay.Register.Basic

/-! The axes of qubits. An order that holds each of the first axes once stays one when qubits are added,
taken away or reordered by a permutation, and its inverse list tells for every axis which qubit is on
it. -/
namespace OneWay

namespace Position
variable {α : Type} {xs : List α} {i : Nat} {x : α}

theorem getNat : get xs (i : Int) = .ok x ↔ xs[i]? = some x := by
  have start : ¬ (i : Int) < 0 := by omega
  unfold get index?
  by_cases inside : i < xs.length
  · simp [start, inside]
  · simp [start, inside]

theorem getMem {i : Int} (found : get xs i = .ok x) : x ∈ xs := by
  unfold get at found
  split at found
  · rename_i y here
    obtain ⟨j, _, item⟩ := Option.bind_eq_some_iff.mp here
    exact Except.ok.inj found ▸ List.mem_of_getElem? item
  · cases found

theorem setNat (inside : i < xs.length) : set xs (i : Int) x = .ok (xs.set i x) := by
  have start : ¬ (i : Int) < 0 := by omega
  simp [set, index?, start, inside]

end Position

namespace QubitOrder
variable {o next : QubitOrder} {n i j : Nat} {a : Int}

theorem memIdentity : a ∈ (identity n).axes ↔ 0 ≤ a ∧ a < n := by
  simp only [identity, List.mem_map, List.mem_range, Int.toNat_natCast]
  constructor
  · rintro ⟨i, inside, rfl⟩
    exact ⟨Int.natCast_nonneg i, Int.ofNat_lt.mpr inside⟩
  · rintro ⟨start, stop⟩
    exact ⟨a.toNat, by omega, Int.toNat_of_nonneg start⟩

theorem identityNodup : (identity n).axes.Nodup :=
  List.nodup_range.map fun _ _ => Int.ofNat.inj

def Proper (o : QubitOrder) (n : Nat) : Prop := o.axes.Perm (identity n).axes

instance : Decidable (o.Proper n) := inferInstanceAs (Decidable (List.Perm _ _))

theorem properIdentity (n : Nat) : (identity n).Proper n := .refl _

namespace Proper

theorem length (proper : o.Proper n) : o.axes.length = n := by
  rw [proper.length_eq]
  simp [identity]

theorem mem (proper : o.Proper n) : a ∈ o.axes ↔ 0 ≤ a ∧ a < n := by
  rw [proper.mem_iff, memIdentity]

theorem nodup (proper : o.Proper n) : o.axes.Nodup := proper.nodup_iff.mpr identityNodup

end Proper

def axisAt (o : QubitOrder) (qubit : Nat) : Nat := (o.axes.getD qubit 0).toNat

theorem axisIdentity (inside : i < n) : (identity n).axisAt i = i := by
  simp [axisAt, identity, List.getD_eq_getElem?_getD, inside]

namespace Proper

theorem getAxis (proper : o.Proper n) (inside : i < n) : o.axes[i]? = some (o.axisAt i : Int) := by
  have here : i < o.axes.length := by rwa [proper.length]
  have start := (proper.mem.mp (List.getElem_mem here)).1
  rw [axisAt, List.getD_eq_getElem?_getD, List.getElem?_eq_getElem here, Option.getD_some,
    Int.toNat_of_nonneg start]

theorem axisLt (proper : o.Proper n) (inside : i < n) : o.axisAt i < n := by
  have mem := proper.mem.mp (List.mem_of_getElem? (proper.getAxis inside))
  omega

theorem axisInj (proper : o.Proper n) (first : i < n) (second : j < n) :
    o.axisAt i = o.axisAt j ↔ i = j := by
  have places : o.axes[i]? = o.axes[j]? ↔ i = j :=
    List.getElem?_inj (by rwa [proper.length]) proper.nodup
  rw [← places, proper.getAxis first, proper.getAxis second, Option.some.injEq, Int.ofNat_inj]

theorem axisOnto (proper : o.Proper n) (inside : j < n) : ∃ i < n, o.axisAt i = j := by
  have mem : (j : Int) ∈ o.axes := proper.mem.mpr ⟨by omega, by omega⟩
  obtain ⟨i, found⟩ := List.mem_iff_getElem?.mp mem
  have here : i < n := by
    rw [← proper.length]
    exact (List.getElem?_eq_some_iff.mp found).1
  rw [proper.getAxis here] at found
  exact ⟨i, here, Int.ofNat.inj (Option.some.inj found)⟩

theorem toAxis (proper : o.Proper n) (inside : i < n) : o.toAxis i = .ok (o.axisAt i : Int) :=
  Position.getNat.mpr (proper.getAxis inside)

theorem toAxes (proper : o.Proper n) {qubits : List Int} (valid : ∀ q ∈ qubits, 0 ≤ q ∧ q < n) :
    o.toAxes qubits = .ok (qubits.map fun q => (o.axisAt q.toNat : Int)) := by
  refine Result.mapMOk.mpr (List.forall₂_map_right_iff.mpr (List.forall₂_same.mpr fun q mem => ?_))
  obtain ⟨start, stop⟩ := valid q mem
  obtain ⟨i, rfl⟩ := Int.eq_ofNat_of_zero_le start
  exact proper.toAxis (by omega)

theorem axesEq (proper : o.Proper n) : o.axes = (List.range n).map fun i => (o.axisAt i : Int) := by
  refine List.ext_getElem? fun i => ?_
  by_cases inside : i < n
  · rw [proper.getAxis inside, List.getElem?_map, List.getElem?_range inside]
    rfl
  · rw [List.getElem?_eq_none (by rw [proper.length]; omega), List.getElem?_eq_none (by simpa using inside)]

theorem reorder (proper : o.Proper n) {permutation : List Int} (perm : permutation.Perm (identity n).axes) :
    o.reorder permutation = .ok ⟨permutation.map fun p => (o.axisAt p.toNat : Int)⟩ ∧
      Proper ⟨permutation.map fun p => (o.axisAt p.toNat : Int)⟩ n := by
  have valid : ∀ p ∈ permutation, 0 ≤ p ∧ p < n := fun p mem => memIdentity.mp (perm.mem_iff.mp mem)
  constructor
  · have length : permutation.length = o.axes.length := by
      rw [perm.length_eq, proper.length]
      simp [identity]
    simp only [QubitOrder.reorder, Result.refuseIfOk, Result.bindOk, Result.pureOk]
    exact ⟨not_not.mpr length, _, proper.toAxes valid, rfl⟩
  · have moved : (identity n).axes.map (fun p => (o.axisAt p.toNat : Int)) = o.axes := by
      rw [proper.axesEq, identity, List.map_map, Int.toNat_natCast]
      rfl
    refine (perm.map _).trans ?_
    rw [moved]
    exact proper

theorem addAxes (proper : o.Proper n) (count : Int) :
    (o.add count).axes = o.axes ++ (List.range count.toNat).map fun (k : Nat) => (n + k : Int) := by
  have length := proper.length
  unfold QubitOrder.add
  cases listed : o.axes with
  | nil =>
    rw [listed, List.length_nil] at length
    simp [← length]
  | cons first rest =>
    obtain ⟨mem, bound⟩ := List.max?_eq_some_iff.mp (List.max?_cons' : (first :: rest).max? = _)
    rw [← listed] at mem bound
    have inside := proper.mem.mp mem
    have top := bound (n - 1) (proper.mem.mpr ⟨by omega, by omega⟩)
    have last : rest.foldl max first = n - 1 := by omega
    simp [last]

theorem add (proper : o.Proper n) (count : Int) : (o.add count).Proper (n + count.toNat) := by
  have range : (identity ((n + count.toNat : Nat) : Int)).axes =
      (identity n).axes ++ (List.range count.toNat).map fun (k : Nat) => (n + k : Int) := by
    simp only [identity, Int.toNat_natCast, List.range_add, List.map_append, List.map_map]
    rfl
  rw [Proper, proper.addAxes, range]
  exact List.Perm.append_right _ proper

theorem remove (proper : o.Proper n) (here : a ∈ o.axes) : (o.remove a).Proper (n - 1) := by
  obtain ⟨start, stop⟩ := proper.mem.mp here
  refine (List.perm_ext_iff_of_nodup ?_ identityNodup).mpr fun x => ?_
  · refine (proper.nodup.filter _).map_on fun x hx y hy same => ?_
    have otherX : x ≠ a := by simpa using (List.mem_filter.mp hx).2
    have otherY : y ≠ a := by simpa using (List.mem_filter.mp hy).2
    split at same <;> split at same <;> omega
  · rw [memIdentity, QubitOrder.remove, List.mem_map]
    simp only [List.mem_filter, proper.mem, bne_iff_ne]
    constructor
    · rintro ⟨y, ⟨⟨low, high⟩, other⟩, rfl⟩
      split <;> omega
    · rintro ⟨low, high⟩
      by_cases early : x < a
      · exact ⟨x, ⟨⟨low, by omega⟩, by omega⟩, if_pos early⟩
      · exact ⟨x + 1, ⟨⟨by omega, by omega⟩, by omega⟩, by rw [if_neg (by omega)]; omega⟩

end Proper

theorem writeEach {f : List Int → Int × Nat → Except Fault (List Int)}
    (each : ∀ xs e, f xs e = Position.set xs e.1 (e.2 : Int)) {pairs : List (Int × Nat)} {xs : List Int}
    (once : (pairs.map Prod.fst).Nodup) (inside : ∀ e ∈ pairs, 0 ≤ e.1 ∧ e.1 < xs.length) :
    ∃ ys, pairs.foldlM f xs = .ok ys ∧ ys.length = xs.length ∧
      (∀ e ∈ pairs, ys[e.1.toNat]? = some (e.2 : Int)) ∧
      ∀ k : Nat, (k : Int) ∉ pairs.map Prod.fst → ys[k]? = xs[k]? := by
  induction pairs generalizing xs with
  | nil => exact ⟨xs, rfl, rfl, by simp, by simp⟩
  | cons e pairs ih =>
    obtain ⟨other, once⟩ := List.nodup_cons.mp once
    obtain ⟨⟨start, stop⟩, inside⟩ := List.forall_mem_cons.mp inside
    obtain ⟨place, eq⟩ := Int.eq_ofNat_of_zero_le start
    have step : f xs e = .ok (xs.set place e.2) := by
      rw [each, eq]
      exact Position.setNat (by omega)
    have inside : ∀ d ∈ pairs, 0 ≤ d.1 ∧ d.1 < (xs.set place (e.2 : Int)).length := by
      simpa using inside
    obtain ⟨ys, run, length, written, kept⟩ := ih once inside
    refine ⟨ys, ?_, by simpa using length, List.forall_mem_cons.mpr ⟨?_, written⟩, fun k absent => ?_⟩
    · rw [List.foldlM_cons, Result.bindOk]
      exact ⟨_, step, run⟩
    · rw [eq, Int.toNat_natCast, kept place (eq ▸ other), List.getElem?_set_self (by omega)]
    · rw [List.map_cons, List.mem_cons, not_or] at absent
      rw [kept k absent.2, List.getElem?_set_ne]
      rintro rfl
      exact absent.1 eq.symm

namespace Proper

theorem inverse (proper : o.Proper n) : ∃ qubits, o.inverse = .ok qubits ∧
    Tensor.isPermutation n qubits = true ∧ ∀ i < n, qubits.idxOf (i : Int) = o.axisAt i := by
  have firsts : o.axes.zipIdx.map Prod.fst = o.axes := List.zipIdx_map_fst 0 o.axes
  have inside : ∀ e ∈ o.axes.zipIdx, 0 ≤ e.1 ∧ e.1 < (List.replicate o.axes.length (0 : Int)).length := by
    intro e mem
    rw [List.length_replicate, proper.length]
    exact proper.mem.mp (firsts ▸ List.mem_map_of_mem mem)
  obtain ⟨qubits, run, length, written, _⟩ :=
    writeEach (fun _ _ => rfl) (firsts.symm ▸ proper.nodup) inside
  rw [List.length_replicate, proper.length] at length
  have holds (i : Nat) (inside : i < n) : qubits[o.axisAt i]? = some (i : Int) :=
    written (o.axisAt i, i) (List.mk_mem_zipIdx_iff_getElem?.mpr (proper.getAxis inside))
  have listed (i : Nat) (inside : i < n) : (i : Int) ∈ qubits := List.mem_of_getElem? (holds i inside)
  refine ⟨qubits, run, by simpa [Tensor.isPermutation, length] using listed, fun i inside => ?_⟩
  -- the first place of `i` is the axis of some qubit, and that qubit stands there too
  have place := List.idxOf_lt_length_iff.mpr (listed i inside)
  obtain ⟨j, own, eq⟩ := proper.axisOnto (length ▸ place)
  have same : some (j : Int) = some (i : Int) := by
    rw [← holds j own, eq, List.getElem?_eq_getElem place, List.getElem_idxOf]
  rw [← eq, Int.ofNat.inj (Option.some.inj same)]

end Proper
end QubitOrder
end OneWay
