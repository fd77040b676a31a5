import Mathlib.Algebra.BigOperators.Group.List.Basic
import Mathlib.Algebra.BigOperators.Group.Finset.Basic
import OneWay.Proofs.Labels
import OneWay.Proofs.State

/-! The qubits of a register by number. The amplitudes of a register, with every qubit moved from its axis
to the place of its number, are a state; overlaps of such states do not depend on the axes that the qubits
are on. -/
namespace OneWay
open ComplexConjugate

namespace QubitOrder
variable {o : QubitOrder} {n a q : Nat}

def qubitAt (o : QubitOrder) (axis : Nat) : Nat := o.axes.idxOf (axis : Int)

namespace Proper

theorem natural (proper : o.Proper n) : (o.axes.map Int.toNat).map Int.ofNat = o.axes := by
  rw [List.map_map]
  refine (List.map_congr_left fun a mem => ?_).trans (List.map_id _)
  exact Int.toNat_of_nonneg (proper.mem.mp mem).1

theorem arranged (proper : o.Proper n) : Arranged n (o.axes.map Int.toNat) := by
  have perm : (o.axes.map Int.toNat).Perm _ := List.Perm.map Int.toNat proper
  have back : Int.toNat ∘ Int.ofNat = id := rfl
  rwa [identity, List.map_map, Int.toNat_natCast, back, List.map_id] at perm

theorem qubitPlace (proper : o.Proper n) : o.qubitAt = (o.axes.map Int.toNat).idxOf := by
  funext a
  rw [qubitAt, ← Tensor.placeNat, proper.natural]

theorem axisPlace : o.axisAt q = (o.axes.map Int.toNat).getD q 0 := (List.getD_map _ 0 Int.toNat).symm

theorem qubitLt (proper : o.Proper n) (inside : a < n) : o.qubitAt a < n := by
  rw [proper.qubitPlace]
  exact proper.arranged.placeLt inside

theorem axisQubit (proper : o.Proper n) (inside : a < n) : o.axisAt (o.qubitAt a) = a := by
  rw [axisPlace, proper.qubitPlace]
  exact proper.arranged.atPlace inside

theorem qubitAxis (proper : o.Proper n) (inside : q < n) : o.qubitAt (o.axisAt q) = q := by
  rw [axisPlace, proper.qubitPlace]
  exact proper.arranged.placeAt inside

end Proper
end QubitOrder

@[simp] theorem Amplitude.toComplexConj {a : Amplitude ℝ} : a.conj.toComplex = conj a.toComplex := rfl

theorem Matrix.sumComplex {terms : List (Amplitude ℝ)} :
    (Matrix.sum terms).toComplex = (terms.map Amplitude.toComplex).sum := by
  have run (a : Amplitude ℝ) : (terms.foldl (· + ·) a).toComplex =
      a.toComplex + (terms.map Amplitude.toComplex).sum := by
    induction terms generalizing a with
    | nil => simp
    | cons b rest ih =>
      rw [List.foldl_cons, ih, Amplitude.toComplexAdd, List.map_cons, List.sum_cons, add_assoc]
  rw [Matrix.sum, run, Amplitude.toComplexZero, zero_add]

def Labelling.ofLabel (x : Tensor.Label) : Labelling := fun q => x q.toNat

noncomputable def State.overlap (n : Nat) (φ ψ : State) : ℂ :=
  ∑ place ∈ Finset.range (2 ^ n), conj (φ (.ofLabel (Tensor.labelAt n place))) *
    ψ (.ofLabel (Tensor.labelAt n place))

namespace Tensor
variable {t s : Tensor ℝ} {n : Nat} {p : List Nat} {x : Label}

noncomputable def state (t : Tensor ℝ) : State := fun z => (t.get fun axis => z axis).toComplex

@[simp] theorem stateLabel : t.state (.ofLabel x) = (t.get x).toComplex := rfl

theorem toListLabels :
    t.toList = (List.range (2 ^ t.axes)).map fun place => t.get (labelAt t.axes place) := by
  have whole : t.toList = (ofFn t.axes t.get).toList := congrArg toList ofGet.symm
  rw [whole, toList, ofFn, Array.toList_ofFn]
  refine List.ext_getElem (by simp) fun i first second => ?_
  simp

theorem sumRange {f : Nat → Amplitude ℝ} : (Matrix.sum ((List.range n).map f)).toComplex =
    ∑ place ∈ Finset.range n, (f place).toComplex := by
  rw [Matrix.sumComplex, List.map_map, ← List.sum_toFinset _ List.nodup_range, List.toFinset_range]
  rfl

theorem innerState (same : s.axes = t.axes) :
    (t.inner s).toComplex = State.overlap t.axes t.state s.state := by
  rw [inner, toListLabels, toListLabels, same, List.zip_map', List.map_map, sumRange, State.overlap]
  refine Finset.sum_congr rfl fun place _ => ?_
  simp

theorem overlapSelf {φ : State} : (State.overlap n φ φ).re =
    ∑ place ∈ Finset.range (2 ^ n), Complex.normSq (φ (.ofLabel (labelAt n place))) := by
  rw [State.overlap, Complex.re_sum]
  refine Finset.sum_congr rfl fun place _ => ?_
  rw [← Complex.normSq_eq_conj_mul_self, Complex.ofReal_re]

theorem lengthState : t.length = √(State.overlap t.axes t.state t.state).re := by
  have squares : (t.toList.map Amplitude.normSq).foldl (· + ·) 0 =
      ∑ place ∈ Finset.range (2 ^ t.axes), Complex.normSq (t.state (.ofLabel (labelAt t.axes place))) := by
    rw [← List.sum_eq_foldl, toListLabels, List.map_map, ← List.sum_toFinset _ List.nodup_range,
      List.toFinset_range]
    refine Finset.sum_congr rfl fun place _ => ?_
    rw [stateLabel, Complex.normSq_apply]
    rfl
  rw [length, norm, Scalar.zeroReal, squares, overlapSelf, Scalar.sqrtReal]

theorem sumLabels (all : Arranged n p) {f : Label → ℂ} (own : ∀ x y, (∀ i < n, x i = y i) → f x = f y) :
    ∑ place ∈ Finset.range (2 ^ n), f (labelAt n place ∘ p.idxOf) =
      ∑ place ∈ Finset.range (2 ^ n), f (labelAt n place) := by
  have inside (x : Label) : placeOf n x ∈ Finset.range (2 ^ n) := Finset.mem_range.mpr placeLt
  have back {place : Nat} (mem : place ∈ Finset.range (2 ^ n)) {σ τ : Nat → Nat}
      (into : ∀ i < n, τ i < n) (home : ∀ i < n, σ (τ i) = i) :
      placeOf n (labelAt n (placeOf n (labelAt n place ∘ σ)) ∘ τ) = place := by
    refine Eq.trans (placeCongr fun i here => ?_) (placeLabel (Finset.mem_range.mp mem))
    exact (labelPlace (into i here)).trans (congrArg (labelAt n place) (home i here))
  refine Finset.sum_nbij' (fun place => placeOf n (labelAt n place ∘ p.idxOf))
    (fun place => placeOf n (labelAt n place ∘ fun i => p.getD i 0)) (fun _ _ => inside _)
    (fun _ _ => inside _) (fun _ mem => ?_) (fun _ mem => ?_) fun _ _ => ?_
  · exact back mem (fun _ => all.atLt) fun _ => all.placeAt
  · exact back mem (fun _ => all.placeLt) fun _ => all.atPlace
  · exact own _ _ fun i here => (labelPlace here).symm

theorem overlapRelabel (all : Arranged t.axes p) (same : s.axes = t.axes) :
    State.overlap t.axes (t.relabel p.idxOf).state (s.relabel p.idxOf).state =
      State.overlap t.axes t.state s.state := by
  have own (x y : Label) (agree : ∀ i < t.axes, x i = y i) :
      conj (t.get x).toComplex * (s.get x).toComplex = conj (t.get y).toComplex * (s.get y).toComplex := by
    have first : t.get x = t.get y := getCongr agree
    have second : s.get x = s.get y := getCongr (same ▸ agree)
    rw [first, second]
  have into : ∀ i < s.axes, p.idxOf i < s.axes := by
    rw [same]
    exact fun i => all.placeLt
  simp only [State.overlap, stateLabel, getRelabel (t := t) fun i => all.placeLt, getRelabel into]
  exact sumLabels all own

end Tensor

structure Matrix.Takes (n : Nat) (op : Matrix ℝ) (qubits : List Int) : Prop where
  valid : ∀ q ∈ qubits, 0 ≤ q ∧ q < n
  once : qubits.Nodup
  rows : op.rows = 2 ^ qubits.length
  cols : op.cols = 2 ^ qubits.length
  entries : op.entries.size = op.rows * op.cols

def Matrix.Hermitian (op : Matrix ℝ) : Prop :=
  ∀ i < op.rows, ∀ j < op.cols, (op.entry i j).toComplex = conj (op.entry j i).toComplex

namespace Register
variable {r : Register ℝ} {op : Matrix ℝ} {qubits : List Int} {z : Labelling} {place : Nat}

noncomputable def numbered (r : Register ℝ) : Tensor ℝ := r.tensor.relabel r.order.qubitAt

theorem takesFits (takes : op.Takes r.size qubits) : r.Fits op qubits where
  valid := takes.valid
  once := takes.once
  entries := by
    rw [takes.entries, takes.rows, takes.cols, ← mul_pow]
    rfl

namespace Proper

theorem transposed (proper : r.Proper) : r.tensor.transpose r.order.axes = .ok r.numbered := by
  rw [← QubitOrder.Proper.natural proper, Tensor.transposeArranged (QubitOrder.Proper.arranged proper),
    numbered, QubitOrder.Proper.qubitPlace proper]

theorem numberedState (proper : r.Proper) :
    r.numbered.state z = (r.tensor.get fun axis => z (r.order.qubitAt axis)).toComplex :=
  congrArg _ (Tensor.getRelabel fun _ => QubitOrder.Proper.qubitLt proper)

theorem atAxis (proper : r.Proper) {q : Int} (valid : 0 ≤ q ∧ q < r.size) :
    (r.order.qubitAt (r.order.axisAt q.toNat) : Int) = q := by
  rw [QubitOrder.Proper.qubitAxis proper (by omega), Int.toNat_of_nonneg valid.1]

theorem foundAxis (proper : r.Proper) (valid : ∀ q ∈ qubits, 0 ≤ q ∧ q < r.size) {axis : Nat}
    (inside : axis < r.size) : (qubits.map fun q => r.order.axisAt q.toNat).idxOf? axis =
      qubits.idxOf? (r.order.qubitAt axis : Int) := by
  have home : r.order.axisAt (r.order.qubitAt axis : Int).toNat = axis :=
    QubitOrder.Proper.axisQubit proper inside
  have found := foundMapped (f := fun q : Int => r.order.axisAt q.toNat) (l := qubits)
    (a := (r.order.qubitAt axis : Int)) fun q mem same => by
      rw [← proper.atAxis (valid q mem), same, home]
  rwa [home] at found

theorem bitsAxes (proper : r.Proper) (valid : ∀ q ∈ qubits, 0 ≤ q ∧ q < r.size) :
    r.tensor.get (Tensor.withBits (qubits.map fun q => r.order.axisAt q.toNat) place
      fun axis => z (r.order.qubitAt axis)) =
      r.tensor.get fun axis => Tensor.withBits qubits place z (r.order.qubitAt axis) := by
  refine Tensor.getCongr fun axis inside => ?_
  have same := proper.foundAxis valid inside
  cases found : qubits.idxOf? (r.order.qubitAt axis : Int) with
  | none => simp only [Tensor.withBits, same, found]
  | some i => simp only [Tensor.withBits, same, found, List.length_map]

theorem placeAxes (proper : r.Proper) (valid : ∀ q ∈ qubits, 0 ≤ q ∧ q < r.size) :
    Tensor.placeOn (qubits.map fun q => r.order.axisAt q.toNat) (fun axis => z (r.order.qubitAt axis)) =
      Tensor.placeOn qubits z := by
  rw [Tensor.placeOnMap]
  exact Tensor.placeOnSame fun q mem => congrArg z (proper.atAxis (valid q mem))

theorem numberedAct (proper : r.Proper) (takes : op.Takes r.size qubits) :
    (numbered { r with tensor := r.tensor.act op (qubits.map fun q => r.order.axisAt q.toNat) }).state =
      Operator.act op qubits r.numbered.state := by
  funext z
  have acted :
      Proper { r with tensor := r.tensor.act op (qubits.map fun q => r.order.axisAt q.toNat) } := proper
  rw [acted.numberedState, Tensor.getAct (proper.axesLt (takesFits takes)), Tensor.sumRange,
    Operator.actApply, proper.placeAxes takes.valid, List.length_map]
  refine Finset.sum_congr rfl fun place _ => ?_
  rw [Amplitude.toComplexMul, proper.bitsAxes takes.valid, proper.numberedState, Matrix.entry, takes.cols]
  rfl

end Proper

theorem hermitianChecked (square : op.rows = op.cols) (hermitian : op.Hermitian) :
    op.isHermitian? = some true := by
  have same {i j : Nat} (row : i < op.rows) (col : j < op.cols) :
      (op.entry i j).near (op.adjoint.entry i j) = true := by
    have turned : op.adjoint.entry i j = (op.entry j i).conj := Matrix.entryOfFn (square ▸ row) (square ▸ col)
    have parts := Complex.ext_iff.mp (hermitian i row j col)
    rw [Amplitude.near, Bool.or_eq_true, Bool.and_eq_true (Scalar.eq _ _), Scalar.eqReal, Scalar.eqReal,
      turned]
    exact .inr parts
  have single {m i : Nat} (inside : i < m) : (if m = 1 then 0 else i) = i := by
    split <;> omega
  have rows : op.adjoint.rows = op.rows := square.symm
  have cols : op.adjoint.cols = op.cols := square
  simp only [Matrix.isHermitian?, Matrix.near?, rows, cols, Matrix.stretch, if_true, Option.bind_eq_bind,
    Option.bind_some, Option.some.injEq, List.all_eq_true, List.mem_range]
  intro i row j col
  rw [single row, single col]
  exact same row col

namespace Proper

/- Overlaps do not depend on the axes that the qubits are on. -/
theorem overlapNumbered (proper : r.Proper) {t : Tensor ℝ} (same : t.axes = r.size) :
    State.overlap r.size r.numbered.state (numbered { r with tensor := t }).state =
      State.overlap r.size r.tensor.state t.state := by
  rw [numbered, numbered, QubitOrder.Proper.qubitPlace proper]
  exact Tensor.overlapRelabel (QubitOrder.Proper.arranged proper) same

theorem lengthNumbered (proper : r.Proper) :
    r.tensor.length = √(State.overlap r.size r.numbered.state r.numbered.state).re := by
  have whole := proper.overlapNumbered (t := r.tensor) rfl
  exact Tensor.lengthState.trans (congrArg (fun w => √(Complex.re w)) whole.symm)

theorem innerForward (proper : r.Proper) {t : Tensor ℝ} (same : t.axes = r.size) {p : List Nat}
    (all : Arranged r.size p) : ((r.tensor.relabel p.idxOf).inner (t.relabel p.idxOf)).toComplex =
      State.overlap r.size r.numbered.state (numbered { r with tensor := t }).state := by
  have product : ((r.tensor.relabel p.idxOf).inner (t.relabel p.idxOf)).toComplex =
      State.overlap r.size (r.tensor.relabel p.idxOf).state (t.relabel p.idxOf).state :=
    Tensor.innerState same
  rw [product, proper.overlapNumbered same]
  exact Tensor.overlapRelabel all same

theorem expectation (proper : r.Proper) (takes : op.Takes r.size qubits) (hermitian : op.Hermitian) :
    r.expectation op qubits = .ok
      ((State.overlap r.size r.numbered.state (Operator.act op qubits r.numbered.state)).re /
        (State.overlap r.size r.numbered.state r.numbered.state).re) := by
  have fits := takesFits takes
  have inside := proper.axesLt fits
  have once := proper.axesOnce fits
  have all := Tensor.forwardArranged inside once
  have shape : op.entries.size = Nat.pow 4 (qubits.map fun q => r.order.axisAt q.toNat).length := by
    rw [List.length_map, fits.entries]
  have checked := hermitianChecked (takes.rows.trans takes.cols.symm) hermitian
  simp only [Register.expectation, checked, Result.bindOk, Result.pureOk]
  refine ⟨_, proper.axesOf fits, (), if_pos ⟨shape, once⟩, _, Tensor.transposeArranged all, ?_⟩
  have product : (r.tensor.relabel (Tensor.forward r.size _).idxOf).contract op _ = _ :=
    Tensor.contractForward inside once
  rw [product]
  have above := proper.innerForward
    (t := r.tensor.act op (qubits.map fun q => r.order.axisAt q.toNat)) rfl all
  have below := proper.innerForward (t := r.tensor) rfl all
  rw [proper.numberedAct takes] at above
  exact congrArg₂ (· / ·) (congrArg Complex.re above) (congrArg Complex.re below)

end Proper
end Register
end OneWay
