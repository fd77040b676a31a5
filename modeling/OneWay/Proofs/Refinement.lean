import OneWay.Proofs.Numbered

/-! Registers against states held by number. A register leaves its amplitudes where they are when qubits
are renumbered and finds the axis of a qubit through its order; the plain way moves every qubit to the
place of its number at once. Along every run the two agree. -/
namespace OneWay
open ComplexConjugate

namespace Register

inductive Action where
  | add (count : Int)
  | evolve (op : Matrix ℝ) (qubits : List Int)
  | entangle (a b : Int)
  | measure (qubit : Int) (basis : Basis ℝ) (one : Bool)
  | reorder (permutation : List Int)

noncomputable def perform (r : Register ℝ) : Action → Except Fault (Register ℝ)
  | .add count => r.add count
  | .evolve op qubits => r.evolve op qubits
  | .entangle a b => r.entangle a b
  | .measure qubit basis one => r.measure qubit basis one
  | .reorder permutation => r.reorder permutation

end Register

structure Plain where
  qubits : Nat
  state : State

namespace Plain

noncomputable def ofAmps (n : Nat) (amps : List (Amplitude ℝ)) : Plain :=
  ⟨n, fun z => (amps.getD (Tensor.placeOf n fun q => z q) 0).toComplex⟩

noncomputable def length (s : Plain) : ℝ := √(State.overlap s.qubits s.state s.state).re

theorem lengthNeZero {s : Plain} (place : Nat) (inside : place < 2 ^ s.qubits)
    (some : s.state (.ofLabel (Tensor.labelAt s.qubits place)) ≠ 0) : s.length ≠ 0 := by
  refine (Real.sqrt_pos.mpr ?_).ne'
  rw [Tensor.overlapSelf]
  exact Finset.sum_pos' (fun _ _ => Complex.normSq_nonneg _)
    ⟨place, Finset.mem_range.mpr inside, Complex.normSq_pos.mpr some⟩

noncomputable def normalize (s : Plain) : Plain := ⟨s.qubits, fun z => s.state z / s.length⟩

noncomputable def add (s : Plain) (count : Nat) : Plain :=
  let fresh := (List.range count).map fun (k : Nat) => ((s.qubits + k : Nat) : Int)
  ⟨s.qubits + count, Operator.inTurn (fresh.map Operator.prepare) s.state⟩

noncomputable def evolve (s : Plain) (op : Matrix ℝ) (qubits : List Int) : Plain :=
  ⟨s.qubits, Operator.act op qubits s.state⟩

noncomputable def entangle (s : Plain) (a b : Int) : Plain := ⟨s.qubits, Operator.entangle a b s.state⟩

def reopened (q : Int) (z : Labelling) : Labelling := fun p => if p < q then z p else z (p - 1)

theorem reopenedOther {p q : Nat} {z : Labelling} (other : p ≠ q) :
    reopened q z p = z (if p < q then p else p - 1 : Nat) := by
  unfold reopened
  split <;> split
  · rfl
  · omega
  · omega
  · exact congrArg z (by omega)

noncomputable def project (s : Plain) (q : Int) (v : Ket ℝ) : Plain :=
  ⟨s.qubits - 1, fun z => Operator.project q v s.state (reopened q z)⟩

def reorder (s : Plain) (permutation : List Int) : Plain :=
  ⟨s.qubits, fun z => s.state fun q => z (permutation.idxOf q)⟩

noncomputable def perform (s : Plain) : Register.Action → Plain
  | .add count => s.add count.toNat
  | .evolve op qubits => s.evolve op qubits
  | .entangle a b => s.entangle a b
  | .measure q basis one =>
      match (if one then basis.flip else basis).vector with
      | .ok v => (s.project q v).normalize
      | .error _ => s
  | .reorder permutation => s.reorder permutation

def Has (s : Plain) (q : Int) : Prop := 0 ≤ q ∧ q < s.qubits

def Allows (s : Plain) : Register.Action → Prop
  | .add count => 0 ≤ count
  | .evolve op qubits => op.Takes s.qubits qubits
  | .entangle a b => s.Has a ∧ s.Has b ∧ a ≠ b
  | .measure q basis one => s.Has q ∧
      ∃ v, (if one then basis.flip else basis).vector = .ok v ∧ (s.project q v).length ≠ 0
  | .reorder permutation => permutation.Perm (QubitOrder.identity s.qubits).axes

def AllowsAll : Plain → List Register.Action → Prop
  | _, [] => True
  | s, action :: rest => s.Allows action ∧ (s.perform action).AllowsAll rest

end Plain

namespace Tensor
variable {t : Tensor ℝ} {x : Label}

theorem getRenamed {p q : Nat → Nat} (same : ∀ axis < t.axes, p axis = q axis) (z : Labelling) :
    (t.get fun axis => z (p axis)) = t.get fun axis => z (q axis) :=
  getCongr fun axis inside => congrArg (fun n : Nat => z n) (same axis inside)

theorem getDivide {c : Amplitude ℝ} : (t.divideBy c).get x = t.get x / c := by
  have inside : placeOf t.axes x < t.amps.size := lt_of_lt_of_eq placeLt t.size_amps.symm
  simp [get, divideBy, Array.getD, inside]

theorem rootPower {count : Nat} : √((2 : ℝ) ^ count) = √2 ^ count := by
  induction count with
  | zero => simp
  | succ count ih => rw [pow_succ, pow_succ, Real.sqrt_mul (by positivity), ih]

theorem getExtend {count : Nat} : ((t.extend count).get x).toComplex =
    (√2 : ℂ)⁻¹ ^ count * (t.get x).toComplex := by
  have read : (t.extend count).get x = t.get x / .ofReal (Scalar.sqrt (Scalar.ofNat (Nat.pow 2 count))) :=
    getOfFn fun y same => by
      rw [getCongr (t := t) (y := x) fun axis here => same axis (by omega)]
  have number : (Scalar.ofNat (Nat.pow 2 count) : ℝ) = 2 ^ count := by
    exact_mod_cast rfl
  rw [read, Amplitude.toComplexDiv, Amplitude.toComplexOfReal, number, Scalar.sqrtReal, rootPower,
    div_eq_mul_inv, mul_comm, Complex.ofReal_pow, inv_pow]

theorem insertOther {axis i : Nat} {b : Bool} (other : i ≠ axis) :
    insertAxis axis b x i = x (if i < axis then i else i - 1) := by
  unfold insertAxis
  split <;> rfl

theorem getProject {axis : Nat} {v : Ket ℝ} (inside : axis < t.axes) :
    ((t.project axis v).get x).toComplex = conj v.zero.toComplex * (t.get (insertAxis axis false x)).toComplex +
      conj v.one.toComplex * (t.get (insertAxis axis true x)).toComplex := by
  have read (y : Label) (same : ∀ i < t.axes - 1, y i = x i) (b : Bool) :
      t.get (insertAxis axis b y) = t.get (insertAxis axis b x) := by
    refine getCongr fun i here => ?_
    unfold insertAxis
    split
    · exact same i (by omega)
    · split
      · rfl
      · exact same (i - 1) (by omega)
  have taken : (t.project axis v).get x = v.zero.conj * t.get (insertAxis axis false x) +
      v.one.conj * t.get (insertAxis axis true x) :=
    getOfFn fun y same => by rw [read y same, read y same]
  rw [taken]
  simp

end Tensor

namespace QubitOrder
variable {o : QubitOrder} {n a axis : Nat}

theorem placeFiltered {xs : List Int} {a b : Int} (once : xs.Nodup) (here : a ∈ xs) (gone : b ∈ xs)
    (other : a ≠ b) : (xs.filter (· != b)).idxOf a =
      if xs.idxOf a < xs.idxOf b then xs.idxOf a else xs.idxOf a - 1 := by
  induction xs with
  | nil => cases here
  | cons first rest ih =>
    obtain ⟨fresh, once⟩ := List.nodup_cons.mp once
    by_cases taken : first = b
    · subst taken
      have kept : rest.filter (· != first) = rest :=
        List.filter_eq_self.mpr fun c mem => by simpa using ne_of_mem_of_not_mem mem fresh
      simp [kept, List.idxOf_cons_ne _ (Ne.symm other)]
    · have gone : b ∈ rest := (List.mem_cons.mp gone).resolve_left (Ne.symm taken)
      have keeps : (first :: rest).filter (· != b) = first :: rest.filter (· != b) := by simp [taken]
      rw [keeps, List.idxOf_cons_ne rest taken]
      by_cases own : first = a
      · subst own
        simp
      · have here : a ∈ rest := (List.mem_cons.mp here).resolve_left (Ne.symm own)
        have apart : rest.idxOf a ≠ rest.idxOf b := fun same => other ((List.idxOf_inj here).mp same)
        rw [List.idxOf_cons_ne _ own, List.idxOf_cons_ne _ own, ih once here gone]
        split <;> split <;> omega

namespace Proper

theorem qubitIdentity (inside : a < n) : (identity n).qubitAt a = a := by
  have own := (properIdentity n).qubitAxis inside
  rwa [axisIdentity inside] at own

theorem qubitAdd (proper : o.Proper n) {count : Int} (inside : a < n) :
    (o.add count).qubitAt a = o.qubitAt a := by
  rw [qubitAt, proper.addAxes, List.idxOf_append_of_mem (proper.mem.mpr ⟨by omega, by omega⟩), qubitAt]

theorem qubitRemove (proper : o.Proper n) (gone : axis < n) (inside : a < n) (other : a ≠ axis) :
    (o.remove axis).qubitAt (if a < axis then a else a - 1) =
      if o.qubitAt a < o.qubitAt axis then o.qubitAt a else o.qubitAt a - 1 := by
  have place := placeFiltered (a := (a : Int)) (b := (axis : Int)) proper.nodup
    (proper.mem.mpr ⟨by omega, by omega⟩) (proper.mem.mpr ⟨by omega, by omega⟩) (by omega)
  have moved := placeMapped (f := fun b : Int => if b < axis then b else b - 1) (a := (a : Int))
    (l := o.axes.filter (· != (axis : Int))) fun b mem same => by
      have away : b ≠ axis := by simpa using (List.mem_filter.mp mem).2
      split at same <;> split at same <;> omega
  have shifted : (((if a < axis then a else a - 1 : Nat) : Nat) : Int) =
      if (a : Int) < axis then (a : Int) else a - 1 := by
    split <;> split <;> omega
  rw [qubitAt, shifted]
  exact moved.trans place

theorem qubitReorder (proper : o.Proper n) {permutation : List Int}
    (perm : permutation.Perm (identity n).axes) (inside : a < n) :
    qubitAt ⟨permutation.map fun p => (o.axisAt p.toNat : Int)⟩ a =
      permutation.idxOf (o.qubitAt a : Int) := by
  have home : (o.axisAt (o.qubitAt a : Int).toNat : Int) = a := congrArg _ (proper.axisQubit inside)
  have place := placeMapped (f := fun p : Int => (o.axisAt p.toNat : Int)) (a := (o.qubitAt a : Int))
    (l := permutation) fun p mem same => by
      have valid := memIdentity.mp (perm.mem_iff.mp mem)
      have apart := (proper.axisInj (by omega) (proper.qubitLt inside)).mp (Int.ofNat.inj same)
      omega
  rw [home] at place
  exact place

end Proper
end QubitOrder

namespace Register
variable {r : Register ℝ} {s : Plain}

structure Follows (r : Register ℝ) (s : Plain) : Prop where
  proper : r.Proper
  size : r.size = s.qubits
  state : r.numbered.state = s.state

theorem followsStart {n : Nat} {amps : List (Amplitude ℝ)} (whole : amps.length = 2 ^ n) :
    ∃ start, ofAmps amps = .ok start ∧ start.Follows (.ofAmps n amps) := by
  have axes : amps.length.log2 = n := by
    rw [whole]
    exact Nat.log2_two_pow
  obtain ⟨t, built, own, held⟩ : ∃ t, Tensor.ofList amps = .ok t ∧ t.axes = n ∧ t.amps = amps.toArray :=
    ⟨_, dif_pos (by rw [axes]; exact whole), axes, rfl⟩
  have proper : (ofTensor t).Proper := QubitOrder.properIdentity t.axes
  refine ⟨ofTensor t, ?_, proper, own, funext fun z => ?_⟩
  · simp only [ofAmps, Result.bindOk, Result.pureOk]
    exact ⟨t, built, rfl⟩
  · have placed : (t.get fun axis => z ((QubitOrder.identity t.axes).qubitAt axis)) = t.get fun axis => z axis :=
      Tensor.getRenamed (fun _ => QubitOrder.Proper.qubitIdentity) z
    refine proper.numberedState.trans (congrArg Amplitude.toComplex (placed.trans ?_))
    rw [Tensor.get, held, own]
    simp

namespace Follows

theorem blind (follows : r.Follows s) {q : Nat} (none : r.size ≤ q) {z : Labelling} {b : Bool} :
    s.state (Function.update z q b) = s.state z := by
  rw [← follows.state, follows.proper.numberedState, follows.proper.numberedState]
  refine congrArg Amplitude.toComplex (Tensor.getCongr fun axis inside => Function.update_of_ne ?_ b z)
  have here := QubitOrder.Proper.qubitLt follows.proper inside
  omega

theorem add (follows : r.Follows s) {count : Int} (some : 0 ≤ count) :
    ∃ next, r.add count = .ok next ∧ next.Follows (s.add count.toNat) := by
  have run : r.add count = .ok ⟨r.tensor.extend count.toNat, r.order.add count⟩ := if_neg (by omega)
  have proper := follows.proper.add run
  refine ⟨_, run, proper, congrArg (· + count.toNat) follows.size, funext fun z => ?_⟩
  have kept : (r.tensor.get fun axis => z ((r.order.add count).qubitAt axis)) =
      r.tensor.get fun axis => z (r.order.qubitAt axis) :=
    Tensor.getRenamed (fun _ => QubitOrder.Proper.qubitAdd follows.proper) z
  have blind : Operator.Blind ((List.range count.toNat).map fun (k : Nat) => ((s.qubits + k : Nat) : Int))
      s.state := by
    refine List.forall_mem_map.mpr fun k _ z b => ?_
    rw [← follows.size]
    exact follows.blind (Nat.le_add_right _ k)
  rw [proper.numberedState, Tensor.getExtend, kept, ← follows.proper.numberedState, follows.state, Plain.add,
    Operator.prepareAll blind, List.length_map, List.length_range]
  rfl

theorem evolve (follows : r.Follows s) {op : Matrix ℝ} {qubits : List Int}
    (takes : op.Takes s.qubits qubits) :
    ∃ next, r.evolve op qubits = .ok next ∧ next.Follows (s.evolve op qubits) := by
  have takes : op.Takes r.size qubits := follows.size ▸ takes
  have run := follows.proper.evolveTotal (takesFits takes)
  refine ⟨_, run, follows.proper.evolve run, follows.size, ?_⟩
  rw [follows.proper.numberedAct takes, follows.state]
  rfl

theorem entangle (follows : r.Follows s) {a b : Int} (first : s.Has a) (second : s.Has b) (apart : a ≠ b) :
    ∃ next, r.entangle a b = .ok next ∧ next.Follows (s.entangle a b) := by
  have takes : (Gate.cz [a, b] : Gate ℝ).matrix.Takes s.qubits [a, b] :=
    { valid := by simpa using ⟨first, second⟩
      once := by simpa using apart
      rows := rfl
      cols := rfl
      entries := by simp [Gate.matrix, Gate.controlled, Matrix.ofFn] }
  exact follows.evolve takes

theorem reorder (follows : r.Follows s) {permutation : List Int}
    (perm : permutation.Perm (QubitOrder.identity s.qubits).axes) :
    ∃ next, r.reorder permutation = .ok next ∧ next.Follows (s.reorder permutation) := by
  have perm : permutation.Perm (QubitOrder.identity r.size).axes := follows.size ▸ perm
  have run := follows.proper.reorderTotal perm
  have proper := follows.proper.reorder perm run
  refine ⟨_, run, proper, follows.size, funext fun z => ?_⟩
  have moved : (r.tensor.get fun axis =>
      z (QubitOrder.qubitAt ⟨permutation.map fun p => (r.order.axisAt p.toNat : Int)⟩ axis)) =
        r.tensor.get fun axis => z (permutation.idxOf (r.order.qubitAt axis : Int)) :=
    Tensor.getRenamed (fun _ => QubitOrder.Proper.qubitReorder follows.proper perm) z
  rw [proper.numberedState, moved]
  exact (follows.proper.numberedState (z := fun q => z (permutation.idxOf q))).symm.trans
    (congrFun follows.state _)

theorem normalize (follows : r.Follows s) : r.normalize.Follows s.normalize := by
  have proper : r.normalize.Proper := follows.proper
  have length : r.tensor.length = s.length := by
    rw [follows.proper.lengthNumbered, follows.size, follows.state]
    rfl
  refine ⟨proper, follows.size, funext fun z => ?_⟩
  have divided : r.normalize.numbered.state z = r.numbered.state z / r.tensor.length := by
    rw [proper.numberedState, follows.proper.numberedState, ← Amplitude.toComplexOfReal,
      ← Amplitude.toComplexDiv]
    exact congrArg _ Tensor.getDivide
  rw [divided, follows.state, length]
  rfl

theorem project (follows : r.Follows s) {q : Nat} (inside : q < s.qubits) {v : Ket ℝ} :
    Follows ⟨r.tensor.project (r.order.axisAt q) v, r.order.remove (r.order.axisAt q)⟩ (s.project q v) := by
  have order : r.order.Proper r.size := follows.proper
  have inside : q < r.size := follows.size ▸ inside
  have gone := order.axisLt inside
  have own := order.qubitAxis inside
  have proper : Proper ⟨r.tensor.project (r.order.axisAt q) v, r.order.remove (r.order.axisAt q)⟩ :=
    order.remove (order.mem.mpr ⟨by omega, by omega⟩)
  refine ⟨proper, congrArg (· - 1) follows.size, funext fun z => ?_⟩
  -- the axis of `q` gets the open bit, and every other axis the bit of its qubit, counted without `q`
  have bits (b : Bool) : r.tensor.get (Tensor.insertAxis (r.order.axisAt q) b fun axis =>
      z ((r.order.remove (r.order.axisAt q)).qubitAt axis)) =
        r.tensor.get fun axis => Function.update (Plain.reopened q z) q b (r.order.qubitAt axis) := by
    refine Tensor.getCongr fun axis here => ?_
    by_cases same : axis = r.order.axisAt q
    · rw [same, own, Function.update_self]
      simp [Tensor.insertAxis]
    · have other : r.order.qubitAt axis ≠ q := fun meet => same (by rw [← order.axisQubit here, meet])
      have moved := order.qubitRemove gone here same
      rw [own] at moved
      rw [Tensor.insertOther same, moved, Function.update_of_ne (Int.ofNat_inj.not.mpr other),
        Plain.reopenedOther other]
  rw [proper.numberedState, Tensor.getProject gone, bits, bits, ← follows.proper.numberedState,
    ← follows.proper.numberedState, follows.state]
  rfl

theorem measure (follows : r.Follows s) {q : Int} (has : s.Has q) {basis : Basis ℝ} {one : Bool} {v : Ket ℝ}
    (vector : (if one then basis.flip else basis).vector = .ok v) :
    ∃ next, r.measure q basis one = .ok next ∧ next.Follows (s.project q v).normalize := by
  obtain ⟨i, rfl⟩ := Int.eq_ofNat_of_zero_le has.1
  have inside : i < s.qubits := Int.ofNat_lt.mp has.2
  have axis := QubitOrder.Proper.toAxis follows.proper (follows.size ▸ inside)
  refine ⟨_, ?_, (follows.project inside).normalize⟩
  simp only [Register.measure, Result.bindOk, Result.pureOk]
  exact ⟨_, axis, v, vector, rfl⟩

theorem step (follows : r.Follows s) {action : Action} (allowed : s.Allows action) :
    ∃ next, r.perform action = .ok next ∧ next.Follows (s.perform action) := by
  cases action with
  | add count => exact follows.add allowed
  | evolve op qubits => exact follows.evolve allowed
  | entangle a b => exact follows.entangle allowed.1 allowed.2.1 allowed.2.2
  | measure q basis one =>
    obtain ⟨has, v, vector, _⟩ := allowed
    simp only [Plain.perform, vector]
    exact follows.measure has vector
  | reorder permutation => exact follows.reorder allowed

theorem run (follows : r.Follows s) {actions : List Action} (allowed : s.AllowsAll actions) :
    ∃ last, actions.foldlM perform r = .ok last ∧ last.Follows (actions.foldl Plain.perform s) := by
  induction actions generalizing r s with
  | nil => exact ⟨r, rfl, follows⟩
  | cons action rest ih =>
    obtain ⟨next, head, follows⟩ := follows.step allowed.1
    obtain ⟨last, tail, follows⟩ := ih follows allowed.2
    refine ⟨last, ?_, follows⟩
    rw [List.foldlM_cons, Result.bindOk]
    exact ⟨next, head, tail⟩

end Follows

/- Along every run from listed amplitudes, the amplitudes of a register with each qubit brought from its
axis to the place of its number are those of the plain run, and mean values are those of the plain state. -/
theorem runsPlainly {n : Nat} {amps : List (Amplitude ℝ)} (whole : amps.length = 2 ^ n)
    {actions : List Action} (allowed : (Plain.ofAmps n amps).AllowsAll actions) :
    ∃ start r t, ofAmps amps = .ok start ∧ actions.foldlM perform start = .ok r ∧
      r.tensor.transpose r.order.axes = .ok t ∧
      t.axes = (actions.foldl Plain.perform (.ofAmps n amps)).qubits ∧
      t.state = (actions.foldl Plain.perform (.ofAmps n amps)).state ∧
      ∀ op qubits, op.Takes t.axes qubits → op.Hermitian → r.expectation op qubits = .ok
        ((State.overlap t.axes t.state (Operator.act op qubits t.state)).re /
          (State.overlap t.axes t.state t.state).re) := by
  obtain ⟨start, built, follows⟩ := followsStart whole
  obtain ⟨r, done, follows⟩ := follows.run allowed
  exact ⟨start, r, r.numbered, built, done, follows.proper.transposed, follows.size, follows.state,
    fun op qubits takes hermitian => follows.proper.expectation takes hermitian⟩

noncomputable def relay : List Action :=
  [.reorder [1, 0], .measure 0 (.axial .z .plus) false, .add 2,
    .evolve (Gate.controlled 4 Gate.xMatrix) [2, 0], .reorder [2, 0, 1], .entangle 0 2]

theorem relayAllowed : (Plain.ofAmps 2 [1, 0, 0, 0]).AllowsAll relay := by
  obtain ⟨v, vector, zero, one⟩ : ∃ v, (Basis.axial .z .plus : Basis ℝ).vector = .ok v ∧
      v.zero.toComplex = 1 ∧ v.one.toComplex = 0 :=
    ⟨_, rfl, by simp, by simp⟩
  have found : (((Plain.ofAmps 2 [1, 0, 0, 0]).reorder [1, 0]).project 0 v).length ≠ 0 := by
    have still : Function.update (Plain.reopened 0 (.ofLabel (Tensor.labelAt 1 0))) 0 false =
        fun _ => false := by
      funext p
      by_cases own : p = 0
      · rw [own, Function.update_self]
      · rw [Function.update_of_ne own]
        simp [Plain.reopened, Labelling.ofLabel, Tensor.labelAt]
    have ground : ((Plain.ofAmps 2 [1, 0, 0, 0]).reorder [1, 0]).state (fun _ => false) = 1 :=
      Amplitude.toComplexOne
    refine Plain.lengthNeZero 0 Nat.two_pos ?_
    show Operator.project 0 v _ (Plain.reopened 0 (.ofLabel (Tensor.labelAt 1 0))) ≠ 0
    rw [Operator.projectApply, still, ground, zero, one]
    simp
  have takes : (Gate.controlled 4 Gate.xMatrix : Matrix ℝ).Takes 3 [2, 0] :=
    { valid := by decide
      once := by decide
      rows := rfl
      cols := rfl
      entries := by simp [Gate.controlled, Matrix.ofFn] }
  have cycle : [2, 0, 1].Perm (QubitOrder.identity 3).axes := by decide
  have swap : [1, 0].Perm (QubitOrder.identity 2).axes := by decide
  have first : (0 : Int) ≤ 0 ∧ (0 : Int) < 2 := by decide
  have ends : ((0 : Int) ≤ 0 ∧ (0 : Int) < 3) ∧ ((0 : Int) ≤ 2 ∧ (2 : Int) < 3) ∧ (0 : Int) ≠ 2 := by decide
  exact ⟨swap, ⟨first, v, vector, found⟩, Int.zero_le_ofNat 2, takes, cycle, ends, trivial⟩

theorem relayRunsPlainly : (Plain.ofAmps 2 [1, 0, 0, 0]).AllowsAll relay ∧
    ∃ start r t, ofAmps [1, 0, 0, 0] = .ok start ∧ relay.foldlM perform start = .ok r ∧
      r.tensor.transpose r.order.axes = .ok t ∧
      t.axes = (relay.foldl Plain.perform (.ofAmps 2 [1, 0, 0, 0])).qubits ∧
      t.state = (relay.foldl Plain.perform (.ofAmps 2 [1, 0, 0, 0])).state ∧
      r.expectation Gate.zMatrix [1] = .ok
        ((State.overlap t.axes t.state (Operator.act Gate.zMatrix [1] t.state)).re /
          (State.overlap t.axes t.state t.state).re) := by
  obtain ⟨start, r, t, built, done, moved, size, state, mean⟩ := runsPlainly (n := 2) rfl relayAllowed
  have takes : (Gate.zMatrix : Matrix ℝ).Takes t.axes [1] := by
    have axes : t.axes = 3 := size
    rw [axes]
    exact { valid := by decide, once := by decide, rows := rfl, cols := rfl, entries := rfl }
  have hermitian : (Gate.zMatrix : Matrix ℝ).Hermitian := by
    intro i row j col
    have row : i < 2 := row
    have col : j < 2 := col
    interval_cases i <;> interval_cases j <;> simp [Gate.zMatrix, Matrix.ofRows, Matrix.entry]
  exact ⟨relayAllowed, start, r, t, built, done, moved, size, state, mean _ _ takes hermitian⟩

end Register
end OneWay
