import OneWay.Proofs.Refinement

/-! The norm of a register along every run. Fresh qubits come with the factor that keeps it, operators with
orthonormal columns keep it on whatever axes they act, renumbering leaves the amplitudes alone, and a
measurement divides by what is left. -/
namespace OneWay
open ComplexConjugate

namespace Matrix

structure Unitary (bits : Nat) (op : Matrix ℝ) : Prop where
  rows : op.rows = 2 ^ bits
  cols : op.cols = 2 ^ bits
  entries : op.entries.size = op.rows * op.cols
  columns : ∀ i < op.cols, ∀ j < op.cols, ∑ k ∈ Finset.range op.rows,
    conj (op.entry k i).toComplex * (op.entry k j).toComplex = if i = j then 1 else 0

theorem Unitary.isometry {bits : Nat} {op : Matrix ℝ} (unitary : op.Unitary bits) (v : Nat → ℂ) :
    ∑ k ∈ Finset.range (2 ^ bits),
        Complex.normSq (∑ i ∈ Finset.range (2 ^ bits), (op.entry k i).toComplex * v i) =
      ∑ i ∈ Finset.range (2 ^ bits), Complex.normSq (v i) := by
  have columns (i : Nat) (first : i ∈ Finset.range (2 ^ bits)) (j : Nat)
      (second : j ∈ Finset.range (2 ^ bits)) : ∑ k ∈ Finset.range (2 ^ bits),
        conj (op.entry k i).toComplex * (op.entry k j).toComplex = if i = j then 1 else 0 := by
    have product := unitary.columns i (by rw [unitary.cols]; exact Finset.mem_range.mp first) j
      (by rw [unitary.cols]; exact Finset.mem_range.mp second)
    rwa [unitary.rows] at product
  have square (k : Nat) :
      (Complex.normSq (∑ i ∈ Finset.range (2 ^ bits), (op.entry k i).toComplex * v i) : ℂ) =
        ∑ i ∈ Finset.range (2 ^ bits), ∑ j ∈ Finset.range (2 ^ bits),
          conj (v i) * v j * (conj (op.entry k i).toComplex * (op.entry k j).toComplex) := by
    rw [Complex.normSq_eq_conj_mul_self, map_sum, Finset.sum_mul_sum]
    refine Finset.sum_congr rfl fun i _ => Finset.sum_congr rfl fun j _ => ?_
    rw [map_mul]
    ring
  apply Complex.ofReal_injective
  rw [Complex.ofReal_sum, Complex.ofReal_sum]
  calc ∑ k ∈ Finset.range (2 ^ bits),
        (Complex.normSq (∑ i ∈ Finset.range (2 ^ bits), (op.entry k i).toComplex * v i) : ℂ)
    _ = ∑ i ∈ Finset.range (2 ^ bits), ∑ j ∈ Finset.range (2 ^ bits), conj (v i) * v j *
          ∑ k ∈ Finset.range (2 ^ bits), conj (op.entry k i).toComplex * (op.entry k j).toComplex := by
      simp only [square, Finset.mul_sum]
      rw [Finset.sum_comm]
      exact Finset.sum_congr rfl fun i _ => Finset.sum_comm
    _ = ∑ i ∈ Finset.range (2 ^ bits), (Complex.normSq (v i) : ℂ) := by
      refine Finset.sum_congr rfl fun i first => ?_
      rw [Finset.sum_congr rfl fun j second => by rw [columns i first j second]]
      simp [Complex.normSq_eq_conj_mul_self, List.mem_range.mp first]

theorem unitaryRows {a b c d : Amplitude ℝ}
    (left : conj a.toComplex * a.toComplex + conj c.toComplex * c.toComplex = 1)
    (right : conj b.toComplex * b.toComplex + conj d.toComplex * d.toComplex = 1)
    (across : conj a.toComplex * b.toComplex + conj c.toComplex * d.toComplex = 0) :
    (Matrix.ofRows [[a, b], [c, d]]).Unitary 1 where
  rows := rfl
  cols := rfl
  entries := rfl
  columns i first j second := by
    have back : conj b.toComplex * a.toComplex + conj d.toComplex * c.toComplex = 0 := by
      simpa [mul_comm] using congrArg conj across
    have first : i < 2 := first
    have second : j < 2 := second
    rw [show (Matrix.ofRows [[a, b], [c, d]]).rows = 2 from rfl, Finset.sum_range_succ, Finset.sum_range_one]
    interval_cases i <;> interval_cases j
    · exact left
    · exact across
    · exact back
    · exact right

theorem unitaryZ : (Gate.zMatrix : Matrix ℝ).Unitary 1 := unitaryRows (by simp) (by simp) (by simp)

theorem unitaryControlled {op : Matrix ℝ} (unitary : op.Unitary 1) : (Gate.controlled 4 op).Unitary 2 where
  rows := rfl
  cols := rfl
  entries := by simp [Gate.controlled, Matrix.ofFn]
  columns i first j second := by
    have first : i < 4 := first
    have second : j < 4 := second
    have rows : (Gate.controlled 4 op).rows = 4 := rfl
    have free : 4 - op.rows = 2 := by rw [unitary.rows]; rfl
    have entry {k l : Nat} (row : k < 4) (col : l < 4) : (Gate.controlled 4 op).entry k l =
        if 2 ≤ k ∧ 2 ≤ l then op.entry (k - 2) (l - 2) else if k = l then 1 else 0 := by
      rw [Gate.controlled, Matrix.entryOfFn row col]
      simp only [free]
    have corner (i j : Nat) (first : i < 2) (second : j < 2) : conj (op.entry 0 i).toComplex *
        (op.entry 0 j).toComplex + conj (op.entry 1 i).toComplex * (op.entry 1 j).toComplex =
          if i = j then 1 else 0 := by
      rw [← unitary.columns i (by rwa [unitary.cols]) j (by rwa [unitary.cols]), unitary.rows]
      simp [Finset.sum_range_succ]
    have below := corner (i - 2) (j - 2)
    rw [rows, Finset.sum_congr rfl fun k row => by
      rw [entry (Finset.mem_range.mp row) first, entry (Finset.mem_range.mp row) second]]
    -- outside the lower right corner the columns are those of the identity
    interval_cases i <;> interval_cases j <;> simp [Finset.sum_range_succ] at below ⊢ <;> exact below

end Matrix

namespace Tensor
variable {t : Tensor ℝ} {a b n : Nat} {axes p : List Nat} {x y : Label}

def joinAt (a : Nat) (x y : Label) : Label := fun axis => if axis < a then x axis else y (axis - a)

theorem joinFirst {axis : Nat} (early : axis < a) : joinAt a x y axis = x axis := if_pos early

theorem joinThen {i : Nat} : joinAt a x y (a + i) = y i := by
  rw [joinAt, if_neg (by omega), Nat.add_sub_cancel_left]

theorem sumJoined {f : Label → ℝ} (own : ∀ x y, (∀ axis < a + b, x axis = y axis) → f x = f y) :
    ∑ place ∈ Finset.range (2 ^ (a + b)), f (labelAt (a + b) place) =
      ∑ first ∈ Finset.range (2 ^ a), ∑ rest ∈ Finset.range (2 ^ b),
        f (joinAt a (labelAt a first) (labelAt b rest)) := by
  have inside (n : Nat) (x : Label) : placeOf n x ∈ Finset.range (2 ^ n) := Finset.mem_range.mpr placeLt
  have home (x : Label) (axis : Nat) (here : axis < a + b) : joinAt a (labelAt a (placeOf a x))
      (labelAt b (placeOf b fun i => x (a + i))) axis = x axis := by
    by_cases early : axis < a
    · rw [joinFirst early, labelPlace early]
    · obtain ⟨i, rfl⟩ := Nat.exists_eq_add_of_le (Nat.le_of_not_lt early)
      rw [joinThen, labelPlace (by omega)]
  rw [← Finset.sum_product']
  refine Finset.sum_nbij' (fun place => (placeOf a (labelAt (a + b) place),
      placeOf b fun i => labelAt (a + b) place (a + i)))
    (fun parts => placeOf (a + b) (joinAt a (labelAt a parts.1) (labelAt b parts.2)))
    (fun _ _ => Finset.mem_product.mpr ⟨inside _ _, inside _ _⟩) (fun _ _ => inside _ _)
    (fun place mem => ?_) (fun parts mem => ?_) fun place _ => ?_
  · exact (placeCongr (home _)).trans (placeLabel (Finset.mem_range.mp mem))
  · obtain ⟨first, rest⟩ := Finset.mem_product.mp mem
    refine Prod.ext ?_ ?_
    · refine (placeCongr fun axis early => ?_).trans (placeLabel (Finset.mem_range.mp first))
      rw [labelPlace (by omega), joinFirst early]
    · refine (placeCongr fun i late => ?_).trans (placeLabel (Finset.mem_range.mp rest))
      rw [labelPlace (by omega), joinThen]
  · exact own _ _ fun axis here => (home _ axis here).symm

noncomputable def weight (t : Tensor ℝ) : ℝ :=
  ∑ place ∈ Finset.range (2 ^ t.axes), Complex.normSq (t.get (labelAt t.axes place)).toComplex

theorem overlapWeight : (State.overlap t.axes t.state t.state).re = t.weight := overlapSelf

theorem lengthWeight : t.length = √t.weight := by
  rw [lengthState, overlapWeight]

theorem weightNonneg : 0 ≤ t.weight := Finset.sum_nonneg fun _ _ => Complex.normSq_nonneg _

theorem weightJoined (whole : t.axes = a + b) : t.weight = ∑ first ∈ Finset.range (2 ^ a),
    ∑ rest ∈ Finset.range (2 ^ b), Complex.normSq (t.get (joinAt a (labelAt a first) (labelAt b rest))).toComplex := by
  rw [weight, whole]
  refine sumJoined (f := fun x => Complex.normSq (t.get x).toComplex) fun x y same => ?_
  have read : t.get x = t.get y := getCongr (whole ▸ same)
  rw [read]

theorem weightRelabel (all : Arranged t.axes p) : (t.relabel p.idxOf).weight = t.weight := by
  have same := overlapRelabel (s := t) all rfl
  exact overlapWeight.symm.trans ((congrArg Complex.re same).trans overlapWeight)

theorem weightExtend {count : Nat} : (t.extend count).weight = t.weight := by
  have half : Complex.normSq ((√2 : ℂ)⁻¹ ^ count) = (2 ^ count)⁻¹ := by
    rw [map_pow, map_inv₀, Complex.normSq_ofReal, Real.mul_self_sqrt zero_le_two, inv_pow]
  have axes : (t.extend count).axes = t.axes + count := rfl
  rw [weightJoined axes, weight]
  refine Finset.sum_congr rfl fun first _ => ?_
  have read (rest : Nat) : t.get (joinAt t.axes (labelAt t.axes first) (labelAt count rest)) =
      t.get (labelAt t.axes first) := getCongr fun axis early => joinFirst early
  simp only [getExtend, read, map_mul, half, Finset.sum_const, Finset.card_range, nsmul_eq_mul]
  rw [← mul_assoc, Nat.cast_pow, Nat.cast_ofNat, mul_inv_cancel₀ (by positivity), one_mul]

theorem placeOnFront {place : Nat} (inside : place < 2 ^ a) :
    placeOn (List.range a) (joinAt a (labelAt a place) y) = place := by
  rw [placeOn, List.length_range]
  refine (placeCongr fun axis early => ?_).trans (placeLabel inside)
  rw [List.getD_eq_getElem _ _ (by simpa using early), List.getElem_map, List.getElem_range, joinFirst early]

theorem withBitsFront {place : Nat} :
    withBits (List.range a) place (joinAt a x y) = joinAt a (labelAt a place) y := by
  funext axis
  unfold withBits
  split
  · rename_i i found
    obtain ⟨early, here, _⟩ := List.idxOf?_eq_some_iff.mp found
    rw [List.getElem_range] at here
    rw [List.length_range] at early
    rw [List.length_range, ← here, joinFirst early]
  · rename_i absent
    have late : ¬ axis < a := by simpa using absent
    simp [joinAt, late]

theorem weightFront {op : Matrix ℝ} (few : a ≤ t.axes) (unitary : op.Unitary a) :
    (t.act op (List.range a)).weight = t.weight := by
  obtain ⟨b, whole⟩ := Nat.exists_eq_add_of_le few
  have inside : ∀ axis ∈ List.range a, axis < t.axes := fun axis mem =>
    (List.mem_range.mp mem).trans_le few
  rw [weightJoined (t := t.act op (List.range a)) whole, weightJoined whole, Finset.sum_comm,
    Finset.sum_comm (s := Finset.range (2 ^ a))]
  refine Finset.sum_congr rfl fun rest _ => ?_
  refine Eq.trans (Finset.sum_congr rfl fun first mem => congrArg _ ?_)
    (unitary.isometry fun place => (t.get (joinAt a (labelAt a place) (labelAt b rest))).toComplex)
  rw [getAct inside, sumRange, placeOnFront (Finset.mem_range.mp mem), List.length_range]
  refine Finset.sum_congr rfl fun place _ => ?_
  rw [Amplitude.toComplexMul, withBitsFront, Matrix.entry, unitary.cols]
  rfl

theorem weightAct {op : Matrix ℝ} (inside : ∀ axis ∈ axes, axis < t.axes) (once : axes.Nodup)
    (unitary : op.Unitary axes.length) : (t.act op axes).weight = t.weight := by
  have all := forwardArranged inside once
  have inj (i : Nat) (first : i < t.axes) (j : Nat) (second : j < t.axes)
      (same : (forward t.axes axes).idxOf i = (forward t.axes axes).idxOf j) : i = j := by
    rw [← all.atPlace first, same, all.atPlace second]
  calc (t.act op axes).weight
    _ = ((t.act op axes).relabel (forward t.axes axes).idxOf).weight :=
      (weightRelabel (t := t.act op axes) all).symm
    _ = ((t.relabel (forward t.axes axes).idxOf).act op (List.range axes.length)).weight := by
      rw [relabelAct (fun i => all.placeLt) inj inside, mapForward once]
    _ = (t.relabel (forward t.axes axes).idxOf).weight :=
      weightFront (t := t.relabel (forward t.axes axes).idxOf) (lengthLe inside once) unitary
    _ = t.weight := weightRelabel all

theorem weightNormalize (some : t.length ≠ 0) : t.normalize.weight = 1 := by
  have square : t.length * t.length = t.weight := by
    rw [lengthWeight, Real.mul_self_sqrt weightNonneg]
  have divided : t.normalize.weight = t.weight / (t.length * t.length) := by
    rw [weight, weight, div_eq_mul_inv, Finset.sum_mul]
    refine Finset.sum_congr rfl fun place _ => ?_
    rw [normalize, getDivide, Amplitude.toComplexDiv, Amplitude.toComplexOfReal, map_div₀,
      Complex.normSq_ofReal, div_eq_mul_inv]
    rfl
  rw [divided, ← square, div_self (mul_ne_zero some some)]

theorem lengthNeZero (place : Nat) (inside : place < 2 ^ t.axes)
    (some : (t.get (labelAt t.axes place)).toComplex ≠ 0) : t.length ≠ 0 := by
  rw [lengthState]
  exact Plain.lengthNeZero (s := ⟨t.axes, t.state⟩) place inside some

theorem equalSquare : Complex.normSq
    (Amplitude.ofReal (Scalar.one / Scalar.sqrt (Scalar.ofNat (Nat.pow 2 n))) : Amplitude ℝ).toComplex =
      (2 ^ n)⁻¹ := by
  have number : (Scalar.ofNat (Nat.pow 2 n) : ℝ) = 2 ^ n := by
    exact_mod_cast rfl
  have one : (Scalar.one : ℝ) = 1 := Nat.cast_one
  rw [Amplitude.toComplexOfReal, Complex.normSq_ofReal, number, one, Scalar.sqrtReal, div_mul_div_comm,
    Real.mul_self_sqrt (by positivity), one_mul, one_div]

theorem weightEqual {c : Amplitude ℝ} (equal : Complex.normSq c.toComplex = (2 ^ n)⁻¹) :
    (ofFn n fun _ => c).weight = 1 := by
  have read (place : Nat) : ((ofFn n fun _ => c).get (labelAt n place)) = c := getOfFn fun _ _ => rfl
  have axes : (ofFn n fun _ => c).axes = n := rfl
  simp only [weight, axes, read, equal, Finset.sum_const, Finset.card_range, nsmul_eq_mul]
  rw [Nat.cast_pow, Nat.cast_ofNat, mul_inv_cancel₀ (by positivity)]

end Tensor

theorem Position.indexLt {n i : Nat} {q : Int} (place : index? n q = some i) : i < n := by
  obtain ⟨⟨_, stop⟩, here⟩ := Option.ite_none_right_eq_some.mp place
  have here := Option.some.inj here
  omega

theorem QubitOrder.Proper.axisFound {o : QubitOrder} {n i : Nat} {q : Int} (proper : o.Proper n)
    (place : Position.index? n q = some i) : o.toAxis q = .ok (o.axisAt i : Int) := by
  rw [QubitOrder.toAxis, Position.get, proper.length, place, Option.bind_some,
    proper.getAxis (Position.indexLt place)]

namespace Register
variable {r : Register ℝ} {op : Matrix ℝ} {qubits : List Int}

/- The numbers of different qubits, counted from the front or from the back. -/
def Distinct (n : Nat) (qubits : List Int) : Prop :=
  ∃ places : List Nat, qubits.map (Position.index? n) = places.map some ∧ places.Nodup

theorem Proper.axesNamed (proper : r.Proper) {places : List Nat}
    (named : qubits.map (Position.index? r.size) = places.map some) :
    r.axesOf qubits = .ok (places.map r.order.axisAt) := by
  have each : List.Forall₂ (fun q i => Position.index? r.size q = some i) qubits places :=
    List.forall₂_map_right_iff.mp (List.forall₂_map_left_iff.mp (List.forall₂_eq_eq_eq ▸ named))
  have found : r.order.toAxes qubits = .ok (places.map fun i => (r.order.axisAt i : Int)) :=
    Result.mapMOk.mpr (List.forall₂_map_right_iff.mpr
      (each.imp fun _ _ => QubitOrder.Proper.axisFound proper))
  simp only [Register.axesOf, Result.bindOk, Result.pureOk]
  exact ⟨_, found, by simp [Function.comp_def]⟩

def Allows (r : Register ℝ) : Action → Prop
  | .add count => 0 ≤ count
  | .evolve op qubits => op.Unitary qubits.length ∧ Distinct r.size qubits
  | .entangle a b => Distinct r.size [a, b]
  | .measure qubit basis one => ∃ axis v, r.order.toAxis qubit = .ok axis ∧
      (if one then basis.flip else basis).vector = .ok v ∧ (r.tensor.project axis.toNat v).length ≠ 0
  | .reorder permutation => permutation.Perm (QubitOrder.identity r.size).axes

def AllowsAll : Register ℝ → List Action → Prop
  | _, [] => True
  | r, action :: rest => r.Allows action ∧ ∀ next, r.perform action = .ok next → next.AllowsAll rest

structure Normalized (r : Register ℝ) : Prop where
  proper : r.Proper
  weight : r.tensor.weight = 1

namespace Normalized

theorem norm (normalized : r.Normalized) : r.norm = 1 := by
  rw [Register.norm, Tensor.lengthWeight, normalized.weight, Real.sqrt_one]

theorem plus {n : Int} (some : 0 ≤ n) :
    ∃ start : Register ℝ, Register.plus n = .ok start ∧ start.Normalized := by
  exact ⟨_, if_neg (by omega), QubitOrder.properIdentity n.toNat, Tensor.weightEqual Tensor.equalSquare⟩

theorem evolve (normalized : r.Normalized) (unitary : op.Unitary qubits.length)
    (distinct : Distinct r.size qubits) : ∃ next, r.evolve op qubits = .ok next ∧ next.Normalized := by
  obtain ⟨places, named, once⟩ := distinct
  have order : r.order.Proper r.size := normalized.proper
  have below : ∀ i ∈ places, i < r.size := fun i mem => by
    obtain ⟨q, _, place⟩ := List.mem_map.mp (named ▸ List.mem_map_of_mem mem : some i ∈ qubits.map _)
    exact Position.indexLt place
  have count : qubits.length = places.length := by
    simpa using congrArg List.length named
  have inside : ∀ axis ∈ places.map r.order.axisAt, axis < r.tensor.axes :=
    List.forall_mem_map.mpr fun i mem => order.axisLt (below i mem)
  have apart : (places.map r.order.axisAt).Nodup :=
    once.map_on fun i first j second => (order.axisInj (below i first) (below j second)).mp
  have shape : op.entries.size = Nat.pow 4 (places.map r.order.axisAt).length := by
    rw [List.length_map, ← count, unitary.entries, unitary.rows, unitary.cols, ← mul_pow]
    rfl
  refine ⟨_, evolveOk.mpr ⟨_, normalized.proper.axesNamed named, ⟨shape, apart⟩, _, Tensor.contractBack inside apart, rfl⟩, order, ?_⟩
  exact (Tensor.weightAct inside apart (by rwa [List.length_map, ← count])).trans normalized.weight

theorem step (normalized : r.Normalized) {action : Action} (allowed : r.Allows action) :
    ∃ next, r.perform action = .ok next ∧ next.Normalized := by
  cases action with
  | add count =>
    have allowed : 0 ≤ count := allowed
    have run : r.add count = .ok ⟨r.tensor.extend count.toNat, r.order.add count⟩ := if_neg (by omega)
    exact ⟨_, run, normalized.proper.add run, Tensor.weightExtend.trans normalized.weight⟩
  | evolve op qubits => exact normalized.evolve allowed.1 allowed.2
  | entangle a b => exact normalized.evolve (Matrix.unitaryControlled Matrix.unitaryZ) allowed
  | measure qubit basis one =>
    obtain ⟨axis, v, found, vector, some⟩ := allowed
    have run : r.measure qubit basis one =
        .ok ⟨(r.tensor.project axis.toNat v).normalize, r.order.remove axis⟩ := by
      simp only [Register.measure, Result.bindOk, Result.pureOk]
      exact ⟨axis, found, v, vector, rfl⟩
    exact ⟨_, run, normalized.proper.measure run, Tensor.weightNormalize some⟩
  | reorder permutation =>
    have run := normalized.proper.reorderTotal allowed
    exact ⟨_, run, normalized.proper.reorder allowed run, normalized.weight⟩

theorem run (normalized : r.Normalized) {actions done : List Action} (allowed : r.AllowsAll actions)
    (part : done <+: actions) : ∃ last, done.foldlM perform r = .ok last ∧ last.Normalized := by
  induction actions generalizing r done with
  | nil =>
    cases List.prefix_nil.mp part
    exact ⟨r, rfl, normalized⟩
  | cons action rest ih =>
    cases done with
    | nil => exact ⟨r, rfl, normalized⟩
    | cons first done =>
      obtain ⟨rfl, short⟩ := List.cons_prefix_cons.mp part
      obtain ⟨next, head, normalized⟩ := normalized.step allowed.1
      obtain ⟨last, tail, normalized⟩ := ih normalized (allowed.2 next head) short
      refine ⟨last, ?_, normalized⟩
      rw [List.foldlM_cons, Result.bindOk]
      exact ⟨next, head, tail⟩

end Normalized

theorem normStaysOne {n : Int} (some : 0 ≤ n) {actions : List Action}
    (allowed : ∀ start, plus n = .ok start → start.AllowsAll actions) :
    ∃ start, plus n = .ok start ∧
      ∀ done, done <+: actions → ∃ r, done.foldlM perform start = .ok r ∧ r.norm = 1 := by
  obtain ⟨start, built, normalized⟩ := Normalized.plus some
  refine ⟨start, built, fun done part => ?_⟩
  obtain ⟨r, run, normalized⟩ := normalized.run (allowed start built) part
  exact ⟨r, run, normalized.norm⟩

noncomputable def shuttle : List Action :=
  [.reorder [1, 0], .measure (-1) (.axial .z .plus) false, .add 2, .entangle 0 (-1),
    .evolve (Gate.controlled 4 Gate.xMatrix) [-1, 1], .reorder [2, 0, 1]]

theorem shuttleAllowed : ∀ start : Register ℝ, plus 2 = .ok start → start.AllowsAll shuttle := by
  have flip : (Gate.xMatrix : Matrix ℝ).Unitary 1 := Matrix.unitaryRows (by simp) (by simp) (by simp)
  obtain ⟨v, vector, zero, one⟩ : ∃ v, (Basis.axial .z .plus : Basis ℝ).vector = .ok v ∧
      v.zero.toComplex = 1 ∧ v.one.toComplex = 0 :=
    ⟨_, rfl, by simp, by simp⟩
  intro start built
  cases built
  refine ⟨show List.Perm [1, 0] (QubitOrder.identity 2).axes by decide, fun turned made => ?_⟩
  cases made
  refine ⟨⟨0, v, rfl, vector, ?_⟩, fun left made => ?_⟩
  · have quarter := Tensor.equalSquare (n := 2)
    refine Tensor.lengthNeZero 0 Nat.two_pos ?_
    rw [Tensor.getProject Nat.two_pos, zero, one, map_one, map_zero, one_mul, zero_mul, add_zero]
    refine Complex.normSq_pos.mp ?_
    rw [Register.ofTensor, Tensor.getOfFn fun _ _ => rfl, show (2 : Int).toNat = 2 from rfl, quarter]
    positivity
  cases made
  refine ⟨Int.zero_le_ofNat 2, fun more made => ?_⟩
  cases made
  refine ⟨⟨[0, 2], rfl, by decide⟩, fun next made => ?_⟩
  obtain ⟨axes, _, _, t, back, rfl⟩ := evolveOk.mp made
  have size : t.axes = 3 := Tensor.transposeAxes back
  refine ⟨⟨Matrix.unitaryControlled flip, [2, 1], ?_, by decide⟩, fun next made => ?_⟩
  · rw [Register.size, size]
    rfl
  obtain ⟨axes, _, _, s, back, rfl⟩ := evolveOk.mp made
  have size : s.axes = 3 := (Tensor.transposeAxes back).trans size
  refine ⟨?_, fun _ _ => trivial⟩
  show List.Perm [2, 0, 1] (QubitOrder.identity s.axes).axes
  rw [size]
  decide

theorem shuttleNormStaysOne : (∀ start : Register ℝ, plus 2 = .ok start → start.AllowsAll shuttle) ∧
    ∃ start, plus 2 = .ok start ∧
      ∀ done, done <+: shuttle → ∃ r, done.foldlM perform start = .ok r ∧ r.norm = 1 :=
  ⟨shuttleAllowed, normStaysOne (Int.zero_le_ofNat 2) shuttleAllowed⟩

end Register
end OneWay
