import Mathlib.Analysis.SpecialFunctions.Complex.Arg
import OneWay.Proofs.Product
import OneWay.Proofs.Refinement

/-! Registers that grow. Adding qubits in several steps is adding them all at once, whatever the register
was. From a register without qubits the outcome is the equal superposition times the one amplitude that was
there, so it is the superposition itself just if this amplitude is one. In a register into which nothing was
put it is zero. -/
namespace OneWay

namespace Tensor
variable {t : Tensor ℝ} {a b : Nat}

theorem extendZero : t.extend 0 = t := by
  refine eqOfGet rfl fun x => Amplitude.toComplexInj ?_
  rw [getExtend, pow_zero, one_mul]

theorem extendExtend : (t.extend a).extend b = t.extend (a + b) := by
  refine eqOfGet (Nat.add_assoc t.axes a b) fun x => Amplitude.toComplexInj ?_
  rw [getExtend, getExtend, getExtend, pow_add]
  ring

end Tensor

namespace QubitOrder
variable {o : QubitOrder} {n : Nat}

theorem addZero : o.add (0 : Nat) = o := by
  simp [add]

theorem Proper.addAdd (proper : o.Proper n) (a b : Nat) : (o.add a).add b = o.add (a + b : Nat) := by
  have same : ((o.add a).add b).axes = (o.add (a + b : Nat)).axes := by
    rw [(proper.add a).addAxes, proper.addAxes, proper.addAxes]
    simp only [Int.toNat_natCast, List.range_add, List.map_append, List.map_map, List.append_assoc]
    congr 2
    refine List.map_congr_left fun k _ => ?_
    simp [add_assoc]
  exact congrArg QubitOrder.mk same

end QubitOrder

namespace Register
variable {r : Register ℝ} {c : Amplitude ℝ}

theorem addOk (r : Register ℝ) (count : Nat) : r.add count = .ok ⟨r.tensor.extend count, r.order.add count⟩ :=
  if_neg (by omega)

theorem addEach (proper : r.Proper) (counts : List Nat) :
    counts.foldlM (fun r (count : Nat) => r.add count) r = r.add counts.sum := by
  induction counts generalizing r with
  | nil =>
    rw [List.foldlM_nil, List.sum_nil, addOk, Tensor.extendZero, QubitOrder.addZero]
    rfl
  | cons count counts ih =>
    rw [List.foldlM_cons, addOk, Result.okBind, ih (proper.add (addOk r count)), addOk, addOk, List.sum_cons,
      Tensor.extendExtend, QubitOrder.Proper.addAdd proper]

def scalar (c : Amplitude ℝ) : Register ℝ := ofTensor (Tensor.ofFn 0 fun _ => c)

theorem scalarAdd {n : Nat} : (scalar c).add n = .ok (ofTensor ((Tensor.ofFn 0 fun _ => c).extend n)) := by
  have axes : ((QubitOrder.identity (0 : Nat)).add n).axes = (QubitOrder.identity (0 + n : Nat)).axes := by
    rw [(QubitOrder.properIdentity 0).addAxes n]
    simp [QubitOrder.identity]
  rw [addOk]
  exact congrArg (fun order => Except.ok (Register.mk _ order)) (congrArg QubitOrder.mk axes)

theorem plusGrown {n : Nat} : plus n = (scalar 1).add n := by
  have equal : (Tensor.ofFn n fun _ => Amplitude.ofReal (Scalar.one / Scalar.sqrt (Scalar.ofNat (Nat.pow 2 n)))) =
      (Tensor.ofFn 0 fun _ => (1 : Amplitude ℝ)).extend n := by
    refine Tensor.eqOfGet (Nat.zero_add n).symm fun x => Amplitude.toComplexInj ?_
    have number : (Scalar.ofNat (Nat.pow 2 n) : ℝ) = 2 ^ n := by
      exact_mod_cast rfl
    have one : (Scalar.one : ℝ) = 1 := Nat.cast_one
    rw [Tensor.getExtend, Tensor.getConst, Tensor.getConst, Amplitude.toComplexOne, Amplitude.toComplexOfReal, number,
      one, Scalar.sqrtReal, Tensor.rootPower, one_div, mul_one, inv_pow, Complex.ofReal_inv, Complex.ofReal_pow]
  rw [scalarAdd, ← equal]
  exact if_neg (by omega)

theorem getGrown {n : Nat} {x : Tensor.Label} : ((Tensor.ofFn 0 fun _ => c).extend n).get x =
    c * ((Tensor.ofFn 0 fun _ => (1 : Amplitude ℝ)).extend n).get x := by
  refine Amplitude.toComplexInj ?_
  rw [Amplitude.toComplexMul, Tensor.getExtend, Tensor.getExtend, Tensor.getConst, Tensor.getConst,
    Amplitude.toComplexOne, mul_one, mul_comm]

theorem grownIff {n : Nat} : (Tensor.ofFn 0 fun _ => c).extend n =
    (Tensor.ofFn 0 fun _ => (1 : Amplitude ℝ)).extend n ↔ c = 1 := by
  constructor
  · intro same
    have first := congrArg (fun t => (t.get fun _ => false).toComplex) same
    simp only [Tensor.getExtend, Tensor.getConst, Amplitude.toComplexOne] at first
    have some : (√2 : ℂ)⁻¹ ^ n ≠ 0 := by simp
    exact Amplitude.toComplexInj ((mul_left_cancel₀ some first).trans Amplitude.toComplexOne.symm)
  · rintro rfl
    rfl

/- Qubits are added in any portions as they are added at once. In a register without qubits they show the
equal superposition times its amplitude. This is the superposition itself for the amplitude one, with which
the superposition of no qubits begins, and for no other: the register into which nothing was put has the
amplitude zero. -/
theorem grownSuperposition (counts : List Nat) :
    (∀ r : Register ℝ, r.Proper → counts.foldlM (fun r (count : Nat) => r.add count) r = r.add counts.sum) ∧
    (plus 0 : Except Fault (Register ℝ)) = .ok (scalar 1) ∧ (blank : Register ℝ) = scalar 0 ∧
    ∀ c, ∃ built whole s p, counts.foldlM (fun r (count : Nat) => r.add count) (scalar c) = .ok built ∧
      plus counts.sum = .ok whole ∧ built.state = .ok s ∧ whole.state = .ok p ∧ s.axes = p.axes ∧
      (∀ x, s.get x = c * p.get x) ∧ (s = p ↔ c = 1) := by
  refine ⟨fun _ proper => addEach proper counts, ?_, rfl, fun c => ?_⟩
  · have none : plus (0 : Nat) = _ := (plusGrown (n := 0)).trans scalarAdd
    rwa [Tensor.extendZero] at none
  · exact ⟨_, _, _, _, (addEach properOfTensor counts).trans scalarAdd, plusGrown.trans scalarAdd, stateOfTensor,
      stateOfTensor, rfl, fun _ => getGrown, grownIff⟩

theorem portionsSuperposed : ∃ (built whole : Register ℝ) (s p : Tensor ℝ),
    [1, 0, 2].foldlM (fun r (count : Nat) => r.add count) (scalar 1) = .ok built ∧ plus 3 = .ok whole ∧
      built.state = .ok s ∧ whole.state = .ok p ∧ s = p := by
  obtain ⟨_, _, _, grown⟩ := grownSuperposition [1, 0, 2]
  obtain ⟨built, whole, s, p, adds, fills, shown, shown', _, _, same⟩ := grown 1
  exact ⟨built, whole, s, p, adds, fills, shown, shown', same.mpr rfl⟩

theorem blankStaysZero : ∃ (built whole : Register ℝ) (s p : Tensor ℝ), blank.add 1 = .ok built ∧
    plus 1 = .ok whole ∧ built.state = .ok s ∧ whole.state = .ok p ∧ (∀ x, s.get x = 0) ∧ s ≠ p := by
  refine ⟨_, _, _, _, scalarAdd (c := 0) (n := 1), (plusGrown (n := 1)).trans scalarAdd, stateOfTensor, stateOfTensor,
    fun x => ?_, fun same => ?_⟩
  · refine Amplitude.toComplexInj ?_
    rw [Tensor.getExtend, Tensor.getConst, Amplitude.toComplexZero, mul_zero]
  · have one := congrArg Amplitude.toComplex (grownIff.mp same)
    rw [Amplitude.toComplexZero, Amplitude.toComplexOne] at one
    exact zero_ne_one one

end Register
end OneWay
