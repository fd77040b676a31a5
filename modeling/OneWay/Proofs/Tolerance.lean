import Mathlib.Analysis.Real.Pi.Bounds
import Mathlib.Analysis.SpecialFunctions.Complex.Arg
import OneWay.LocalClifford
import OneWay.Proofs.Angle

/-! Angle tests with a tolerance, over the exact reals. They see angles up to whole turns, and two angles in either
order. A Clifford angle stays one with the opposite sign, so that local Cliffords are closed under inverses,
whatever the tolerance. -/
namespace OneWay

namespace Scalar

/- The exact reals, where angles that are up to `t` apart count as one. -/
@[reducible] noncomputable def tolerant (t : ℝ) : Scalar ℝ := { (inferInstance : Scalar ℝ) with angleTol := t }

end Scalar

namespace Angle
variable {x y x' y' t : ℝ}

theorem nearSame (nonneg : 0 ≤ t) (turns : ℤ ≃ ℤ)
    (same : ∀ m : ℤ, |x - y - m * (2 * Real.pi)| = |x' - y' - turns m * (2 * Real.pi)|) :
    near x y t = near x' y' t := by
  rw [Bool.eq_iff_iff, nearIff nonneg, nearIff nonneg]
  exact turns.exists_congr fun m => by rw [same m]

theorem cliffordSame (nonneg : 0 ≤ t) (quarters : ℤ ≃ ℤ)
    (same : ∀ m : ℤ, |x - m * (Real.pi / 2)| = |x' - quarters m * (Real.pi / 2)|) :
    isClifford x t = isClifford x' t := by
  rw [Bool.eq_iff_iff, isCliffordIff nonneg, isCliffordIff nonneg]
  exact quarters.exists_congr fun m => by rw [same m]

theorem nearTurned (nonneg : 0 ≤ t) (k l : ℤ) :
    near (x + k * (2 * Real.pi)) (y + l * (2 * Real.pi)) t = near x y t := by
  refine nearSame nonneg (Equiv.addRight (l - k)) fun m => ?_
  rw [Equiv.coe_addRight]
  congr 1
  push_cast
  ring

theorem nearSwapped (nonneg : 0 ≤ t) : near x y t = near y x t := by
  refine nearSame nonneg (Equiv.neg ℤ) fun m => ?_
  rw [Equiv.neg_apply, ← abs_neg]
  congr 1
  push_cast
  ring

theorem cliffordTurned (nonneg : 0 ≤ t) (k : ℤ) : isClifford (x + k * (2 * Real.pi)) t = isClifford x t := by
  refine cliffordSame nonneg (Equiv.subRight (4 * k)) fun m => ?_
  rw [Equiv.subRight_apply]
  congr 1
  push_cast
  ring

theorem cliffordOpposite (nonneg : 0 ≤ t) : isClifford (-x) t = isClifford x t := by
  refine cliffordSame nonneg (Equiv.neg ℤ) fun m => ?_
  rw [Equiv.neg_apply, ← abs_neg]
  congr 1
  push_cast
  ring

theorem eighthRefused (nonneg : 0 ≤ t) (small : t < Real.pi / 4) : isClifford (Real.pi / 4) t = false := by
  rw [Bool.eq_false_iff, Ne, isCliffordIff nonneg]
  rintro ⟨k, close⟩
  have eighth : 0 < Real.pi / 4 := by positivity
  have odd : (1 : ℝ) ≤ |((1 - 2 * k : ℤ) : ℝ)| := by
    have nonzero : 1 - 2 * k ≠ 0 := by omega
    exact_mod_cast Int.one_le_abs nonzero
  have eighths : Real.pi / 4 - k * (Real.pi / 2) = ((1 - 2 * k : ℤ) : ℝ) * (Real.pi / 4) := by
    push_cast
    ring
  have away : |Real.pi / 4 - k * (Real.pi / 2)| = |((1 - 2 * k : ℤ) : ℝ)| * (Real.pi / 4) := by
    rw [eighths, abs_mul, abs_of_pos eighth]
  have far : Real.pi / 4 ≤ |((1 - 2 * k : ℤ) : ℝ)| * (Real.pi / 4) := le_mul_of_one_le_left eighth.le odd
  linarith

theorem eighthAccepts (large : Real.pi / 4 ≤ t) (x : ℝ) : isClifford x t = true := by
  have quarter : 0 < Real.pi / 2 := by positivity
  refine (isCliffordIff (by linarith [Real.pi_pos])).mpr ⟨round (x / (Real.pi / 2)), ?_⟩
  have counted : x - round (x / (Real.pi / 2)) * (Real.pi / 2) =
      (x / (Real.pi / 2) - round (x / (Real.pi / 2))) * (Real.pi / 2) := by
    rw [sub_mul, div_mul_cancel₀ x quarter.ne']
  calc |x - round (x / (Real.pi / 2)) * (Real.pi / 2)|
      = |x / (Real.pi / 2) - round (x / (Real.pi / 2))| * (Real.pi / 2) := by
        rw [counted, abs_mul, abs_of_pos quarter]
    _ ≤ 1 / 2 * (Real.pi / 2) := mul_le_mul_of_nonneg_right (abs_sub_round _) quarter.le
    _ ≤ t := by linarith

end Angle

namespace LocalClifford
open Scalar
variable {R : Type} [Scalar R] {u : LocalUnitary R} {c : LocalClifford R}

theorem ofUnitaryOk : ofUnitary u = .ok c ↔ c.unitary = u := by
  constructor
  · intro ok
    unfold ofUnitary at ok
    split at ok
    · cases ok
      rfl
    · cases ok
  · rintro rfl
    exact dif_pos c.clifford

theorem acceptedIff : (∃ c, ofUnitary u = .ok c) ↔
    ∀ x ∈ [u.alpha, u.beta, u.gamma], Angle.isClifford x angleTol = true := by
  simp only [ofUnitaryOk, List.forall_mem_cons, List.not_mem_nil, false_imp_iff, implies_true, and_true]
  constructor
  · rintro ⟨c, rfl⟩
    exact c.clifford
  · intro quarters
    exact ⟨⟨u, quarters⟩, rfl⟩

theorem conjugateOk (opposite : ∀ x : R, Angle.isClifford x angleTol = true → Angle.isClifford (-x) angleTol = true)
    (c : LocalClifford R) : ∃ d, c.conjugate = .ok d ∧ d.unitary = c.unitary.conjugate := by
  obtain ⟨alpha, beta, gamma⟩ := c.clifford
  have back : ∃ d, ofUnitary c.unitary.conjugate = .ok d := by
    refine acceptedIff.mpr ?_
    simp only [LocalUnitary.conjugate, List.forall_mem_cons, List.not_mem_nil, false_imp_iff, implies_true, and_true]
    exact ⟨opposite _ gamma, opposite _ beta, opposite _ alpha⟩
  obtain ⟨d, ok⟩ := back
  exact ⟨d, ok, ofUnitaryOk.mp ok⟩

end LocalClifford

namespace Angle
variable {t : ℝ}

/- Two angles are near each other if whole turns bring them within the tolerance, and an angle passes for a
Clifford one if it is within the tolerance of a multiple of a quarter turn; the test refuses some angle if and
only if the tolerance is below an eighth of a turn. Whole turns do not matter to either test, nor the order of the
two angles. A local Clifford is made of any three angles that pass, and then also of the three for its inverse. -/
theorem testedUpToTurns (nonneg : 0 ≤ t) :
    (∀ x y, near x y t = true ↔ ∃ k : ℤ, |x - y - k * (2 * Real.pi)| ≤ t) ∧
    (∀ x, isClifford x t = true ↔ ∃ k : ℤ, |x - k * (Real.pi / 2)| ≤ t) ∧
    ((∃ x, isClifford x t = false) ↔ t < Real.pi / 4) ∧
    (∀ x y, ∀ k l : ℤ, near (x + k * (2 * Real.pi)) (y + l * (2 * Real.pi)) t = near x y t) ∧
    (∀ x, ∀ k : ℤ, isClifford (x + k * (2 * Real.pi)) t = isClifford x t) ∧
    (∀ x y, near x y t = near y x t) ∧
    (∀ u : LocalUnitary ℝ, (∃ c, @LocalClifford.ofUnitary ℝ (.tolerant t) u = .ok c) ↔
      ∀ x ∈ [u.alpha, u.beta, u.gamma], ∃ k : ℤ, |x - k * (Real.pi / 2)| ≤ t) ∧
    letI := Scalar.tolerant t
    ∀ (u : LocalUnitary ℝ) (c : LocalClifford ℝ), LocalClifford.ofUnitary u = .ok c →
      ∃ d, c.conjugate = .ok d ∧ d.unitary = u.conjugate := by
  refine ⟨fun x y => nearIff nonneg, fun x => isCliffordIff nonneg, ⟨?_, fun small => ⟨_, eighthRefused nonneg small⟩⟩,
    fun x y k l => nearTurned nonneg k l, fun x k => cliffordTurned nonneg k, fun x y => nearSwapped nonneg,
    fun u => ?_, fun u c accepted => ?_⟩
  · rintro ⟨x, refused⟩
    by_contra large
    rw [eighthAccepts (not_lt.mp large) x] at refused
    cases refused
  · refine (@LocalClifford.acceptedIff ℝ (.tolerant t) u).trans (forall₂_congr fun x _ => ?_)
    exact isCliffordIff nonneg
  · have opposite : ∀ x, isClifford x t = true → isClifford (-x) t = true :=
      fun x clifford => (cliffordOpposite nonneg).trans clifford
    obtain rfl := (@LocalClifford.ofUnitaryOk ℝ (.tolerant t) u c).mp accepted
    exact @LocalClifford.conjugateOk ℝ (.tolerant t) opposite c

theorem testedAcrossTurn : (0 : ℝ) ≤ 1 / 10 ^ 9 ∧ near (-(1 / 10 ^ 10) : ℝ) (1 / 10 ^ 10) (1 / 10 ^ 9) = true ∧
    near (2 * Real.pi - 1 / 10 ^ 10) (1 / 10 ^ 10) (1 / 10 ^ 9) = true ∧
    (∃ x : ℝ, isClifford x (1 / 10 ^ 9) = false) ∧
    ∃ u : LocalUnitary ℝ, u = ⟨2 * Real.pi - 1 / 10 ^ 10, Real.pi / 2, -(1 / 10 ^ 10)⟩ ∧
      letI := Scalar.tolerant (1 / 10 ^ 9)
      ∃ c d : LocalClifford ℝ, LocalClifford.ofUnitary u = .ok c ∧ c.conjugate = .ok d ∧
        d.unitary = u.conjugate := by
  have nonneg : (0 : ℝ) ≤ 1 / 10 ^ 9 := by positivity
  obtain ⟨nearness, _, refuses, _, _, _, accepted, backwards⟩ := testedUpToTurns nonneg
  have within : |(-(1 / 10 ^ 10) : ℝ)| ≤ 1 / 10 ^ 9 := by norm_num [abs_le]
  have whole : 2 * Real.pi - 1 / 10 ^ 10 - (4 : ℤ) * (Real.pi / 2) = -(1 / 10 ^ 10) := by
    push_cast
    ring
  have quarters : ∀ x ∈ [2 * Real.pi - 1 / 10 ^ 10, Real.pi / 2, -(1 / 10 ^ 10)],
      ∃ k : ℤ, |x - k * (Real.pi / 2)| ≤ 1 / 10 ^ 9 := by
    simp only [List.forall_mem_cons, List.not_mem_nil, false_imp_iff, implies_true, and_true]
    refine ⟨⟨4, by rwa [whole]⟩, ⟨1, ?_⟩, ⟨0, ?_⟩⟩
    · rwa [Int.cast_one, one_mul, sub_self, abs_zero]
    · rwa [Int.cast_zero, zero_mul, sub_zero]
  obtain ⟨c, ok⟩ := (accepted ⟨_, _, _⟩).mpr quarters
  obtain ⟨d, back, same⟩ := backwards _ c ok
  refine ⟨nonneg, (nearness _ _).mpr ⟨0, ?_⟩, (nearness _ _).mpr ⟨1, ?_⟩, refuses.mpr ?_, _, rfl, c, d, ok, back, same⟩
  · norm_num [abs_le]
  · rw [Int.cast_one, one_mul, sub_right_comm, sub_sub_cancel_left]
    norm_num [abs_le]
  · linarith [Real.pi_gt_three]

end Angle
end OneWay
