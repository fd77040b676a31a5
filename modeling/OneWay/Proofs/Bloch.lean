import Mathlib.Analysis.SpecialFunctions.Complex.Arg
import OneWay.Bloch
import OneWay.Proofs.Clifford

/-! Points of the sphere over the exact reals. A vector of length one is the vector of the point found for it, up
to a phase. A point on a meridian at a quarter turn or on the equator has a plane and an angle in it whose vector
is that of the point, and no other point has. -/
namespace OneWay
open ComplexConjugate

namespace Angle
variable {x y : ℝ}

theorem nearPhase :
    near x y Scalar.angleTol = true ↔ Complex.exp (x * Complex.I) = Complex.exp (y * Complex.I) := by
  have none : (Scalar.angleTol : ℝ) = 0 := rfl
  rw [none, nearIff le_rfl, Complex.exp_eq_exp_iff_exists_int]
  refine exists_congr fun k => ?_
  rw [abs_nonpos_iff, sub_eq_zero]
  constructor
  · intro same
    have same : (x : ℂ) - y = k * (2 * Real.pi) := by exact_mod_cast same
    linear_combination Complex.I * same
  · intro same
    have real := congrArg Complex.im same
    simp at real
    linarith

theorem halfClifford : isClifford (Scalar.half x) Scalar.angleTol = true ↔ Complex.exp (x * Complex.I) ^ 2 = 1 := by
  have power : Complex.exp ((x / 2 : ℝ) * Complex.I) ^ 4 = Complex.exp (x * Complex.I) ^ 2 := by
    rw [← halfSquare (x := x), ← pow_mul]
  rw [quarterTurn, Scalar.halfReal, power]

theorem straightPhase : Complex.exp ((Scalar.pi : ℝ) * Complex.I) = -1 := Complex.exp_pi_mul_I

theorem threeQuarterPhase :
    Complex.exp ((Scalar.ofNat 3 * Scalar.pi / Scalar.two : ℝ) * Complex.I) = -Complex.I := by
  have angle : ((Scalar.ofNat 3 * Scalar.pi / Scalar.two : ℝ) : ℂ) * Complex.I =
      Real.pi * Complex.I + Real.pi / 2 * Complex.I := by
    have three : (Scalar.ofNat 3 : ℝ) = 3 := Nat.cast_ofNat
    have straight : (Scalar.pi : ℝ) = Real.pi := rfl
    rw [three, straight, Scalar.twoReal]
    push_cast
    ring
  rw [angle, Complex.exp_add, Complex.exp_pi_mul_I, Complex.exp_pi_div_two_mul_I, neg_one_mul]

end Angle

theorem Basis.vectorAtXz {angle : ℝ} : ∃ k, vectorAt .xz angle = .ok k ∧
    k.zero.toComplex = Complex.cos (angle / 2 : ℝ) ∧ k.one.toComplex = Complex.sin (angle / 2 : ℝ) := by
  refine ⟨_, rfl, ?_, ?_⟩
  · rw [Amplitude.toComplexOfReal, Scalar.halfReal, Scalar.cosReal, Complex.ofReal_cos]
  · rw [Amplitude.toComplexOfReal, Scalar.halfReal, Scalar.sinReal, Complex.ofReal_sin]

namespace Bloch
variable {b : Bloch ℝ}

structure Points (b : Bloch ℝ) (k : Ket ℝ) (f : ℂ) : Prop where
  zero : k.zero.toComplex = f * Complex.cos (b.theta / 2 : ℝ)
  one : k.one.toComplex = f * (Complex.exp (b.phi * Complex.I) * Complex.sin (b.theta / 2 : ℝ))

def Found (b : Bloch ℝ) : Prop := ∃ plane angle k s, b.planar = .ok (plane, angle) ∧
  Basis.vectorAt plane angle = .ok k ∧ b.Points k (sign s)

theorem meridian (plane : Plane) (target : ℝ) (u : ℂ)
    (found : b.planar = .ok (plane, if Angle.near b.phi target Scalar.angleTol then -b.theta else b.theta))
    (vector : ∀ angle : ℝ, ∃ k, Basis.vectorAt plane angle = .ok k ∧
      k.zero.toComplex = Complex.cos (angle / 2 : ℝ) ∧ k.one.toComplex = u * Complex.sin (angle / 2 : ℝ))
    (behind : Complex.exp (target * Complex.I) = -u)
    (side : Complex.exp (b.phi * Complex.I) = u ∨ Complex.exp (b.phi * Complex.I) = -u) : b.Found := by
  by_cases turned : Angle.near b.phi target Scalar.angleTol = true
  · have phase : Complex.exp (b.phi * Complex.I) = -u := (Angle.nearPhase.mp turned).trans behind
    obtain ⟨k, vector, zero, one⟩ := vector (-b.theta)
    rw [if_pos turned] at found
    rw [neg_div, Complex.ofReal_neg, Complex.cos_neg] at zero
    rw [neg_div, Complex.ofReal_neg, Complex.sin_neg] at one
    exact ⟨plane, _, k, false, found, vector, by simp [zero], by simp [one, phase]⟩
  · have phase : Complex.exp (b.phi * Complex.I) = u :=
      side.resolve_right fun is => turned (Angle.nearPhase.mpr (is.trans behind.symm))
    obtain ⟨k, vector, zero, one⟩ := vector b.theta
    rw [if_neg turned] at found
    exact ⟨plane, _, k, false, found, vector, by simp [zero], by simp [one, phase]⟩

theorem meridianFound (quarter : Complex.exp (b.phi * Complex.I) ^ 4 = 1) : b.Found := by
  have clifford : Angle.isClifford b.phi Scalar.angleTol = true := Angle.quarterTurn.mpr quarter
  by_cases even : Complex.exp (b.phi * Complex.I) ^ 2 = 1
  · refine meridian .xz Scalar.pi 1 ?_ (fun angle => ?_) Angle.straightPhase
      (mul_self_eq_one_iff.mp (by rw [← pow_two, even]))
    · rw [planar, if_pos clifford, if_pos (Angle.halfClifford.mpr even)]
    · obtain ⟨k, vector, zero, one⟩ := @Basis.vectorAtXz angle
      exact ⟨k, vector, zero, by rw [one, one_mul]⟩
  · refine meridian .yz (Scalar.ofNat 3 * Scalar.pi / Scalar.two) Complex.I ?_ (fun angle => ?_)
      Angle.threeQuarterPhase ?_
    · rw [planar, if_pos clifford, if_neg (fun half => even (Angle.halfClifford.mp half))]
    · obtain ⟨k, vector, zero, one⟩ := @Basis.vectorAtYz angle
      exact ⟨k, vector, by rw [zero]; push_cast; rfl, by rw [one]; push_cast; rfl⟩
    · rcases fourthRoot quarter with is | is | side
      · exact absurd (by rw [is, one_pow]) even
      · exact absurd (by rw [is, neg_one_sq]) even
      · exact side

theorem equalHalves {angle : ℝ} {r : Bool} (odd : Complex.exp (angle * Complex.I) = sign r * Complex.I) :
    ∃ s : Bool, (√2 : ℂ)⁻¹ = sign s * Complex.cos (angle / 2 : ℝ) ∧
      Complex.sin (angle / 2 : ℝ) = sign r * Complex.cos (angle / 2 : ℝ) := by
  have whole : angle = 2 * (angle / 2) := by ring
  have cosine : 2 * Real.cos (angle / 2) ^ 2 = 1 := by
    have real := congrArg Complex.re odd
    rw [Complex.exp_ofReal_mul_I_re, whole, Real.cos_two_mul] at real
    cases r <;> simp at real <;> linarith
  have sine : sign r = ((2 * Real.sin (angle / 2) * Real.cos (angle / 2) : ℝ) : ℂ) := by
    have imaginary := congrArg Complex.im odd
    rw [Complex.exp_ofReal_mul_I_im, whole, Real.sin_two_mul] at imaginary
    rw [imaginary]
    cases r <;> simp
  rw [← Complex.ofReal_cos, ← Complex.ofReal_sin]
  generalize Real.cos (angle / 2) = x at *
  generalize Real.sin (angle / 2) = y at *
  have square : (√2)⁻¹ ^ 2 = x ^ 2 := by
    rw [inv_pow, Real.sq_sqrt zero_le_two]
    linarith
  have ratio : (y : ℂ) = sign r * x := by
    rw [sine]
    have cosine : 2 * (x : ℂ) ^ 2 = 1 := by exact_mod_cast cosine
    push_cast
    linear_combination -(y : ℂ) * cosine
  rcases sq_eq_sq_iff_eq_or_eq_neg.mp square with same | opposite
  · exact ⟨false, by rw [← Complex.ofReal_inv, same, signFalse, one_mul], ratio⟩
  · exact ⟨true, by rw [← Complex.ofReal_inv, opposite, signTrue, Complex.ofReal_neg, neg_one_mul], ratio⟩

theorem equatorFound (off : Complex.exp (b.phi * Complex.I) ^ 4 ≠ 1)
    (odd : Complex.exp (b.theta * Complex.I) ^ 2 = -1) : b.Found := by
  have clifford : Angle.isClifford b.theta Scalar.angleTol = true :=
    Angle.quarterTurn.mpr (by linear_combination (Complex.exp (b.theta * Complex.I) ^ 2 - 1) * odd)
  have half : Angle.isClifford (Scalar.half b.theta) Scalar.angleTol = false := by
    rw [Bool.eq_false_iff, Ne, Angle.halfClifford, odd]
    norm_num
  have found : b.planar = .ok (.xy, if Angle.near b.theta (Scalar.ofNat 3 * Scalar.pi / Scalar.two) Scalar.angleTol
      then b.phi + Scalar.pi else b.phi) := by
    rw [planar, if_neg (fun quarter => off (Angle.quarterTurn.mp quarter)), if_pos (by rw [clifford, half]; rfl)]
  by_cases turned : Angle.near b.theta (Scalar.ofNat 3 * Scalar.pi / Scalar.two) Scalar.angleTol = true
  · have phase := (Angle.nearPhase.mp turned).trans Angle.threeQuarterPhase
    obtain ⟨s, cosine, sine⟩ := equalHalves (r := true) (by rw [phase, signTrue, neg_one_mul])
    obtain ⟨k, vector, zero, one⟩ := @Basis.vectorAtXy (b.phi + Scalar.pi)
    rw [if_pos turned] at found
    refine ⟨.xy, _, k, s, found, vector, by rw [zero, cosine], ?_⟩
    rw [one, sine, cosine, Complex.ofReal_add, add_mul, Complex.exp_add, Angle.straightPhase, signTrue]
    ring
  · have phase : Complex.exp (b.theta * Complex.I) = Complex.I :=
      (sq_eq_sq_iff_eq_or_eq_neg.mp (odd.trans Complex.I_sq.symm)).resolve_right fun is =>
        turned (Angle.nearPhase.mpr (is.trans Angle.threeQuarterPhase.symm))
    obtain ⟨s, cosine, sine⟩ := equalHalves (r := false) (by rw [phase, signFalse, one_mul])
    obtain ⟨k, vector, zero, one⟩ := @Basis.vectorAtXy b.phi
    rw [if_neg turned] at found
    refine ⟨.xy, _, k, s, found, vector, by rw [zero, cosine], ?_⟩
    rw [one, sine, cosine, signFalse]
    ring

theorem notFound (off : Complex.exp (b.phi * Complex.I) ^ 4 ≠ 1)
    (even : Complex.exp (b.theta * Complex.I) ^ 2 ≠ -1) : b.planar = .error .offPlanes := by
  rw [planar, if_neg (fun quarter => off (Angle.quarterTurn.mp quarter)), if_neg]
  simp only [Bool.and_eq_true, Bool.not_eq_true', not_and, Bool.not_eq_false]
  intro quarter
  have whole := Angle.quarterTurn.mp quarter
  exact Angle.halfClifford.mpr ((mul_self_eq_one_iff.mp (by rw [← whole]; ring)).resolve_right even)

theorem overPhase {z : ℂ} : z / Complex.exp (Complex.arg z * Complex.I) = ‖z‖ :=
  (eq_div_of_mul_eq (Complex.exp_ne_zero _) (Complex.norm_mul_exp_arg_mul_I z)).symm

/- Zero has no phase, and is given the angle zero. -/
theorem phaseAngle (v : Amplitude ℝ) : ∃ phi : ℝ, (if v.nearZero then Scalar.zero else v.arg) = phi ∧
    v.toComplex / Complex.exp (phi * Complex.I) = ‖v.toComplex‖ ∧ (v.toComplex = 0 → phi = 0) := by
  by_cases none : v.toComplex = 0
  · refine ⟨_, if_pos (Amplitude.nearZeroReal.mpr none), ?_, fun _ => Scalar.zeroReal⟩
    rw [none, norm_zero, zero_div, Complex.ofReal_zero]
  · exact ⟨_, if_neg (fun zero => none (Amplitude.nearZeroReal.mp zero)), overPhase, fun zero => absurd zero none⟩

variable {w : Ket ℝ}

theorem ofKetPole (pole : w.zero.toComplex = 0) : ofKet w = ⟨Scalar.pi, Complex.arg w.one.toComplex⟩ :=
  if_pos (Amplitude.nearZeroReal.mpr pole)

theorem ofKetAway (away : w.zero.toComplex ≠ 0) : ∃ phi : ℝ,
    ofKet w = ⟨Scalar.two * Complex.arg ⟨‖w.zero.toComplex‖, ‖w.one.toComplex‖⟩, phi⟩ ∧
      w.one.toComplex = Complex.exp (Complex.arg w.zero.toComplex * Complex.I) *
        (Complex.exp (phi * Complex.I) * ‖w.one.toComplex‖) ∧ (w.one.toComplex = 0 → phi = 0) := by
  have first : (w.zero / Amplitude.cis w.zero.arg).toComplex = ‖w.zero.toComplex‖ := by
    rw [Amplitude.toComplexDiv, Amplitude.toComplexCis]
    exact overPhase
  have second : (w.one / Amplitude.cis w.zero.arg).toComplex =
      w.one.toComplex / Complex.exp (Complex.arg w.zero.toComplex * Complex.I) := by
    rw [Amplitude.toComplexDiv, Amplitude.toComplexCis]
    rfl
  obtain ⟨phi, chosen, rest, top⟩ := phaseAngle (w.one / Amplitude.cis w.zero.arg)
  have point : ofKet w = ⟨Scalar.two * Scalar.atan2 (w.one / Amplitude.cis w.zero.arg / Amplitude.cis phi).re
      (w.zero / Amplitude.cis w.zero.arg).re, phi⟩ := by
    rw [ofKet, if_neg (fun zero => away (Amplitude.nearZeroReal.mp zero))]
    simp only [chosen]
  have third : (w.one / Amplitude.cis w.zero.arg / Amplitude.cis phi).toComplex = ‖w.one.toComplex‖ := by
    rw [Amplitude.toComplexDiv, Amplitude.toComplexCis, rest, second, norm_div, Complex.norm_exp_ofReal_mul_I,
      div_one]
  have cosine : (w.zero / Amplitude.cis w.zero.arg).re = ‖w.zero.toComplex‖ := congrArg Complex.re first
  have sine : (w.one / Amplitude.cis w.zero.arg / Amplitude.cis phi).re = ‖w.one.toComplex‖ :=
    congrArg Complex.re third
  refine ⟨phi, ?_, ?_, fun none => top (by rw [second, none, zero_div])⟩
  · rw [point, cosine, sine]
    rfl
  · rw [← third, Amplitude.toComplexDiv, Amplitude.toComplexCis, mul_div_cancel₀ _ (Complex.exp_ne_zero _), second,
      mul_div_cancel₀ _ (Complex.exp_ne_zero _)]

theorem poleSize (unit : ‖w.zero.toComplex‖ ^ 2 + ‖w.one.toComplex‖ ^ 2 = 1) (pole : w.zero.toComplex = 0) :
    ‖w.one.toComplex‖ = 1 := by
  rw [pole, norm_zero] at unit
  have square : ‖w.one.toComplex‖ ^ 2 = 1 := by linarith
  exact (pow_eq_one_iff_of_nonneg (norm_nonneg _) two_ne_zero).mp square

theorem ofKetPoints (unit : ‖w.zero.toComplex‖ ^ 2 + ‖w.one.toComplex‖ ^ 2 = 1) :
    ∃ x : ℝ, (ofKet w).Points w (Complex.exp (x * Complex.I)) := by
  by_cases pole : w.zero.toComplex = 0
  · rw [ofKetPole pole]
    refine ⟨0, ?_, ?_⟩
    · rw [pole, LocalUnitary.cosCrossed, mul_zero]
    · rw [LocalUnitary.sinCrossed, LocalUnitary.unitPolar (poleSize unit pole)]
      simp
  · obtain ⟨phi, point, one, _⟩ := ofKetAway pole
    have size : ‖Complex.mk ‖w.zero.toComplex‖ ‖w.one.toComplex‖‖ = 1 := by
      refine LocalUnitary.unitNorm ?_
      rw [Complex.normSq_mk]
      linarith
    have halved : Scalar.two * Complex.arg ⟨‖w.zero.toComplex‖, ‖w.one.toComplex‖⟩ / 2 =
        Complex.arg ⟨‖w.zero.toComplex‖, ‖w.one.toComplex‖⟩ := by
      rw [Scalar.twoReal]
      ring
    have whole := LocalUnitary.unitPolar size
    rw [point]
    refine ⟨Complex.arg w.zero.toComplex, ?_, ?_⟩
    · have cosine := congrArg Complex.re whole
      rw [Complex.exp_ofReal_mul_I_re] at cosine
      rw [halved, ← Complex.ofReal_cos, cosine, mul_comm]
      exact (Complex.norm_mul_exp_arg_mul_I _).symm
    · have sine := congrArg Complex.im whole
      rw [Complex.exp_ofReal_mul_I_im] at sine
      rw [halved, ← Complex.ofReal_sin, sine]
      exact one

end Bloch

end OneWay
