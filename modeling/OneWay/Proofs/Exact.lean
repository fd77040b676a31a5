import Mathlib.Analysis.SpecialFunctions.Complex.Arg
import OneWay.Basis

/-! The exact reals as scalars, with all tolerances zero. Over them amplitudes are the complex numbers. -/
namespace OneWay
open ComplexConjugate

noncomputable instance : Scalar ℝ where
  ofNat := Nat.cast
  pi := Real.pi
  sqrt := Real.sqrt
  sin := Real.sin
  cos := Real.cos
  hypot x y := Real.sqrt (x * x + y * y)
  atan2 y x := Complex.arg ⟨x, y⟩
  rem x y := x - y * ⌊x / y⌋
  le x y := decide (x ≤ y)
  finite _ := true
  infinite _ := false
  absTol := 0
  relTol := 0
  angleTol := 0

namespace Scalar

@[simp] theorem zeroReal : (zero : ℝ) = 0 := Nat.cast_zero

@[simp] theorem twoReal : (two : ℝ) = 2 := Nat.cast_ofNat

@[simp] theorem sqrtReal {x : ℝ} : sqrt x = √x := rfl

@[simp] theorem sinReal {x : ℝ} : sin x = Real.sin x := rfl

@[simp] theorem cosReal {x : ℝ} : cos x = Real.cos x := rfl

@[simp] theorem halfReal {x : ℝ} : half x = x / 2 := by
  rw [half, twoReal]

@[simp] theorem leReal {x y : ℝ} : le x y = true ↔ x ≤ y := decide_eq_true_iff

@[simp] theorem eqReal {x y : ℝ} : eq x y = true ↔ x = y := by
  rw [eq, Bool.and_eq_true, leReal, leReal, le_antisymm_iff]

@[simp] theorem absReal {x : ℝ} : abs x = |x| := by
  unfold abs
  split
  · rename_i nonneg
    rw [abs_of_nonneg (by simpa using nonneg)]
  · rename_i neg
    have neg : x < 0 := by simpa using neg
    rw [abs_of_neg neg]

end Scalar

namespace Amplitude

def toComplex (a : Amplitude ℝ) : ℂ := ⟨a.re, a.im⟩

theorem toComplexInj {a b : Amplitude ℝ} (same : a.toComplex = b.toComplex) : a = b := by
  obtain ⟨re, im⟩ := a
  obtain ⟨re', im'⟩ := b
  obtain ⟨rfl, rfl⟩ := Complex.mk.inj same
  rfl

@[simp] theorem toComplexOfReal {x : ℝ} : (ofReal x).toComplex = x := by
  apply Complex.ext
  · rfl
  · exact Nat.cast_zero

@[simp] theorem toComplexZero : (0 : Amplitude ℝ).toComplex = 0 := by
  apply Complex.ext <;> exact Nat.cast_zero

@[simp] theorem toComplexOne : (1 : Amplitude ℝ).toComplex = 1 := by
  apply Complex.ext
  · exact Nat.cast_one
  · exact Nat.cast_zero

@[simp] theorem toComplexUnit : (unit : Amplitude ℝ).toComplex = Complex.I := by
  apply Complex.ext
  · exact Nat.cast_zero
  · exact Nat.cast_one

@[simp] theorem toComplexNeg {a : Amplitude ℝ} : (-a).toComplex = -a.toComplex := rfl

@[simp] theorem toComplexAdd {a b : Amplitude ℝ} : (a + b).toComplex = a.toComplex + b.toComplex := rfl

@[simp] theorem toComplexMul {a b : Amplitude ℝ} : (a * b).toComplex = a.toComplex * b.toComplex := by
  apply Complex.ext
  · rw [Complex.mul_re]
    rfl
  · rw [Complex.mul_im]
    rfl

@[simp] theorem toComplexCis {x : ℝ} : (cis x).toComplex = Complex.exp (x * Complex.I) := by
  apply Complex.ext
  · exact (Complex.exp_ofReal_mul_I_re x).symm
  · exact (Complex.exp_ofReal_mul_I_im x).symm

/- Both ways of scaling a quotient are this one: the second turns both numbers by a quarter first. -/
theorem scaledDiv {a b c d : ℝ} (large : c ≠ 0) :
    Complex.mk ((a + b * (d / c)) / (c + d * (d / c))) ((b - a * (d / c)) / (c + d * (d / c))) =
      Complex.mk a b / Complex.mk c d := by
  have size : c * c + d * d ≠ 0 := by nlinarith [mul_self_pos.mpr large, mul_self_nonneg d]
  have scaled : c + d * (d / c) ≠ 0 := by
    intro zero
    apply size
    field_simp at zero
    linarith
  apply Complex.ext
  · rw [Complex.div_re]
    simp only [Complex.normSq_mk]
    field_simp
  · rw [Complex.div_im]
    simp only [Complex.normSq_mk]
    field_simp

theorem quarterDiv {a b c d : ℝ} :
    Complex.mk b (-a) / Complex.mk d (-c) = Complex.mk a b / Complex.mk c d := by
  have turned : ∀ x y : ℝ, Complex.mk y (-x) * Complex.I = Complex.mk x y := by
    intro x y
    apply Complex.ext <;> simp
  rw [← turned a b, ← turned c d, mul_div_mul_right _ _ Complex.I_ne_zero]

@[simp] theorem toComplexDiv {u v : Amplitude ℝ} : (u / v).toComplex = u.toComplex / v.toComplex := by
  obtain ⟨a, b⟩ := u
  obtain ⟨c, d⟩ := v
  show (div ⟨a, b⟩ ⟨c, d⟩).toComplex = Complex.mk a b / Complex.mk c d
  simp only [div, Scalar.leReal, Scalar.absReal, Scalar.zeroReal, Bool.and_eq_true, Scalar.eqReal]
  split
  · rename_i small
    split
    · rename_i none
      obtain ⟨rfl, rfl⟩ := none
      have zero : Complex.mk 0 0 = 0 := rfl
      rw [zero, div_zero, abs_zero]
      apply Complex.ext <;> exact div_zero _
    · rename_i some
      have large : c ≠ 0 := by
        intro none
        rw [none, abs_zero, abs_nonpos_iff] at small
        exact some ⟨none, small⟩
      exact scaledDiv large
  · rename_i large
    have large : d ≠ 0 := by
      intro none
      rw [none, abs_zero] at large
      exact large (abs_nonneg c)
    rw [← quarterDiv, ← scaledDiv large]
    apply Complex.ext
    · show (a * (c / d) + b) / (c * (c / d) + d) = (b + -a * (-c / d)) / (d + -c * (-c / d))
      ring
    · show (b * (c / d) - a) / (c * (c / d) + d) = (-a - b * (-c / d)) / (d + -c * (-c / d))
      ring

end Amplitude

namespace Basis
open Scalar

theorem vectorAtXy {angle : ℝ} : ∃ k, vectorAt .xy angle = .ok k ∧
    k.zero.toComplex = (√2 : ℂ)⁻¹ ∧ k.one.toComplex = Complex.exp (angle * Complex.I) * (√2 : ℂ)⁻¹ := by
  refine ⟨_, rfl, ?_, ?_⟩
  · rw [Amplitude.toComplexDiv, Amplitude.toComplexOne, Amplitude.toComplexOfReal, twoReal, sqrtReal,
      one_div]
  · rw [Amplitude.toComplexDiv, Amplitude.toComplexCis, Amplitude.toComplexOfReal, twoReal, sqrtReal,
      div_eq_mul_inv]

theorem vectorAtYz {angle : ℝ} : ∃ k, vectorAt .yz angle = .ok k ∧
    k.zero.toComplex = Complex.cos (angle / 2) ∧
      k.one.toComplex = Complex.I * Complex.sin (angle / 2) := by
  refine ⟨_, rfl, ?_, ?_⟩
  · rw [Amplitude.toComplexOfReal, halfReal, cosReal]
    push_cast
    rfl
  · rw [Amplitude.toComplexMul, Amplitude.toComplexUnit, Amplitude.toComplexOfReal, halfReal, sinReal]
    push_cast
    rfl

end Basis
end OneWay
