import Mathlib.Analysis.SpecialFunctions.Complex.Arg
import OneWay.Proofs.LocalProduct
import OneWay.Proofs.Normalization

/-! Euler angles of every unitary of one qubit. Divided by a root of its determinant it has determinant
one, whatever its phase, so the angles are found and rebuild it up to a phase. The exception is a zero
diagonal: the matrix comes back transposed, which is more than a phase where it is skew. -/
namespace OneWay
open ComplexConjugate

namespace Amplitude
variable {a : Amplitude ℝ} {large small : ℝ}

theorem rootParts (some : a.toComplex ≠ 0) (found : large = √((|a.re| + a.abs) / 2))
    (rest : small = |a.im| / (2 * large)) :
    large * large - small * small = |a.re| ∧ 2 * large * small = |a.im| := by
  have length : a.abs = ‖a.toComplex‖ := by
    rw [Complex.norm_def, Complex.normSq_apply]
    rfl
  have squares : a.abs * a.abs = a.re * a.re + a.im * a.im := by
    rw [length, ← sq, ← Complex.normSq_eq_norm_sq, Complex.normSq_apply]
    rfl
  have positive : 0 < a.abs := length ▸ norm_pos_iff.mpr some
  have inside : 0 < (|a.re| + a.abs) / 2 := by positivity
  have outer : 0 < large := found ▸ Real.sqrt_pos.mpr inside
  have square : large * large = (|a.re| + a.abs) / 2 := by
    rw [found]
    exact Real.mul_self_sqrt inside.le
  have whole : 2 * large * small = |a.im| := by
    rw [rest]
    field_simp
  refine ⟨?_, whole⟩
  have product : 4 * (large * large) * (small * small) = a.im * a.im := by
    rw [← abs_mul_abs_self a.im, ← whole]
    ring
  have inner : 2 * (|a.re| + a.abs) * (small * small) = (|a.re| + a.abs) * (a.abs - |a.re|) := by
    rw [square] at product
    linarith [abs_mul_abs_self a.re]
  have parts := mul_left_cancel₀ (by positivity : |a.re| + a.abs ≠ 0)
    (by linarith : (|a.re| + a.abs) * (2 * (small * small)) = (|a.re| + a.abs) * (a.abs - |a.re|))
  linarith

theorem sqrtSquare : a.sqrt.toComplex * a.sqrt.toComplex = a.toComplex := by
  by_cases none : a.toComplex = 0
  · rw [sqrt, if_pos (isZeroReal.mpr none), none, toComplexZero, mul_zero]
  have square {x y : ℝ} (re : x * x - y * y = a.re) (im : 2 * x * y = a.im) :
      toComplex ⟨x, y⟩ * toComplex ⟨x, y⟩ = a.toComplex := by
    refine Complex.ext ((Complex.mul_re _ _).trans re) ((Complex.mul_im _ _).trans ?_)
    show x * y + y * x = a.im
    linarith
  obtain ⟨apart, twice⟩ := rootParts none rfl rfl
  rw [sqrt, if_neg fun zero => none (isZeroReal.mp zero)]
  simp only [Scalar.leReal, Scalar.absReal, Scalar.zeroReal, Scalar.twoReal, Scalar.sqrtReal]
  generalize |a.im| / (2 * √((|a.re| + a.abs) / 2)) = small at apart twice ⊢
  generalize √((|a.re| + a.abs) / 2) = large at apart twice ⊢
  split
  · rename_i right
    rw [abs_of_nonneg right] at apart
    split
    · rename_i above
      rw [abs_of_nonneg above] at twice
      exact square apart twice
    · rename_i below
      rw [abs_of_neg (not_le.mp below)] at twice
      exact square (by linarith) (by linarith)
  · rename_i left
    rw [abs_of_neg (not_le.mp left)] at apart
    split
    · rename_i above
      rw [abs_of_nonneg above] at twice
      exact square (by linarith) (by linarith)
    · rename_i below
      rw [abs_of_neg (not_le.mp below)] at twice
      exact square (by linarith) (by linarith)

end Amplitude

namespace Entries
variable {m n : Entries} {root : ℂ}

structure Orthonormal (m : Entries) : Prop where
  first : conj (m false false) * m false false + conj (m true false) * m true false = 1
  second : conj (m false true) * m false true + conj (m true true) * m true true = 1
  across : conj (m false false) * m false true + conj (m true false) * m true true = 0

namespace Orthonormal
variable (orthonormal : m.Orthonormal)
include orthonormal

theorem back : m false false * conj (m false true) + m true false * conj (m true true) = 0 := by
  have across := congrArg conj orthonormal.across
  simpa using across

theorem low : m false false =
    (m false false * m true true - m false true * m true false) * conj (m true true) := by
  linear_combination -m false false * orthonormal.second + m false true * orthonormal.back

theorem right : m false true =
    -((m false false * m true true - m false true * m true false) * conj (m true false)) := by
  linear_combination -m false true * orthonormal.first + m false false * orthonormal.across

theorem det : (m false false * m true true - m false true * m true false) *
    conj (m false false * m true true - m false true * m true false) = 1 := by
  rw [map_sub, map_mul, map_mul]
  linear_combination (conj (m false true) * m false true + conj (m true true) * m true true) * orthonormal.first +
    orthonormal.second - (conj (m false true) * m false false + conj (m true true) * m true false) *
      orthonormal.across

theorem rootUnit (square : root * root = m false false * m true true - m false true * m true false) :
    root * conj root = 1 := by
  have det := orthonormal.det
  rw [← square, map_mul, mul_mul_mul_comm, Complex.mul_conj] at det
  have twice : Complex.normSq root * Complex.normSq root = 1 := by exact_mod_cast det
  have once : Complex.normSq root = 1 := by nlinarith [Complex.normSq_nonneg root]
  rw [Complex.mul_conj, once, Complex.ofReal_one]

theorem special (square : root * root = m false false * m true true - m false true * m true false) :
    Special fun a b => m a b / root := by
  have unit := orthonormal.rootUnit square
  have some : root ≠ 0 := left_ne_zero_of_mul_eq_one unit
  have other : conj root ≠ 0 := right_ne_zero_of_mul_eq_one unit
  refine ⟨?_, ?_, ?_⟩
  · rw [map_div₀, div_eq_div_iff some other]
    have low := orthonormal.low
    rw [← square] at low
    linear_combination conj root * low + root * conj (m true true) * unit
  · rw [map_div₀, ← neg_div, div_eq_div_iff some other]
    have right := orthonormal.right
    rw [← square] at right
    linear_combination conj root * right - root * conj (m true false) * unit
  · rw [div_mul_div_comm, div_mul_div_comm, ← sub_div, ← square, div_self (mul_ne_zero some some)]

theorem alike (square : root * root = m false false * m true true - m false true * m true false) :
    Alike (fun a b => m a b / root) m := by
  have unit := orthonormal.rootUnit square
  have some : root ≠ 0 := left_ne_zero_of_mul_eq_one unit
  have size : ‖root⁻¹‖ = 1 := by
    refine LocalUnitary.unitNorm ?_
    rw [Complex.mul_conj] at unit
    rw [Complex.normSq_inv, Complex.ofReal_eq_one.mp unit, inv_one]
  refine ⟨root⁻¹.arg, fun a b => ?_⟩
  rw [LocalUnitary.unitPolar size]
  exact div_eq_inv_mul _ _

end Orthonormal

theorem Alike.skewIff (alike : m.Alike n) : m.Skew ↔ n.Skew := by
  obtain ⟨angle, same⟩ := alike
  have phase := Complex.exp_ne_zero (angle * Complex.I)
  have square (x : ℂ) : Complex.exp (angle * Complex.I) * x * (Complex.exp (angle * Complex.I) * x) =
      Complex.exp (angle * Complex.I) * Complex.exp (angle * Complex.I) * (x * x) := mul_mul_mul_comm _ _ _ _
  simp only [Skew, same, mul_eq_zero, phase, false_or, square, ne_eq, mul_right_inj' (mul_ne_zero phase phase)]

theorem Orthonormal.mirroredAlike (orthonormal : m.Orthonormal)
    (square : root * root = m false false * m true true - m false true * m true false) :
    m.mirrored.Alike m ↔ ¬ m.Skew := by
  have alike := orthonormal.alike square
  rw [← alike.skewIff, ← Entries.mirroredAlike (orthonormal.special square)]
  exact ⟨fun same => alike.mirrored.trans (same.trans alike.symm),
    fun same => alike.mirrored.symm.trans (same.trans alike)⟩

end Entries

namespace Matrix
variable {m : Matrix ℝ}

theorem Unitary.shows (unitary : m.Unitary 1) : ∃ e, m.Shows e ∧ e.Orthonormal := by
  have rows : m.rows = 2 := unitary.rows
  have cols : m.cols = 2 := unitary.cols
  have column (i j : Nat) (left : i < 2) (right : j < 2) := unitary.columns i (cols ▸ left) j (cols ▸ right)
  simp only [rows, Finset.sum_range_succ, Finset.sum_range_zero, zero_add] at column
  exact ⟨fun a b => (m.entry a.toNat b.toNat).toComplex, ⟨rows, cols, fun _ _ => rfl⟩,
    column 0 0 (by omega) (by omega), column 1 1 (by omega) (by omega), column 0 1 (by omega) (by omega)⟩

theorem Shows.transpose {e : Entries} (shown : m.Shows e) :
    (Matrix.ofFn 2 2 fun i j => m.entry j i).Shows fun a b => e b a where
  rows := rfl
  cols := rfl
  entries a b := by rw [entryOfFn (Bool.toNat_lt a) (Bool.toNat_lt b), shown.entries]

end Matrix

namespace LocalUnitary
variable {m : Matrix ℝ} {e : Entries}

theorem rebuiltMirrored (shown : m.Shows e) (orthonormal : e.Orthonormal) :
    ∃ u r f, ofMatrix m = .ok u ∧ u.matrix = .ok r ∧ r.Shows f ∧ f.Alike e.mirrored := by
  have square := (Amplitude.sqrtSquare (a := m.det)).trans shown.det
  have special := orthonormal.special square
  obtain ⟨u, decomposed, angles⟩ := ofMatrixRoot shown rfl special
  obtain ⟨r, rebuilt, shown'⟩ := matrixShows (u := u)
  refine ⟨u, r, _, decomposed, rebuilt, shown', ?_⟩
  rw [angles.entries special]
  exact (orthonormal.alike square).mirrored

theorem rebuiltIff {r : Matrix ℝ} {f : Entries} (shown : m.Shows e) (orthonormal : e.Orthonormal)
    (shown' : r.Shows f) (mirrored : f.Alike e.mirrored) : r.Alike m ↔ ¬ m.Skew := by
  have square := (Amplitude.sqrtSquare (a := m.det)).trans shown.det
  rw [shown'.alikeIff shown, shown.skewIff, ← orthonormal.mirroredAlike square]
  exact ⟨mirrored.symm.trans, mirrored.trans⟩

/- The angles of a unitary are always found. They rebuild it up to phase if and only if it is not skew,
and otherwise its transpose. -/
theorem unitaryRebuilt (unitary : m.Unitary 1) : ∃ u r, ofMatrix m = .ok u ∧ u.matrix = .ok r ∧
    (r.Alike m ↔ ¬ m.Skew) ∧ (m.Skew → r.Alike (.ofFn 2 2 fun i j => m.entry j i)) := by
  obtain ⟨e, shown, orthonormal⟩ := unitary.shows
  obtain ⟨u, r, f, decomposed, rebuilt, shown', mirrored⟩ := rebuiltMirrored shown orthonormal
  refine ⟨u, r, decomposed, rebuilt, rebuiltIff shown orthonormal shown' mirrored, fun skew => ?_⟩
  rw [shown'.alikeIff shown.transpose]
  rwa [Entries.mirrored, if_pos (shown.skewIff.mp skew).1] at mirrored

theorem yRebuilt : (Gate.y 0 : Gate ℝ).matrix.Unitary 1 ∧ ∃ u r, ofMatrix (Gate.y 0 : Gate ℝ).matrix = .ok u ∧
    u.matrix = .ok r ∧ r.Alike (Gate.y 0 : Gate ℝ).matrix := by
  have unitary : (Gate.y 0 : Gate ℝ).matrix.Unitary 1 :=
    Matrix.unitaryRows (by simp) (by simp) (by simp)
  have even : ¬ (Gate.y 0 : Gate ℝ).matrix.Skew := by
    simp [Matrix.Skew, Gate.matrix, Matrix.entry, Matrix.ofRows]
  obtain ⟨u, r, decomposed, rebuilt, iff, _⟩ := unitaryRebuilt unitary
  exact ⟨unitary, u, r, decomposed, rebuilt, iff.mpr even⟩

noncomputable def hook : Matrix ℝ := .ofRows [[0, -Amplitude.unit], [1, 0]]

theorem hookTransposed : hook.Unitary 1 ∧ ∃ u r, ofMatrix hook = .ok u ∧ u.matrix = .ok r ∧ ¬ r.Alike hook := by
  have unitary : hook.Unitary 1 := Matrix.unitaryRows (by simp) (by simp) (by simp)
  have skew : hook.Skew := by
    simp [Matrix.Skew, hook, Matrix.entry, Matrix.ofRows]
    norm_num
  obtain ⟨e, shown, orthonormal⟩ := unitary.shows
  obtain ⟨u, r, f, decomposed, rebuilt, shown', mirrored⟩ := rebuiltMirrored shown orthonormal
  refine ⟨unitary, u, r, decomposed, rebuilt, ?_⟩
  rw [rebuiltIff shown orthonormal shown' mirrored]
  exact not_not.mpr skew

end LocalUnitary
end OneWay
