import Mathlib.Analysis.SpecialFunctions.Complex.Arg
import OneWay.LocalUnitary
import OneWay.Proofs.Block
import OneWay.Proofs.Numbered

/-! Euler angles over the exact reals. The angles found for a matrix of determinant one are those of the
matrix itself unless the diagonal of it is zero; then they are those of the transpose. -/
namespace OneWay
open ComplexConjugate

namespace Amplitude
variable {a : Amplitude ℝ}

@[simp] theorem isZeroReal : a.isZero = true ↔ a.toComplex = 0 := by
  rw [isZero, Bool.and_eq_true, Scalar.eqReal, Scalar.eqReal, Scalar.zeroReal, Complex.ext_iff]
  rfl

@[simp] theorem nearZeroReal : a.nearZero = true ↔ a.toComplex = 0 := by
  have size : Scalar.le a.abs Scalar.absTol = true ↔ a.toComplex = 0 := by
    rw [Scalar.leReal]
    show √(a.re * a.re + a.im * a.im) ≤ 0 ↔ _
    rw [(Real.sqrt_nonneg _).ge_iff_eq', Real.sqrt_eq_zero', ← Complex.normSq_eq_zero]
    exact ⟨fun small => le_antisymm small (Complex.normSq_nonneg _), fun zero => zero.le⟩
  rw [nearZero, Bool.or_eq_true, size, isZeroReal, or_self]

theorem sqrtOne : (1 : Amplitude ℝ).sqrt = 1 := by
  have re : (1 : Amplitude ℝ).re = 1 := Nat.cast_one
  have im : (1 : Amplitude ℝ).im = 0 := Nat.cast_zero
  have size : (1 : Amplitude ℝ).abs = 1 := by
    show √((1 : Amplitude ℝ).re * (1 : Amplitude ℝ).re + (1 : Amplitude ℝ).im * (1 : Amplitude ℝ).im) = 1
    rw [re, im]
    simp
  apply toComplexInj
  rw [toComplexOne, sqrt, if_neg (by simp)]
  apply Complex.ext
  · simp [toComplex, re, im, size]
  · simp [toComplex, re, im, size]

end Amplitude

namespace Matrix
variable {m n : Matrix ℝ} {e f : Entries}

structure Shows (m : Matrix ℝ) (e : Entries) : Prop where
  rows : m.rows = 2
  cols : m.cols = 2
  entries : ∀ a b : Bool, (m.entry a.toNat b.toNat).toComplex = e a b

theorem Shows.mul (first : m.Shows e) (second : n.Shows f) : (m * n).Shows (e.after f) where
  rows := first.rows
  cols := second.cols
  entries a b := by
    have row : a.toNat < m.rows := first.rows ▸ Bool.toNat_lt a
    have col : b.toNat < n.cols := second.cols ▸ Bool.toNat_lt b
    have cell : (m * n).entry a.toNat b.toNat =
        sum ((List.range m.cols).map fun k => m.entry a.toNat k * n.entry k b.toNat) := entryOfFn row col
    rw [cell, Tensor.sumRange, first.cols, Finset.sum_range_succ, Finset.sum_range_one,
      Amplitude.toComplexMul, Amplitude.toComplexMul]
    exact congrArg₂ (· + ·) (congrArg₂ (· * ·) (first.entries a false) (second.entries false b))
      (congrArg₂ (· * ·) (first.entries a true) (second.entries true b))

theorem Shows.det (shown : m.Shows e) :
    m.det.toComplex = e false false * e true true - e false true * e true false := by
  have cells := shown.entries
  simp only [Bool.forall_bool, Bool.toNat_false, Bool.toNat_true] at cells
  obtain ⟨⟨low, right⟩, left, high⟩ := cells
  have listed : List.range 2 = [0, 1] := rfl
  rw [Matrix.det, shown.rows, shown.cols, listed]
  simp [expand, sumComplex, shown.rows, low, right, left, high]
  ring

theorem entryMap {i j : Nat} {g : Amplitude ℝ → Amplitude ℝ} (zero : g 0 = 0) :
    (m.map g).entry i j = g (m.entry i j) := by
  simp only [entry, map, Array.getD_eq_getD_getElem?, Array.getElem?_map]
  cases m.entries[i * m.cols + j]? <;> simp [zero]

end Matrix

namespace Entries
variable {m n : Entries} {angle : ℝ}

structure Special (m : Entries) : Prop where
  diagonal : m false false = conj (m true true)
  beside : m false true = -conj (m true false)
  det : m false false * m true true - m false true * m true false = 1

namespace Special

theorem after (first : m.Special) (second : n.Special) : (m.after n).Special where
  diagonal := by
    simp only [Entries.after, first.diagonal, first.beside, second.diagonal, second.beside, map_add, map_mul,
      map_neg, Complex.conj_conj]
    ring
  beside := by
    simp only [Entries.after, first.diagonal, first.beside, second.diagonal, second.beside, map_add, map_mul,
      Complex.conj_conj]
    ring
  det := by
    simp only [Entries.after]
    linear_combination (n false false * n true true - n false true * n true false) * first.det + second.det

theorem ext (first : m.Special) (second : n.Special) (high : m true true = n true true)
    (left : m true false = n true false) : m = n := by
  funext a b
  cases a <;> cases b
  · rw [first.diagonal, second.diagonal, high]
  · rw [first.beside, second.beside, left]
  · exact left
  · exact high

theorem unit (special : m.Special) :
    Complex.normSq (m true true) + Complex.normSq (m true false) = 1 := by
  have det := special.det
  rw [special.diagonal, special.beside, neg_mul, sub_neg_eq_add, ← Complex.normSq_eq_conj_mul_self,
    ← Complex.normSq_eq_conj_mul_self] at det
  exact_mod_cast det

theorem transpose (special : m.Special) (zero : m true true = 0) : Special fun a b => m b a where
  diagonal := special.diagonal
  beside := by rw [special.beside, map_neg, Complex.conj_conj, neg_neg]
  det := by
    have det := special.det
    rw [zero] at det ⊢
    linear_combination det

end Special

theorem expConj : conj (Complex.exp (angle * Complex.I)) = Complex.exp (-angle * Complex.I) := by
  rw [← Complex.exp_conj, map_mul, Complex.conj_ofReal, Complex.conj_I, mul_neg, neg_mul]

theorem expUnit : conj (Complex.exp (angle * Complex.I)) * Complex.exp (angle * Complex.I) = 1 := by
  rw [expConj, ← Complex.exp_add, neg_mul, neg_add_cancel, Complex.exp_zero]

theorem rzSpecial : (mono (rz angle) false).Special where
  diagonal := by simp [mono, rz, ← Complex.exp_conj, map_ofNat]
  beside := by simp [mono]
  det := by
    simp [mono, rz, ← Complex.exp_add]

theorem rxSpecial : (rx angle).Special where
  diagonal := by simp [rx, ← Complex.cos_conj, map_ofNat]
  beside := by simp [rx, ← Complex.sin_conj, map_ofNat]
  det := by
    have circle := Complex.cos_sq_add_sin_sq (angle / 2)
    have square := Complex.I_mul_I
    simp [rx]
    linear_combination circle - Complex.sin (angle / 2) ^ 2 * square

noncomputable def mirrored (m : Entries) : Entries := if m true true = 0 then fun a b => m b a else m

end Entries

namespace LocalUnitary
variable {u : LocalUnitary ℝ} {m : Entries}

noncomputable def entries (u : LocalUnitary ℝ) : Entries :=
  ((Entries.mono (Entries.rz u.gamma) false).after (Entries.rx u.beta)).after
    (Entries.mono (Entries.rz u.alpha) false)

theorem entriesSpecial : u.entries.Special :=
  (Entries.rzSpecial.after Entries.rxSpecial).after Entries.rzSpecial

theorem entriesHigh : u.entries true true =
    Complex.exp (((u.gamma + u.alpha) / 2 : ℝ) * Complex.I) * Complex.cos (u.beta / 2 : ℝ) := by
  have whole : Complex.exp (((u.gamma + u.alpha) / 2 : ℝ) * Complex.I) =
      Entries.rz u.gamma true * Entries.rz u.alpha true := by
    rw [Entries.rz, Entries.rz, ← Complex.exp_add]
    congr 1
    simp
    ring
  rw [whole]
  simp [entries, Entries.after, Entries.mono, Entries.rx]
  ring

theorem entriesLeft : u.entries true false =
    -Complex.I * Complex.sin (u.beta / 2 : ℝ) * Complex.exp (((u.gamma - u.alpha) / 2 : ℝ) * Complex.I) := by
  have whole : Complex.exp (((u.gamma - u.alpha) / 2 : ℝ) * Complex.I) =
      Entries.rz u.gamma true * Entries.rz u.alpha false := by
    rw [Entries.rz, Entries.rz, ← Complex.exp_add]
    congr 1
    simp
    ring
  rw [whole]
  simp [entries, Entries.after, Entries.mono, Entries.rx]
  ring

theorem rzShows {angle : ℝ} : (rz angle).Shows (.mono (Entries.rz angle) false) where
  rows := rfl
  cols := rfl
  entries a b := by
    cases a <;> cases b <;> simp [rz, Matrix.entry, Matrix.ofRows, Entries.mono, Entries.rz, neg_div]

theorem rxShows (angle : ℝ) : ∃ m, rx angle = .ok m ∧ m.Shows (Entries.rx angle) := by
  refine ⟨_, rfl, rfl, rfl, fun a b => ?_⟩
  cases a <;> cases b <;> simp [Matrix.entry, Matrix.ofRows, Entries.rx]

theorem matrixShows : ∃ m, u.matrix = .ok m ∧ m.Shows u.entries := by
  obtain ⟨middle, found, shown⟩ := rxShows u.beta
  refine ⟨rz u.gamma * middle * rz u.alpha, ?_, (rzShows.mul shown).mul rzShows⟩
  rw [matrix, found]
  rfl

inductive Angles (m : Entries) : LocalUnitary ℝ → Prop where
  | diagonal (beside : m true false = 0) :
      Angles m ⟨Scalar.zero, Scalar.zero, Scalar.two * Complex.arg (m true true)⟩
  | beside (diagonal : m true true = 0) (some : m true false ≠ 0) :
      Angles m ⟨Scalar.zero, Scalar.pi, Scalar.two * Complex.arg (m false true / -Complex.I)⟩
  | full {p q c s : ℝ} (high : m true true = c * Complex.exp (Scalar.half p * Complex.I))
      (left : m true false = -Complex.I * s * Complex.exp (Scalar.half q * Complex.I))
      (cosine : c ≠ 0) (sine : s ≠ 0) :
      Angles m ⟨Scalar.half (p - q), Scalar.two * Complex.arg ⟨c, s⟩, Scalar.half (p + q)⟩

theorem unitNorm {z : ℂ} (unit : Complex.normSq z = 1) : ‖z‖ = 1 := by
  rw [Complex.norm_def, unit, Real.sqrt_one]

theorem unitPolar {z : ℂ} (size : ‖z‖ = 1) : Complex.exp (z.arg * Complex.I) = z := by
  have polar := Complex.norm_mul_exp_arg_mul_I z
  rwa [size, Complex.ofReal_one, one_mul] at polar

theorem overRoot {z : ℂ} {p : ℝ} (some : z ≠ 0) (phase : p = Complex.arg (z / conj z)) :
    z = (z / Complex.exp ((Scalar.half p : ℝ) * Complex.I)).re *
      Complex.exp ((Scalar.half p : ℝ) * Complex.I) := by
  have other : conj z ≠ 0 := (map_ne_zero _).mpr some
  have size : ‖z / conj z‖ = 1 := by
    rw [norm_div, Complex.norm_conj, div_self (norm_ne_zero_iff.mpr some)]
  have turned : Complex.exp (p * Complex.I) = z / conj z := by
    rw [phase, unitPolar size]
  have twice : Complex.exp ((Scalar.half p : ℝ) * Complex.I) * Complex.exp ((Scalar.half p : ℝ) * Complex.I) =
      z / conj z := by
    rw [← turned, ← Complex.exp_add, Scalar.halfReal]
    congr 1
    push_cast
    ring
  have root := Complex.exp_ne_zero ((Scalar.half p : ℝ) * Complex.I)
  have real : conj (z / Complex.exp ((Scalar.half p : ℝ) * Complex.I)) =
      z / Complex.exp ((Scalar.half p : ℝ) * Complex.I) := by
    rw [map_div₀, Entries.expConj, neg_mul, Complex.exp_neg, div_inv_eq_mul, eq_div_iff root, mul_assoc, twice,
      mul_div_cancel₀ _ other]
  rw [Complex.conj_eq_iff_re.mp real, div_mul_cancel₀ _ root]

theorem quotientOk {a b : Amplitude ℝ} (some : b.toComplex ≠ 0) : quotient a b = .ok (a / b) := by
  have nonzero : ¬ b.isZero = true := by rwa [Amplitude.isZeroReal]
  rw [quotient, if_neg nonzero]

section
variable {w x y z : Amplitude ℝ}

theorem ofEntriesDiagonal (left : y.toComplex = 0) :
    ofEntries w x y z = .ok ⟨Scalar.zero, Scalar.zero, Scalar.two * Complex.arg z.toComplex⟩ := by
  rw [ofEntries, if_pos (Amplitude.nearZeroReal.mpr left)]
  rfl

theorem ofEntriesBeside (left : y.toComplex ≠ 0) (high : z.toComplex = 0) : ofEntries w x y z =
    .ok ⟨Scalar.zero, Scalar.pi, Scalar.two * Complex.arg (x.toComplex / -Complex.I)⟩ := by
  have far : ¬ y.nearZero = true := by rwa [Amplitude.nearZeroReal]
  have unit : (-Amplitude.unit : Amplitude ℝ).toComplex ≠ 0 := by simp
  rw [ofEntries, if_neg far, if_pos (Amplitude.nearZeroReal.mpr high), quotientOk unit,
    ← Amplitude.toComplexUnit, ← Amplitude.toComplexNeg, ← Amplitude.toComplexDiv]
  rfl

theorem ofEntriesFull (left : y.toComplex ≠ 0) (high : z.toComplex ≠ 0)
    (low : w.toComplex = conj z.toComplex) (right : x.toComplex = -conj y.toComplex) :
    ∃ p q c s : ℝ, z.toComplex = c * Complex.exp (Scalar.half p * Complex.I) ∧
      y.toComplex = -Complex.I * s * Complex.exp (Scalar.half q * Complex.I) ∧
      ofEntries w x y z =
        .ok ⟨Scalar.half (p - q), Scalar.two * Complex.arg ⟨c, s⟩, Scalar.half (p + q)⟩ := by
  have root (t : ℝ) : Complex.exp (t * Complex.I) ≠ 0 := Complex.exp_ne_zero _
  have turn (t : ℝ) : (Amplitude.cis t).toComplex ≠ 0 := by rw [Amplitude.toComplexCis]; exact root t
  have quarter (t : ℝ) : (-Amplitude.unit * Amplitude.cis t : Amplitude ℝ).toComplex ≠ 0 := by
    rw [Amplitude.toComplexMul]
    exact mul_ne_zero (by simp) (turn t)
  have lowSome : w.toComplex ≠ 0 := by rwa [low, map_ne_zero]
  have rightSome : x.toComplex ≠ 0 := by rwa [right, neg_ne_zero, map_ne_zero]
  have far : ¬ y.nearZero = true := by rwa [Amplitude.nearZeroReal]
  have wide : ¬ z.nearZero = true := by rwa [Amplitude.nearZeroReal]
  refine ⟨(z / w).arg, (y / x).arg, (z / Amplitude.cis (Scalar.half (z / w).arg)).re,
    (y / (-Amplitude.unit * Amplitude.cis (Scalar.half (y / x).arg))).re, ?_, ?_, ?_⟩
  · have phase : (z / w).arg = Complex.arg (z.toComplex / conj z.toComplex) := by
      rw [← low, ← Amplitude.toComplexDiv]
      rfl
    have whole := overRoot high phase
    rwa [← Amplitude.toComplexCis, ← Amplitude.toComplexDiv, Amplitude.toComplexCis] at whole
  · -- Turned by a quarter, the entry meets its conjugate and not the negative of it.
    have phase : (y / x).arg =
        Complex.arg (Complex.I * y.toComplex / conj (Complex.I * y.toComplex)) := by
      rw [map_mul, Complex.conj_I, neg_mul, div_neg, mul_div_mul_left _ _ Complex.I_ne_zero, ← div_neg, ← right,
        ← Amplitude.toComplexDiv]
      rfl
    have same : Complex.I * y.toComplex / Complex.exp ((Scalar.half (y / x).arg : ℝ) * Complex.I) =
        (y / (-Amplitude.unit * Amplitude.cis (Scalar.half (y / x).arg))).toComplex := by
      rw [Amplitude.toComplexDiv, Amplitude.toComplexMul, Amplitude.toComplexNeg, Amplitude.toComplexUnit,
        Amplitude.toComplexCis,
        div_eq_div_iff (root _) (mul_ne_zero (neg_ne_zero.mpr Complex.I_ne_zero) (root _))]
      linear_combination -y.toComplex * Complex.exp ((Scalar.half (y / x).arg : ℝ) * Complex.I) *
        Complex.I_mul_I
    have whole := overRoot (mul_ne_zero Complex.I_ne_zero left) phase
    rw [same] at whole
    have scaled : (y / (-Amplitude.unit * Amplitude.cis (Scalar.half (y / x).arg))).toComplex.re =
      (y / (-Amplitude.unit * Amplitude.cis (Scalar.half (y / x).arg))).re := rfl
    rw [scaled] at whole
    linear_combination -Complex.I * whole + y.toComplex * Complex.I_mul_I
  · rw [ofEntries, if_neg far, if_neg wide]
    exact Result.bindOk.mpr ⟨_, quotientOk lowSome, Result.bindOk.mpr ⟨_, quotientOk rightSome,
      Result.bindOk.mpr ⟨_, quotientOk (turn _), Result.bindOk.mpr ⟨_, quotientOk (quarter _), rfl⟩⟩⟩⟩

theorem ofEntriesAngles (special : m.Special) (low : w.toComplex = m false false)
    (right : x.toComplex = m false true) (left : y.toComplex = m true false)
    (high : z.toComplex = m true true) : ∃ u, ofEntries w x y z = .ok u ∧ Angles m u := by
  by_cases beside : m true false = 0
  · refine ⟨_, ofEntriesDiagonal (left.trans beside), ?_⟩
    rw [high]
    exact .diagonal beside
  have leftSome : y.toComplex ≠ 0 := by rwa [left]
  by_cases diagonal : m true true = 0
  · refine ⟨_, ofEntriesBeside leftSome (high.trans diagonal), ?_⟩
    rw [right]
    exact .beside diagonal beside
  have highSome : z.toComplex ≠ 0 := by rwa [high]
  obtain ⟨p, q, c, s, upper, lower, found⟩ := ofEntriesFull leftSome highSome
    (by rw [low, high, special.diagonal]) (by rw [right, left, special.beside])
  rw [high] at upper
  rw [left] at lower
  refine ⟨_, found, .full upper lower ?_ ?_⟩
  · rintro rfl
    exact diagonal (by simpa using upper)
  · rintro rfl
    exact beside (by simpa using lower)

end

theorem ofMatrixRoot {matrix : Matrix ℝ} {root : ℂ} (shown : matrix.Shows m)
    (found : matrix.det.sqrt.toComplex = root) (special : Entries.Special fun a b => m a b / root) :
    ∃ u, ofMatrix matrix = .ok u ∧ Angles (fun a b => m a b / root) u := by
  have none : (0 : Amplitude ℝ) / matrix.det.sqrt = 0 := Amplitude.toComplexInj (by simp)
  have square : ¬ (matrix.rows ≠ matrix.cols ∨ matrix.rows = 0) := by simp [shown.rows, shown.cols]
  have scaled : LocalUnitary.special matrix = .ok (matrix.map (· / matrix.det.sqrt)) := by
    rw [LocalUnitary.special, if_neg square]
  have rows : ¬ (matrix.map (· / matrix.det.sqrt)).rows < 2 := by
    show ¬ matrix.rows < 2
    simp [shown.rows]
  have cell (a b : Bool) :
      ((matrix.map (· / matrix.det.sqrt)).entry a.toNat b.toNat).toComplex = m a b / root := by
    rw [Matrix.entryMap none, Amplitude.toComplexDiv, shown.entries, found]
  obtain ⟨u, decomposed, angles⟩ := ofEntriesAngles special (cell false false) (cell false true)
    (cell true false) (cell true true)
  refine ⟨u, ?_, angles⟩
  rw [ofMatrix, scaled]
  exact Result.refuseIfOk.mpr ⟨rows, decomposed⟩

theorem ofMatrixAngles {matrix : Matrix ℝ} (shown : matrix.Shows m) (special : m.Special) :
    ∃ u, ofMatrix matrix = .ok u ∧ Angles m u := by
  have det : matrix.det = 1 :=
    Amplitude.toComplexInj (by rw [shown.det, special.det, Amplitude.toComplexOne])
  have found : matrix.det.sqrt.toComplex = 1 := by rw [det, Amplitude.sqrtOne, Amplitude.toComplexOne]
  have whole : (fun a b => m a b / 1) = m := funext₂ fun a b => div_one (m a b)
  have angles := ofMatrixRoot shown found (whole.symm ▸ special)
  rwa [whole] at angles

theorem sizeDiagonal (special : m.Special) (beside : m true false = 0) : ‖m true true‖ = 1 :=
  unitNorm (by simpa [beside] using special.unit)

theorem sizeBeside (special : m.Special) (diagonal : m true true = 0) : ‖m false true / -Complex.I‖ = 1 := by
  rw [special.beside, norm_div, norm_neg, norm_neg, Complex.norm_I, div_one, Complex.norm_conj]
  exact unitNorm (by simpa [diagonal] using special.unit)

theorem sizeFull {c s : ℝ} {p q : ℂ} (special : m.Special) (high : m true true = c * p)
    (left : m true false = -Complex.I * s * q) (unit : ‖p‖ = 1) (other : ‖q‖ = 1) : ‖Complex.mk c s‖ = 1 := by
  have whole := special.unit
  rw [high, left, Complex.normSq_mul, Complex.normSq_mul, Complex.normSq_mul, Complex.normSq_neg,
    Complex.normSq_I, Complex.normSq_eq_norm_sq p, Complex.normSq_eq_norm_sq q, unit, other,
    Complex.normSq_ofReal, Complex.normSq_ofReal] at whole
  refine unitNorm ?_
  rw [Complex.normSq_mk]
  linarith

theorem cosCrossed : Complex.cos ((Scalar.pi / 2 : ℝ) : ℂ) = 0 := by
  rw [← Complex.ofReal_cos]
  exact_mod_cast Real.cos_pi_div_two

theorem sinCrossed : Complex.sin ((Scalar.pi / 2 : ℝ) : ℂ) = 1 := by
  rw [← Complex.ofReal_sin]
  exact_mod_cast Real.sin_pi_div_two

theorem Angles.entries (special : m.Special) (angles : Angles m u) : u.entries = m.mirrored := by
  cases angles with
  | diagonal beside =>
    have size := sizeDiagonal special beside
    have some : m true true ≠ 0 := norm_ne_zero_iff.mp (by rw [size]; exact one_ne_zero)
    rw [Entries.mirrored, if_neg some]
    refine entriesSpecial.ext special ?_ ?_
    · have polar := unitPolar size
      rw [entriesHigh]
      simpa using polar
    · rw [entriesLeft, beside]
      simp
  | beside diagonal some =>
    rw [Entries.mirrored, if_pos diagonal]
    refine entriesSpecial.ext (special.transpose diagonal) ?_ ?_
    · rw [entriesHigh, diagonal, cosCrossed, mul_zero]
    · have angle : (Scalar.two * Complex.arg (m false true / -Complex.I) - Scalar.zero : ℝ) / 2 =
          Complex.arg (m false true / -Complex.I) := by
        rw [Scalar.twoReal, Scalar.zeroReal]
        ring
      rw [entriesLeft, sinCrossed, angle, unitPolar (sizeBeside special diagonal), mul_one,
        mul_div_cancel₀ _ (by simp)]
  | @full p q c s high left cosine sine =>
    have some : m true true ≠ 0 := by
      rw [high]
      exact mul_ne_zero (by exact_mod_cast cosine) (Complex.exp_ne_zero _)
    have size : ‖Complex.mk c s‖ = 1 :=
      sizeFull special high left (Complex.norm_exp_ofReal_mul_I _) (Complex.norm_exp_ofReal_mul_I _)
    have point : Complex.mk c s ≠ 0 := norm_ne_zero_iff.mp (by rw [size]; exact one_ne_zero)
    have across := Complex.cos_arg point
    have along := Complex.sin_arg (Complex.mk c s)
    rw [size, div_one] at across along
    have middle : (Scalar.two * Complex.arg ⟨c, s⟩ : ℝ) / 2 = Complex.arg ⟨c, s⟩ := by
      rw [Scalar.twoReal]
      ring
    rw [Entries.mirrored, if_neg some]
    refine entriesSpecial.ext special ?_ ?_
    · have outer : (Scalar.half (p + q) + Scalar.half (p - q) : ℝ) / 2 = Scalar.half p := by
        simp only [Scalar.halfReal]
        ring
      rw [entriesHigh, high, outer, middle, ← Complex.ofReal_cos, across, mul_comm]
    · have outer : (Scalar.half (p + q) - Scalar.half (p - q) : ℝ) / 2 = Scalar.half q := by
        simp only [Scalar.halfReal]
        ring
      rw [entriesLeft, left, outer, middle, ← Complex.ofReal_sin, along]

end LocalUnitary
end OneWay
