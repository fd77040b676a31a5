import Mathlib.Analysis.SpecialFunctions.Complex.Arg
import OneWay.Proofs.Bloch
import OneWay.Proofs.LocalProduct

/-! The image of a measurement basis under a Clifford. In the vector of a basis the Pauli matrix across its plane
has mean zero. In the image some Pauli matrix has mean zero too, and so the image lies on one of the planes. The
basis found for it has the image for its vector, up to a phase. The south pole is the exception: there the phase
of the amplitude is taken for an angle along the equator, and a plane is found only if this is a quarter turn. -/
namespace OneWay
open ComplexConjugate

noncomputable def Ket.amplitudes (k : Ket ℝ) (bit : Bool) : ℂ := (k.component bit).toComplex

@[simp] theorem Ket.amplitudesFalse {k : Ket ℝ} : k.amplitudes false = k.zero.toComplex := rfl

@[simp] theorem Ket.amplitudesTrue {k : Ket ℝ} : k.amplitudes true = k.one.toComplex := rfl

namespace Entries
variable {m : Entries} {ψ χ : Bool → ℂ}

noncomputable def inner (ψ χ : Bool → ℂ) : ℂ := conj (ψ false) * χ false + conj (ψ true) * χ true

theorem Special.innerKept (special : m.Special) : inner (m.on ψ) (m.on χ) = inner ψ χ := by
  have det := special.det
  simp only [inner, on, special.diagonal, special.beside, map_add, map_mul, map_neg, Complex.conj_conj] at det ⊢
  linear_combination (conj (ψ false) * χ false + conj (ψ true) * χ true) * det

def Balanced (p : Pauli) (ψ : Bool → ℂ) : Prop := inner ψ (p.entries.on ψ) = 0

theorem balancedX : Balanced .x ψ ↔ conj (ψ false) * ψ true = -(conj (ψ true) * ψ false) := by
  simp [Balanced, inner, on, Pauli.entries, mono, eq_neg_iff_add_eq_zero]

theorem balancedY : Balanced .y ψ ↔ conj (ψ false) * ψ true = conj (ψ true) * ψ false := by
  have mean : inner ψ (Pauli.y.entries.on ψ) =
      -Complex.I * (conj (ψ false) * ψ true - conj (ψ true) * ψ false) := by
    simp [inner, on, Pauli.entries, mono]
    ring
  rw [Balanced, mean, mul_eq_zero, or_iff_right (neg_ne_zero.mpr Complex.I_ne_zero), sub_eq_zero]

theorem balancedZ : Balanced .z ψ ↔ conj (ψ false) * ψ false = conj (ψ true) * ψ true := by
  simp [Balanced, inner, on, Pauli.entries, mono, ← sub_eq_add_neg, sub_eq_zero]

theorem Clifford.balanced {p : Pauli} (clifford : m.Clifford) (special : m.Special) (balanced : Balanced p ψ) :
    ∃ q, Balanced q (m.on ψ) := by
  obtain ⟨q, s, turned⟩ := clifford p
  refine ⟨q, ?_⟩
  have moved : m.on (p.entries.on ψ) = sign s • q.entries.on (m.on ψ) := by
    rw [← onAfter, turned, onScaled, onAfter]
  have mean : sign s * inner (m.on ψ) (q.entries.on (m.on ψ)) = inner (m.on ψ) (m.on (p.entries.on ψ)) := by
    rw [moved]
    simp only [inner, Pi.smul_apply, smul_eq_mul]
    ring
  rw [special.innerKept, balanced] at mean
  exact (mul_eq_zero.mp mean).resolve_left signNeZero

end Entries

namespace Bloch
variable {b : Bloch ℝ} {w : Ket ℝ} {x : ℝ}

namespace Points
variable (points : b.Points w (Complex.exp (x * Complex.I)))
include points

theorem cross : conj w.zero.toComplex * w.one.toComplex =
    Complex.cos (b.theta / 2 : ℝ) * Complex.sin (b.theta / 2 : ℝ) * Complex.exp (b.phi * Complex.I) := by
  have turn := @Entries.expUnit x
  rw [points.zero, points.one, map_mul, ← Complex.cos_conj, Complex.conj_ofReal]
  linear_combination Complex.cos (b.theta / 2 : ℝ) * Complex.sin (b.theta / 2 : ℝ) *
    Complex.exp (b.phi * Complex.I) * turn

theorem crossBack : conj w.one.toComplex * w.zero.toComplex =
    Complex.cos (b.theta / 2 : ℝ) * Complex.sin (b.theta / 2 : ℝ) * conj (Complex.exp (b.phi * Complex.I)) := by
  have crossed := congrArg conj points.cross
  rw [map_mul, map_mul, map_mul, Complex.conj_conj, ← Complex.cos_conj, ← Complex.sin_conj,
    Complex.conj_ofReal] at crossed
  rw [← crossed, mul_comm]

theorem squares : conj w.zero.toComplex * w.zero.toComplex = Complex.cos (b.theta / 2 : ℝ) ^ 2 ∧
    conj w.one.toComplex * w.one.toComplex = Complex.sin (b.theta / 2 : ℝ) ^ 2 := by
  have turn := @Entries.expUnit x
  have phase := @Entries.expUnit b.phi
  rw [points.zero, points.one, map_mul, map_mul, map_mul, ← Complex.cos_conj, ← Complex.sin_conj,
    Complex.conj_ofReal]
  generalize Complex.exp (x * Complex.I) = f at turn ⊢
  generalize Complex.exp (b.phi * Complex.I) = e at phase ⊢
  constructor
  · linear_combination Complex.cos (b.theta / 2 : ℝ) ^ 2 * turn
  · linear_combination Complex.sin (b.theta / 2 : ℝ) ^ 2 * (conj e * e * turn + phase)

theorem planes {p : Pauli} (zero : w.zero.toComplex ≠ 0) (one : w.one.toComplex ≠ 0)
    (balanced : Entries.Balanced p w.amplitudes) :
    Complex.exp (b.phi * Complex.I) ^ 4 = 1 ∨ Complex.exp (b.theta * Complex.I) ^ 2 = -1 := by
  have phase := @Entries.expUnit b.phi
  rw [points.zero] at zero
  rw [points.one] at one
  have apart := mul_ne_zero (right_ne_zero_of_mul zero) (right_ne_zero_of_mul (right_ne_zero_of_mul one))
  -- The first two matrices compare the phase along the equator with its conjugate, the third the two sizes.
  cases p with
  | x =>
    have mean := Entries.balancedX.mp balanced
    rw [Ket.amplitudesFalse, Ket.amplitudesTrue, points.cross, points.crossBack, ← mul_neg] at mean
    have odd := mul_left_cancel₀ apart mean
    generalize Complex.exp (b.phi * Complex.I) = e at phase odd ⊢
    have square : e ^ 2 = -1 := by linear_combination e * odd - phase
    exact .inl (by linear_combination (e ^ 2 - 1) * square)
  | y =>
    have mean := Entries.balancedY.mp balanced
    rw [Ket.amplitudesFalse, Ket.amplitudesTrue, points.cross, points.crossBack] at mean
    have even := mul_left_cancel₀ apart mean
    generalize Complex.exp (b.phi * Complex.I) = e at phase even ⊢
    have square : e ^ 2 = 1 := by linear_combination e * even + phase
    exact .inl (by linear_combination (e ^ 2 + 1) * square)
  | z =>
    have mean := Entries.balancedZ.mp balanced
    rw [Ket.amplitudesFalse, Ket.amplitudesTrue, points.squares.1, points.squares.2] at mean
    have circle := Complex.cos_sq_add_sin_sq (b.theta / 2 : ℝ)
    have square := Complex.I_sq
    right
    rw [← Angle.halfSquare, Complex.exp_mul_I]
    generalize Complex.cos (b.theta / 2 : ℝ) = c at mean circle ⊢
    generalize Complex.sin (b.theta / 2 : ℝ) = s at mean circle ⊢
    have whole : (c + s * Complex.I) ^ 2 = 2 * c * s * Complex.I := by linear_combination mean + s ^ 2 * square
    have size : 4 * c ^ 2 * s ^ 2 = 1 := by linear_combination (c ^ 2 + s ^ 2 + 1) * circle - (c ^ 2 - s ^ 2) * mean
    rw [whole]
    linear_combination 4 * c ^ 2 * s ^ 2 * square - size

end Points

theorem Points.phase {k : Ket ℝ} {s : Bool} (found : b.Points k (sign s))
    (points : b.Points w (Complex.exp (x * Complex.I))) :
    ∃ angle : ℝ, ∀ bit, k.amplitudes bit = Complex.exp (angle * Complex.I) * w.amplitudes bit := by
  obtain ⟨t, turned⟩ : ∃ t : ℝ, Complex.exp (t * Complex.I) = sign s := by
    cases s with
    | false => exact ⟨0, by simp⟩
    | true => exact ⟨Real.pi, Complex.exp_pi_mul_I⟩
  have whole : Complex.exp ((t - x : ℝ) * Complex.I) * Complex.exp (x * Complex.I) = sign s := by
    rw [← turned, ← Complex.exp_add]
    congr 1
    push_cast
    ring
  refine ⟨t - x, fun bit => ?_⟩
  cases bit with
  | false => rw [Ket.amplitudesFalse, Ket.amplitudesFalse, found.zero, points.zero, ← mul_assoc, whole]
  | true => rw [Ket.amplitudesTrue, Ket.amplitudesTrue, found.one, points.one, ← whole, mul_assoc]

end Bloch

def Ket.Astray (w : Ket ℝ) : Prop := w.zero.toComplex = 0 ∧ w.one.toComplex ^ 4 ≠ 1

namespace Bloch
variable {w : Ket ℝ}

theorem unitSizes (unit : Entries.inner w.amplitudes w.amplitudes = 1) :
    ‖w.zero.toComplex‖ ^ 2 + ‖w.one.toComplex‖ ^ 2 = 1 := by
  rw [Entries.inner, Ket.amplitudesFalse, Ket.amplitudesTrue, Complex.conj_mul', Complex.conj_mul'] at unit
  exact_mod_cast unit

theorem astrayLost (unit : Entries.inner w.amplitudes w.amplitudes = 1) (astray : w.Astray) :
    (ofKet w).planar = .error .offPlanes := by
  obtain ⟨pole, phase⟩ := astray
  rw [ofKetPole pole]
  refine notFound ?_ ?_
  · rwa [LocalUnitary.unitPolar (poleSize (unitSizes unit) pole)]
  · rw [Angle.straightPhase]
    norm_num

theorem ofKetFound {p : Pauli} (unit : Entries.inner w.amplitudes w.amplitudes = 1)
    (balanced : Entries.Balanced p w.amplitudes) (kept : ¬ w.Astray) : (ofKet w).Found := by
  by_cases zero : w.zero.toComplex = 0
  · refine meridianFound ?_
    rw [ofKetPole zero, LocalUnitary.unitPolar (poleSize (unitSizes unit) zero)]
    by_contra phase
    exact kept ⟨zero, phase⟩
  · by_cases one : w.one.toComplex = 0
    · obtain ⟨phi, point, _, top⟩ := ofKetAway zero
      refine meridianFound ?_
      rw [point, top one]
      simp
    · obtain ⟨x, points⟩ := ofKetPoints (unitSizes unit)
      by_cases quarter : Complex.exp ((ofKet w).phi * Complex.I) ^ 4 = 1
      · exact meridianFound quarter
      · exact equatorFound quarter ((points.planes zero one balanced).resolve_left quarter)

theorem ofVectorUnit (unit : Entries.inner w.amplitudes w.amplitudes = 1) : ofVector w.toList = .ok (ofKet w) := by
  have length : OneWay.norm w.toList = 1 := by
    have sizes := unitSizes unit
    rw [Complex.sq_norm, Complex.sq_norm, Complex.normSq_apply, Complex.normSq_apply] at sizes
    show √(Scalar.zero + w.zero.normSq + w.one.normSq) = 1
    rw [Scalar.zeroReal, zero_add, Real.sqrt_eq_one]
    exact sizes
  have same (a : Amplitude ℝ) : a / Amplitude.ofReal (OneWay.norm w.toList) = a := by
    refine Amplitude.toComplexInj ?_
    rw [Amplitude.toComplexDiv, Amplitude.toComplexOfReal, length, Complex.ofReal_one, div_one]
  show Except.ok (ofKet ⟨w.zero / _, w.one / _⟩) = _
  rw [same, same]

end Bloch

theorem Matrix.Shows.mulVec {m : Matrix ℝ} {e : Entries} (shown : m.Shows e) (v : Ket ℝ) :
    ∃ w : Ket ℝ, m.mulVec v.toList = w.toList ∧ w.amplitudes = e.on v.amplitudes := by
  have row (a : Bool) : (sum ((List.range m.cols).map fun k => m.entry a.toNat k * v.toList.getD k 0)).toComplex =
      e.on v.amplitudes a := by
    rw [Tensor.sumRange, shown.cols, Finset.sum_range_succ, Finset.sum_range_one, Amplitude.toComplexMul,
      Amplitude.toComplexMul]
    exact congrArg₂ (· + ·) (congrArg (· * _) (shown.entries a false)) (congrArg (· * _) (shown.entries a true))
  obtain ⟨cell, product, row⟩ : ∃ cell : Bool → Amplitude ℝ, m.mulVec v.toList = [cell false, cell true] ∧
      ∀ a, (cell a).toComplex = e.on v.amplitudes a := by
    refine ⟨_, ?_, row⟩
    rw [Matrix.mulVec, shown.rows]
    rfl
  refine ⟨⟨cell false, cell true⟩, product, funext fun bit => ?_⟩
  cases bit with
  | false => exact row false
  | true => exact row true

namespace Basis
variable {b : Basis ℝ}

def Known (b : Basis ℝ) : Prop := ∃ plane, b.plane = .ok plane ∧ ∀ label, plane ≠ .other label

theorem planeAngle {plane : Plane} (on : b.plane = .ok plane) : ∃ angle, b.angle = .ok angle := by
  cases b with
  | planar plane angle => exact ⟨angle, rfl⟩
  | axial axis sign =>
    cases axis with
    | other label => cases on
    | _ => cases sign <;> exact ⟨_, rfl⟩

theorem vectorAcross {plane : Plane} (known : ∀ label, plane ≠ .other label) (angle : ℝ) :
    ∃ v, vectorAt plane angle = .ok v ∧ Entries.inner v.amplitudes v.amplitudes = 1 ∧
      ∃ p, Entries.Balanced p v.amplitudes := by
  have circle := Complex.cos_sq_add_sin_sq (angle / 2 : ℝ)
  have cosine : conj (Complex.cos (angle / 2 : ℝ)) = Complex.cos (angle / 2 : ℝ) := by
    rw [← Complex.cos_conj, Complex.conj_ofReal]
  have sine : conj (Complex.sin (angle / 2 : ℝ)) = Complex.sin (angle / 2 : ℝ) := by
    rw [← Complex.sin_conj, Complex.conj_ofReal]
  cases plane with
  | xy =>
    obtain ⟨v, vector, zero, one⟩ := @vectorAtXy angle
    have turn := @Entries.expUnit angle
    have root := Entries.rootTwice
    have first : conj v.zero.toComplex * v.zero.toComplex = 1 / 2 := by
      rw [zero, map_inv₀, Complex.conj_ofReal, root]
    have second : conj v.one.toComplex * v.one.toComplex = 1 / 2 := by
      rw [one, map_mul, map_inv₀, Complex.conj_ofReal]
      linear_combination (√2 : ℂ)⁻¹ * (√2 : ℂ)⁻¹ * turn + root
    refine ⟨v, vector, ?_, .z, Entries.balancedZ.mpr ?_⟩
    · rw [Entries.inner, Ket.amplitudesFalse, Ket.amplitudesTrue, first, second]
      norm_num
    · rw [Ket.amplitudesFalse, Ket.amplitudesTrue, first, second]
  | yz =>
    obtain ⟨v, vector, zero, one⟩ := @vectorAtYz angle
    have half : (angle : ℂ) / 2 = (angle / 2 : ℝ) := by
      push_cast
      rfl
    have square := Complex.I_mul_I
    rw [half] at zero one
    refine ⟨v, vector, ?_, .x, Entries.balancedX.mpr ?_⟩
    · rw [Entries.inner, Ket.amplitudesFalse, Ket.amplitudesTrue, zero, one, map_mul, Complex.conj_I, cosine, sine]
      linear_combination circle - Complex.sin (angle / 2 : ℝ) ^ 2 * square
    · rw [Ket.amplitudesFalse, Ket.amplitudesTrue, zero, one, map_mul, Complex.conj_I, cosine, sine]
      ring
  | xz =>
    obtain ⟨v, vector, zero, one⟩ := @vectorAtXz angle
    refine ⟨v, vector, ?_, .y, Entries.balancedY.mpr ?_⟩
    · rw [Entries.inner, Ket.amplitudesFalse, Ket.amplitudesTrue, zero, one, cosine, sine]
      linear_combination circle
    · rw [Ket.amplitudesFalse, Ket.amplitudesTrue, zero, one, cosine, sine, mul_comm]
  | other label => exact absurd rfl (known label)

end Basis

namespace LocalClifford
variable {b : Basis ℝ}

theorem imageAmplitudes {c : LocalClifford ℝ} {m : Matrix ℝ} {v w : Ket ℝ} (matrix : c.matrix = .ok m)
    (product : m.mulVec v.toList = w.toList) : w.amplitudes = c.unitary.entries.on v.amplitudes := by
  obtain ⟨m', matrix', shown⟩ : ∃ m, c.matrix = .ok m ∧ m.Shows c.unitary.entries := LocalUnitary.matrixShows
  cases matrix.symm.trans matrix'
  obtain ⟨⟨zero, one⟩, product', amplitudes⟩ := shown.mulVec v
  obtain ⟨zero', one'⟩ := w
  cases product.symm.trans product'
  exact amplitudes

structure Image (c : LocalClifford ℝ) (b : Basis ℝ) (m : Matrix ℝ) (v w : Ket ℝ) : Prop where
  matrix : c.matrix = .ok m
  vector : b.vector = .ok v
  product : m.mulVec v.toList = w.toList
  unit : Entries.inner w.amplitudes w.amplitudes = 1
  balanced : ∃ p, Entries.Balanced p w.amplitudes
  found : c.onBasis b = (Bloch.ofKet w).planar >>= fun found => .ok (.planar found.1 found.2)

theorem image (c : LocalClifford ℝ) (known : b.Known) : ∃ m v w, c.Image b m v w := by
  obtain ⟨plane, on, known⟩ := known
  obtain ⟨angle, angled⟩ := Basis.planeAngle on
  obtain ⟨v, found, unit, p, balanced⟩ := Basis.vectorAcross known angle
  have vector : b.vector = .ok v := by
    rw [Basis.vector, on, angled]
    exact found
  obtain ⟨m, matrix, shown⟩ : ∃ m, c.matrix = .ok m ∧ m.Shows c.unitary.entries := LocalUnitary.matrixShows
  obtain ⟨w, product, amplitudes⟩ := shown.mulVec v
  have special := LocalUnitary.entriesSpecial (u := c.unitary)
  have turned := entriesClifford.balanced special balanced
  rw [← special.innerKept, ← amplitudes] at unit
  rw [← amplitudes] at turned
  refine ⟨m, v, w, matrix, vector, product, unit, turned, ?_⟩
  rw [onBasis, vector, matrix]
  show (Basis.ofVector (m.mulVec v.toList) >>= fun found => .ok (Basis.planar found.1 found.2)) = _
  rw [product, Basis.ofVector, Bloch.ofVectorUnit unit]
  rfl

theorem Image.lost {c : LocalClifford ℝ} {m : Matrix ℝ} {v w : Ket ℝ} (image : c.Image b m v w)
    (astray : w.Astray) : c.onBasis b = .error .offPlanes := by
  rw [image.found, Bloch.astrayLost image.unit astray]
  rfl

/- A Clifford sends a basis to one whose vector is the image of its vector, up to a phase, unless the image is
the south pole with a phase that is no quarter turn: then no plane is found for it. -/
theorem basisImage (c : LocalClifford ℝ) (known : b.Known) :
    ∃ (m : Matrix ℝ) (v w : Ket ℝ), c.matrix = .ok m ∧ b.vector = .ok v ∧ m.mulVec v.toList = w.toList ∧
      (w.Astray → c.onBasis b = .error .offPlanes) ∧
      (¬ w.Astray → ∃ image k, c.onBasis b = .ok image ∧ image.vector = .ok k ∧
        ∃ angle : ℝ, ∀ bit, k.amplitudes bit = Complex.exp (angle * Complex.I) * w.amplitudes bit) := by
  obtain ⟨m, v, w, image⟩ := c.image known
  refine ⟨m, v, w, image.matrix, image.vector, image.product, image.lost, fun kept => ?_⟩
  obtain ⟨p, balanced⟩ := image.balanced
  obtain ⟨x, points⟩ := Bloch.ofKetPoints (Bloch.unitSizes image.unit)
  obtain ⟨plane, angle, k, s, found, vector, same⟩ := Bloch.ofKetFound image.unit balanced kept
  refine ⟨.planar plane angle, k, ?_, vector, same.phase points⟩
  rw [image.found, found]
  rfl

theorem tiltImage : (Basis.axial .z .plus : Basis ℝ).Known ∧ ∃ (m : Matrix ℝ) (v w : Ket ℝ),
    tilt.matrix = .ok m ∧ (Basis.axial .z .plus : Basis ℝ).vector = .ok v ∧ m.mulVec v.toList = w.toList ∧
      ∃ image k, tilt.onBasis (.axial .z .plus) = .ok image ∧ image.vector = .ok k ∧
        ∃ angle : ℝ, ∀ bit, k.amplitudes bit = Complex.exp (angle * Complex.I) * w.amplitudes bit := by
  have known : (Basis.axial .z .plus : Basis ℝ).Known := ⟨.xz, rfl, by simp⟩
  obtain ⟨m, v, w, matrix, vector, product, _, kept⟩ := tilt.basisImage known
  obtain ⟨v', vector', zero, one⟩ := @Basis.vectorAtXz Scalar.zero
  cases vector.symm.trans vector'
  have tilted : tilt.unitary.entries = Entries.rx (Scalar.half Scalar.pi) := LocalUnitary.entriesX
  have quarter : Scalar.half (Scalar.half Scalar.pi) = Real.pi / 4 := by
    rw [Scalar.halfReal, Scalar.halfReal]
    show Real.pi / 2 / 2 = _
    ring
  have amplitude : w.zero.toComplex = ((√2 / 2 : ℝ) : ℂ) := by
    rw [← Ket.amplitudesFalse, imageAmplitudes matrix product, tilted, Entries.on, Ket.amplitudesFalse,
      Ket.amplitudesTrue, zero, one, Scalar.zeroReal, zero_div, Complex.ofReal_zero, Complex.cos_zero,
      Complex.sin_zero, mul_one, mul_zero, add_zero, Entries.rx, if_pos rfl, quarter, ← Complex.ofReal_cos,
      Real.cos_pi_div_four]
  refine ⟨known, m, v, w, matrix, vector, product, kept fun astray => ?_⟩
  exact Complex.ofReal_ne_zero.mpr (by positivity) (amplitude.symm.trans astray.1)

noncomputable def spin : LocalClifford ℝ where
  unitary := ⟨Scalar.zero, Scalar.zero, Scalar.half Scalar.pi⟩
  clifford := ⟨Angle.zeroClifford, Angle.zeroClifford, Angle.quarterClifford⟩

theorem spinEntries : spin.unitary.entries true false = 0 ∧
    spin.unitary.entries true true = Complex.exp ((Real.pi / 4 : ℝ) * Complex.I) := by
  have angle : (spin.unitary.gamma + spin.unitary.alpha) / 2 = Real.pi / 4 := by
    show ((Scalar.half Scalar.pi + Scalar.zero) / 2 : ℝ) = _
    rw [Scalar.halfReal, Scalar.zeroReal]
    show (Real.pi / 2 + 0) / 2 = _
    ring
  have still : spin.unitary.beta / 2 = 0 := by
    show (Scalar.zero / 2 : ℝ) = 0
    rw [Scalar.zeroReal, zero_div]
  rw [LocalUnitary.entriesLeft, LocalUnitary.entriesHigh, angle, still]
  simp

theorem spinLost : (Basis.axial .z .minus : Basis ℝ).Known ∧ spin.onBasis (.axial .z .minus) = .error .offPlanes ∧
    ∃ (m : Matrix ℝ) (v w : Ket ℝ), spin.matrix = .ok m ∧ (Basis.axial .z .minus : Basis ℝ).vector = .ok v ∧
      m.mulVec v.toList = w.toList ∧
      ∃ angle : ℝ, ∀ bit, w.amplitudes bit = Complex.exp (angle * Complex.I) * v.amplitudes bit := by
  have known : (Basis.axial .z .minus : Basis ℝ).Known := ⟨.xz, rfl, by simp⟩
  obtain ⟨m, v, w, image⟩ := spin.image known
  obtain ⟨v', vector', zero, one⟩ := @Basis.vectorAtXz Scalar.pi
  cases image.vector.symm.trans vector'
  rw [LocalUnitary.cosCrossed] at zero
  rw [LocalUnitary.sinCrossed] at one
  have same (bit : Bool) : w.amplitudes bit = Complex.exp ((Real.pi / 4 : ℝ) * Complex.I) * v.amplitudes bit := by
    obtain ⟨left, high⟩ := spinEntries
    rw [imageAmplitudes image.matrix image.product]
    cases bit with
    | false => simp [Entries.on, zero, one, (LocalUnitary.entriesSpecial (u := spin.unitary)).beside, left]
    | true => simp [Entries.on, zero, one, high]
  have pole := same false
  have phase := same true
  rw [Ket.amplitudesFalse, Ket.amplitudesFalse, zero, mul_zero] at pole
  rw [Ket.amplitudesTrue, Ket.amplitudesTrue, one, mul_one] at phase
  refine ⟨known, image.lost ⟨pole, ?_⟩, m, v, w, image.matrix, image.vector, image.product, _, same⟩
  have turned : Complex.exp ((Real.pi / 4 : ℝ) * Complex.I) ^ 4 = -1 := by
    rw [← Complex.exp_nat_mul, ← Complex.exp_pi_mul_I]
    congr 1
    push_cast
    ring
  rw [phase, turned]
  norm_num

end LocalClifford
end OneWay
