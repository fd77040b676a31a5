import Mathlib.Analysis.SpecialFunctions.Complex.Arg
import OneWay.Proofs.BasisImage

/-! The two outcomes of a measurement. In every plane and at every angle the vector of a basis and that of
the flipped basis are orthonormal, so one of the two outcomes occurs. Flipping twice and conjugating do to
the vector what they are named for, up to a phase that no measurement shows. The ends of an axis are the
eigenvectors of its Pauli matrix. -/
namespace OneWay
open ComplexConjugate

/- A left inverse of two rows and two columns is a right inverse: multiply by the determinants. -/
theorem inverseBack {p q r s p' q' r' s' : ℂ} (first : p' * p + q' * q = 1) (second : r' * r + s' * s = 1)
    (above : p' * r + q' * s = 0) (below : r' * p + s' * q = 0) :
    p * p' + r * r' = 1 ∧ p * q' + r * s' = 0 := by
  have dets : (p' * s' - q' * r') * (p * s - q * r) = 1 := by
    linear_combination (r' * r + s' * s) * first + second - (r' * p + s' * q) * above
  constructor
  · linear_combination (p * s - q * r) * (s' * p' * first + s' * r' * above - q' * p' * below - q' * r' * second)
      - (p * p' + r * r' - 1) * dets
  · linear_combination (p * s - q * r) * (s' * q' * first + s' * s' * above - q' * q' * below - q' * s' * second)
      - (p * q' + r * s') * dets

namespace Entries
variable {ψ χ ω : Bool → ℂ} {u : ℂ}

def UnitMultiple (ψ χ : Bool → ℂ) : Prop := ∃ u : ℂ, ‖u‖ = 1 ∧ ∀ bit, χ bit = u * ψ bit

theorem innerConj : conj (inner ψ χ) = inner χ ψ := by
  simp only [inner, map_add, map_mul, Complex.conj_conj]
  ring

theorem UnitMultiple.orthogonal (same : UnitMultiple χ ω) (apart : inner ψ χ = 0) : inner ψ ω = 0 := by
  obtain ⟨u, _, scaled⟩ := same
  have pulled : inner ψ ω = u * inner ψ χ := by
    rw [inner, inner, scaled, scaled]
    ring
  rw [pulled, apart, mul_zero]

theorem onMono {d : Bool → ℂ} {k a : Bool} : (mono d k).on ψ a = d a * ψ (xor a k) := by
  cases a <;> cases k <;> simp [on, mono]

theorem projectorsSum (first : inner ψ ψ = 1) (second : inner χ χ = 1) (apart : inner ψ χ = 0) (a b : Bool) :
    ψ a * conj (ψ b) + χ a * conj (χ b) = if a = b then 1 else 0 := by
  have across : inner χ ψ = 0 := by rw [← innerConj, apart, map_zero]
  have zero := inverseBack first second apart across
  have one := inverseBack ((add_comm _ _).trans first) ((add_comm _ _).trans second) ((add_comm _ _).trans apart)
    ((add_comm _ _).trans across)
  cases a <;> cases b
  · exact zero.1
  · exact zero.2
  · exact one.2
  · exact one.1

end Entries

def Axis.pauli : Axis → Option Pauli
  | .x => some .x
  | .y => some .y
  | .z => some .z
  | .other _ => none

def Sign.value : Sign → ℂ
  | .plus => 1
  | _ => -1

theorem Sign.valueSquare {sign : Sign} : sign.value * sign.value = 1 := by
  cases sign <;> norm_num [value]

namespace Basis
variable {b : Basis ℝ} {plane : Plane} {x y : ℝ} {v w : Ket ℝ}

theorem equatorElse (known : ∀ label, plane ≠ .other label) : plane = .xy ∨ plane = .yz ∨ plane = .xz := by
  cases plane with
  | other label => exact absurd rfl (known label)
  | _ => simp

theorem amplitudesXy (vector : vectorAt .xy x = .ok v) :
    v.amplitudes false = (√2 : ℂ)⁻¹ ∧ v.amplitudes true = Complex.exp (x * Complex.I) * (√2 : ℂ)⁻¹ := by
  obtain ⟨v', vector', parts⟩ := @vectorAtXy x
  cases vector.symm.trans vector'
  exact parts

theorem amplitudesYz (vector : vectorAt .yz x = .ok v) :
    v.amplitudes false = Real.cos (x / 2) ∧ v.amplitudes true = Complex.I * Real.sin (x / 2) := by
  obtain ⟨v', vector', zero, one⟩ := @vectorAtYz x
  cases vector.symm.trans vector'
  rw [Ket.amplitudesFalse, Ket.amplitudesTrue, zero, one]
  push_cast
  exact ⟨rfl, rfl⟩

theorem amplitudesXz (vector : vectorAt .xz x = .ok v) :
    v.amplitudes false = Real.cos (x / 2) ∧ v.amplitudes true = Real.sin (x / 2) := by
  obtain ⟨v', vector', zero, one⟩ := @vectorAtXz x
  cases vector.symm.trans vector'
  rw [Ket.amplitudesFalse, Ket.amplitudesTrue, zero, one, Complex.ofReal_cos, Complex.ofReal_sin]
  exact ⟨rfl, rfl⟩

theorem amplitudesHalf (half : plane = .yz ∨ plane = .xz) : ∃ u : ℂ, conj u * u = 1 ∧
    ∀ x v, vectorAt plane x = .ok v →
      v.amplitudes false = Real.cos (x / 2) ∧ v.amplitudes true = u * Real.sin (x / 2) := by
  rcases half with rfl | rfl
  · exact ⟨Complex.I, by simp, fun _ _ vector => amplitudesYz vector⟩
  · refine ⟨1, by simp, fun x v vector => ?_⟩
    rw [one_mul]
    exact amplitudesXz vector

theorem wholeTurns {n : ℤ} (known : ∀ label, plane ≠ .other label) (turned : y = x + n * (2 * Real.pi))
    (first : vectorAt plane x = .ok v) (second : vectorAt plane y = .ok w) :
    Entries.UnitMultiple v.amplitudes w.amplitudes := by
  rcases equatorElse known with rfl | half
  · obtain ⟨zero, one⟩ := amplitudesXy first
    obtain ⟨zero', one'⟩ := amplitudesXy second
    have phase : Complex.exp (y * Complex.I) = Complex.exp (x * Complex.I) := by
      rw [turned]
      push_cast
      rw [add_mul, mul_assoc, Complex.exp_add, Complex.exp_int_mul_two_pi_mul_I, mul_one]
    refine ⟨1, norm_one, fun bit => ?_⟩
    cases bit with
    | false => rw [zero, zero', one_mul]
    | true => rw [one, one', phase, one_mul]
  · obtain ⟨u, _, vectors⟩ := amplitudesHalf half
    obtain ⟨zero, one⟩ := vectors x v first
    obtain ⟨zero', one'⟩ := vectors y w second
    have halved : y / 2 = x / 2 + n * Real.pi := by
      rw [turned]
      ring
    rw [halved, Real.cos_add_int_mul_pi] at zero'
    rw [halved, Real.sin_add_int_mul_pi] at one'
    refine ⟨(-1) ^ n, by simp, fun bit => ?_⟩
    cases bit with
    | false =>
      rw [zero, zero']
      push_cast
      rfl
    | true =>
      rw [one, one']
      push_cast
      ring

theorem acrossOrthogonal (known : ∀ label, plane ≠ .other label) (first : vectorAt plane x = .ok v)
    (second : vectorAt plane (x + Real.pi) = .ok w) : Entries.inner v.amplitudes w.amplitudes = 0 := by
  rcases equatorElse known with rfl | half
  · obtain ⟨zero, one⟩ := amplitudesXy first
    obtain ⟨zero', one'⟩ := amplitudesXy second
    have turn := @Entries.expUnit x
    have phase : Complex.exp ((x + Real.pi : ℝ) * Complex.I) = -Complex.exp (x * Complex.I) := by
      push_cast
      rw [add_mul, Complex.exp_add, Complex.exp_pi_mul_I, mul_neg_one]
    rw [Entries.inner, zero, zero', one, one', phase, map_mul, map_inv₀, Complex.conj_ofReal]
    linear_combination -((√2 : ℂ)⁻¹ * (√2 : ℂ)⁻¹) * turn
  · obtain ⟨u, unit, vectors⟩ := amplitudesHalf half
    obtain ⟨zero, one⟩ := vectors x v first
    obtain ⟨zero', one'⟩ := vectors _ w second
    rw [add_div, Real.cos_add_pi_div_two] at zero'
    rw [add_div, Real.sin_add_pi_div_two] at one'
    rw [Entries.inner, zero, zero', one, one', map_mul, Complex.conj_ofReal, Complex.conj_ofReal, Complex.ofReal_neg]
    linear_combination (Real.sin (x / 2) * Real.cos (x / 2) : ℂ) * unit

def mirrored (plane : Plane) (x : ℝ) : ℝ := if plane = .xz then x else -x

theorem mirroredConjugate (known : ∀ label, plane ≠ .other label) (first : vectorAt plane x = .ok v)
    (second : vectorAt plane (mirrored plane x) = .ok w) (bit : Bool) : w.amplitudes bit = conj (v.amplitudes bit) := by
  rcases equatorElse known with rfl | rfl | rfl
  · obtain ⟨zero, one⟩ := amplitudesXy first
    obtain ⟨zero', one'⟩ := amplitudesXy second
    cases bit with
    | false => rw [zero, zero', map_inv₀, Complex.conj_ofReal]
    | true =>
      rw [one, one', map_mul, map_inv₀, Complex.conj_ofReal, ← Complex.exp_conj, map_mul, Complex.conj_ofReal,
        Complex.conj_I, mirrored, if_neg (by decide)]
      push_cast
      ring_nf
  · obtain ⟨zero, one⟩ := amplitudesYz first
    obtain ⟨zero', one'⟩ := amplitudesYz second
    rw [mirrored, if_neg (by decide), neg_div] at zero' one'
    cases bit with
    | false => rw [zero, zero', Real.cos_neg, Complex.conj_ofReal]
    | true =>
      rw [one, one', Real.sin_neg, map_mul, Complex.conj_I, Complex.conj_ofReal, Complex.ofReal_neg, mul_neg, neg_mul]
  · obtain ⟨zero, one⟩ := amplitudesXz first
    obtain ⟨zero', one'⟩ := amplitudesXz second
    rw [mirrored, if_pos rfl] at zero' one'
    cases bit with
    | false => rw [zero, zero', Complex.conj_ofReal]
    | true => rw [one, one', Complex.conj_ofReal]

theorem angleStraight {axis : Axis} {sign : Sign} (straight : axis = .x ∨ axis = .z) :
    (axial axis sign : Basis ℝ).angle = .ok (if sign = .plus then 0 else Real.pi) := by
  rcases straight with rfl | rfl
  all_goals
    cases sign with
    | plus => exact congrArg Except.ok Scalar.zeroReal
    | _ => rfl

theorem angleY {sign : Sign} :
    (axial .y sign : Basis ℝ).angle = .ok (Real.pi / 2 + if sign = .plus then 0 else Real.pi) := by
  have three : (Scalar.ofNat 3 : ℝ) * Scalar.pi / Scalar.two = Real.pi / 2 + Real.pi := by
    have third : (Scalar.ofNat 3 : ℝ) = 3 := Nat.cast_ofNat
    have straight : (Scalar.pi : ℝ) = Real.pi := rfl
    rw [third, straight, Scalar.twoReal]
    ring
  cases sign with
  | plus => exact congrArg Except.ok (Scalar.halfReal.trans (add_zero _).symm)
  | _ => exact congrArg Except.ok three

theorem flipEnd (sign : Sign) : ∃ n : ℤ, (if sign.flip = .plus then 0 else Real.pi) =
    (if sign = .plus then 0 else Real.pi) + Real.pi + n * (2 * Real.pi) := by
  cases sign with
  | plus => exact ⟨0, by simp [Sign.flip]⟩
  | _ => exact ⟨-1, by simp [Sign.flip]; ring⟩

theorem flipTurned (on : b.plane = .ok plane) (found : b.angle = .ok x) : b.flip.plane = .ok plane ∧
    ∃ y, b.flip.angle = .ok y ∧ ∃ n : ℤ, y = x + Real.pi + n * (2 * Real.pi) := by
  cases b with
  | planar p angle =>
    cases found
    exact ⟨on, x + Real.pi, rfl, 0, by simp⟩
  | axial axis sign =>
    obtain ⟨n, turned⟩ := flipEnd sign
    cases axis with
    | other label => cases on
    | x =>
      cases (angleStraight (.inl rfl)).symm.trans found
      exact ⟨on, _, angleStraight (.inl rfl), n, turned⟩
    | y =>
      cases angleY.symm.trans found
      exact ⟨on, _, angleY, n, by rw [turned]; ring⟩
    | z =>
      cases (angleStraight (.inr rfl)).symm.trans found
      exact ⟨on, _, angleStraight (.inr rfl), n, turned⟩

theorem conjugateTurned (known : ∀ label, plane ≠ .other label) (on : b.plane = .ok plane) (found : b.angle = .ok x) :
    ∃ b', b.conjugate = .ok b' ∧ b'.plane = .ok plane ∧
      ∃ y, b'.angle = .ok y ∧ ∃ n : ℤ, y = mirrored plane x + n * (2 * Real.pi) := by
  cases b with
  | planar p angle =>
    cases on
    cases found
    rcases equatorElse known with rfl | rfl | rfl
    · exact ⟨_, rfl, rfl, _, rfl, 0, by simp [mirrored]⟩
    · exact ⟨_, rfl, rfl, _, rfl, 0, by simp [mirrored]⟩
    · exact ⟨_, rfl, rfl, _, rfl, 0, by simp [mirrored]⟩
  | axial axis sign =>
    cases axis with
    | other label => cases on
    | x =>
      cases on
      cases (angleStraight (.inl rfl)).symm.trans found
      refine ⟨_, rfl, rfl, _, angleStraight (.inl rfl), if sign = .plus then 0 else 1, ?_⟩
      split <;> simp [mirrored]
      ring
    | y =>
      cases on
      cases angleY.symm.trans found
      refine ⟨_, rfl, rfl, _, angleY, 1, ?_⟩
      cases sign <;> simp [mirrored, Sign.flip] <;> ring
    | z =>
      cases on
      cases (angleStraight (.inr rfl)).symm.trans found
      exact ⟨_, rfl, rfl, _, angleStraight (.inr rfl), 0, by simp [mirrored]⟩

theorem vectorAngle (on : b.plane = .ok plane) (found : b.angle = .ok x) : b.vector = vectorAt plane x := by
  rw [vector, on, found]
  rfl

theorem endsBalanced {sign : Sign} :
    (Real.sin ((Real.pi / 2 + if sign = .plus then 0 else Real.pi) / 2) : ℂ) =
      sign.value * Real.cos ((Real.pi / 2 + if sign = .plus then 0 else Real.pi) / 2) := by
  have quarter : Real.pi / 2 / 2 = Real.pi / 4 := by ring
  rw [add_div, quarter]
  cases sign with
  | plus => rw [if_pos rfl, zero_div, add_zero, Real.cos_pi_div_four, Real.sin_pi_div_four, Sign.value, one_mul]
  | _ =>
    rw [if_neg (by simp), Real.cos_add_pi_div_two, Real.sin_add_pi_div_two, Real.cos_pi_div_four,
      Real.sin_pi_div_four, Complex.ofReal_neg]
    simp [Sign.value]

theorem axialEigen {axis : Axis} {sign : Sign} {p : Pauli} (named : axis.pauli = some p)
    (vector : (axial axis sign).vector = .ok v) (bit : Bool) :
    p.entries.on v.amplitudes bit = sign.value * v.amplitudes bit := by
  cases axis with
  | other label => cases named
  | x =>
    cases named
    rw [vectorAngle rfl (angleStraight (.inl rfl))] at vector
    obtain ⟨zero, one⟩ := amplitudesXy vector
    have phase : Complex.exp ((if sign = .plus then 0 else Real.pi : ℝ) * Complex.I) = sign.value := by
      cases sign <;> simp [Sign.value]
    rw [phase] at one
    rw [Pauli.entries, Entries.onMono, one_mul]
    cases bit with
    | false => exact one.trans (by rw [zero])
    | true =>
      show v.amplitudes false = _
      rw [zero, one, ← mul_assoc, Sign.valueSquare, one_mul]
  | y =>
    cases named
    rw [vectorAngle rfl angleY] at vector
    obtain ⟨zero, one⟩ := amplitudesYz vector
    rw [endsBalanced] at one
    generalize (Real.cos ((Real.pi / 2 + if sign = .plus then 0 else Real.pi) / 2) : ℂ) = c at zero one
    have unit := Complex.I_mul_I
    have square := @Sign.valueSquare sign
    rw [Pauli.entries, Entries.onMono]
    cases bit with
    | false =>
      show -Complex.I * 1 * v.amplitudes true = _
      rw [zero, one]
      linear_combination -(sign.value * c) * unit
    | true =>
      show -Complex.I * -1 * v.amplitudes false = _
      rw [zero, one]
      linear_combination -(Complex.I * c) * square
  | z =>
    cases named
    rw [vectorAngle rfl (angleStraight (.inr rfl))] at vector
    obtain ⟨zero, one⟩ := amplitudesXz vector
    rw [Pauli.entries, Entries.onMono]
    cases sign <;> cases bit <;> simp [zero, one, Sign.value]

/- The vectors of the two outcomes of a measurement: orthonormal, so that their projectors sum to one.
Flipping twice gives the same vector again and conjugating the conjugate one, each up to a factor of length
one, and the vector of an axis is the eigenvector of its Pauli matrix that the sign names. -/
structure Outcomes (b : Basis ℝ) (v w : Ket ℝ) : Prop where
  vector : b.vector = .ok v
  flipped : b.flip.vector = .ok w
  unit : Entries.inner v.amplitudes v.amplitudes = 1
  unitFlipped : Entries.inner w.amplitudes w.amplitudes = 1
  orthogonal : Entries.inner v.amplitudes w.amplitudes = 0
  complete : ∀ i j, v.amplitudes i * conj (v.amplitudes j) + w.amplitudes i * conj (w.amplitudes j) =
    if i = j then 1 else 0
  twice : ∃ k, b.flip.flip.vector = .ok k ∧ Entries.UnitMultiple v.amplitudes k.amplitudes
  conjugate : ∃ b' k, b.conjugate = .ok b' ∧ b'.vector = .ok k ∧
    Entries.UnitMultiple (fun bit => conj (v.amplitudes bit)) k.amplitudes
  eigen : ∀ axis sign, b = .axial axis sign → ∃ p, axis.pauli = some p ∧
    ∀ bit, p.entries.on v.amplitudes bit = sign.value * v.amplitudes bit

theorem outcomesOrthonormal (known : b.Known) : ∃ v w, b.Outcomes v w := by
  obtain ⟨plane, on, known⟩ := known
  obtain ⟨x, found⟩ := planeAngle on
  obtain ⟨onFlip, y, foundFlip, n, turned⟩ := flipTurned on found
  obtain ⟨onTwice, z, foundTwice, m, turnedTwice⟩ := flipTurned onFlip foundFlip
  obtain ⟨b', conjugated, onMirror, t, foundMirror, k, turnedMirror⟩ := conjugateTurned known on found
  obtain ⟨v, vector, unit, _⟩ := vectorAcross known x
  obtain ⟨w, vectorFlip, unitFlip, _⟩ := vectorAcross known y
  -- The angles that the flipped and the conjugate basis have up to whole turns.
  obtain ⟨across, vectorThere, _⟩ := vectorAcross known (x + Real.pi)
  obtain ⟨image, vectorImage, _⟩ := vectorAcross known (mirrored plane x)
  obtain ⟨twice, vectorTwice, _⟩ := vectorAcross known z
  obtain ⟨mirror, vectorMirror, _⟩ := vectorAcross known t
  have first := (vectorAngle on found).trans vector
  have apart : Entries.inner v.amplitudes w.amplitudes = 0 :=
    (wholeTurns known turned vectorThere vectorFlip).orthogonal (acrossOrthogonal known vector vectorThere)
  have back : z = x + (n + m + 1 : ℤ) * (2 * Real.pi) := by
    rw [turnedTwice, turned]
    push_cast
    ring
  have conjugate : image.amplitudes = fun bit => conj (v.amplitudes bit) :=
    funext (mirroredConjugate known vector vectorImage)
  refine ⟨v, w, first, (vectorAngle onFlip foundFlip).trans vectorFlip, unit, unitFlip, apart,
    Entries.projectorsSum unit unitFlip apart, ⟨twice, ?_, wholeTurns known back vector vectorTwice⟩,
    ⟨b', mirror, conjugated, ?_, conjugate ▸ wholeTurns known turnedMirror vectorImage vectorMirror⟩, ?_⟩
  · exact (vectorAngle onTwice foundTwice).trans vectorTwice
  · exact (vectorAngle onMirror foundMirror).trans vectorMirror
  · rintro axis sign rfl
    obtain ⟨p, named⟩ : ∃ p, axis.pauli = some p := by
      cases axis with
      | other label => cases on
      | _ => exact ⟨_, rfl⟩
    exact ⟨p, named, axialEigen named first⟩

theorem tiltedOrthonormal : (planar .yz 1 : Basis ℝ).Known ∧ (axial .y .minus : Basis ℝ).Known ∧
    (∃ v w : Ket ℝ, (planar .yz 1 : Basis ℝ).vector = .ok v ∧
      (planar .yz (1 + Real.pi) : Basis ℝ).vector = .ok w ∧ Entries.inner v.amplitudes w.amplitudes = 0) ∧
    ∃ v : Ket ℝ, (axial .y .minus : Basis ℝ).vector = .ok v ∧
      ∀ bit, Pauli.y.entries.on v.amplitudes bit = -1 * v.amplitudes bit := by
  have tilted : (planar .yz 1 : Basis ℝ).Known := ⟨.yz, rfl, by simp⟩
  have lower : (axial .y .minus : Basis ℝ).Known := ⟨.yz, rfl, by simp⟩
  obtain ⟨v, w, outcomes⟩ := outcomesOrthonormal tilted
  obtain ⟨v', w', ends⟩ := outcomesOrthonormal lower
  obtain ⟨p, named, value⟩ := ends.eigen .y .minus rfl
  cases named
  exact ⟨tilted, lower, ⟨v, w, outcomes.vector, outcomes.flipped, outcomes.orthogonal⟩, v', ends.vector, value⟩

end Basis
end OneWay
