import Mathlib.Analysis.SpecialFunctions.Complex.Log
import OneWay.LocalClifford
import OneWay.Proofs.Angle
import OneWay.Proofs.Euler

/-! Local Cliffords are closed under composition. Their matrices send the Pauli matrices to Pauli matrices
up to sign, products do so too, and the Euler angles of a matrix that does are quarter turns. -/
namespace OneWay
open ComplexConjugate

theorem Angle.quarterTurn {x : ℝ} :
    Angle.isClifford x Scalar.angleTol = true ↔ Complex.exp (x * Complex.I) ^ 4 = 1 := by
  rw [exactClifford, ← Complex.exp_nat_mul, Complex.exp_eq_one_iff]
  refine exists_congr fun k => ⟨?_, ?_⟩
  · rintro rfl
    push_cast
    ring
  · intro same
    have real := congrArg Complex.im same
    simp at real
    linarith

theorem Angle.halfSquare {x : ℝ} : Complex.exp ((x / 2 : ℝ) * Complex.I) ^ 2 = Complex.exp (x * Complex.I) := by
  rw [← Complex.exp_nat_mul]
  congr 1
  push_cast
  ring

theorem fourthRoot {f : ℂ} (root : f ^ 4 = 1) : f = 1 ∨ f = -1 ∨ f = Complex.I ∨ f = -Complex.I := by
  have factors : (f - 1) * ((f + 1) * ((f - Complex.I) * (f + Complex.I))) = 0 := by
    linear_combination root - (f ^ 2 - 1) * Complex.I_mul_I
  rcases mul_eq_zero.mp factors with one | rest
  · exact .inl (sub_eq_zero.mp one)
  rcases mul_eq_zero.mp rest with other | rest
  · exact .inr (.inl (eq_neg_of_add_eq_zero_left other))
  rcases mul_eq_zero.mp rest with unit | other
  · exact .inr (.inr (.inl (sub_eq_zero.mp unit)))
  · exact .inr (.inr (.inr (eq_neg_of_add_eq_zero_left other)))

theorem signRoot {s : Bool} : sign s ^ 4 = 1 := by
  cases s <;> norm_num

theorem quarterRoot {s : Bool} : (sign s * Complex.I) ^ 4 = 1 := by
  rw [mul_pow, signRoot, Complex.I_pow_four, one_mul]

theorem negRoot {f : ℂ} (root : f ^ 4 = 1) : (-f) ^ 4 = 1 := by
  rw [Even.neg_pow (by decide), root]

theorem sameFourth {f p q : ℂ} {x y : ℝ} (root : f ^ 4 = 1) (size : y ^ 2 = x ^ 2) (some : x ≠ 0)
    (meet : -Complex.I * y * p = f * (x * q)) : p ^ 4 = q ^ 4 := by
  have size : (y : ℂ) ^ 2 = x ^ 2 := by exact_mod_cast size
  have some : (x : ℂ) ^ 4 ≠ 0 := pow_ne_zero 4 (by exact_mod_cast some)
  have unit := Complex.I_pow_four
  refine mul_left_cancel₀ some ?_
  calc (x : ℂ) ^ 4 * p ^ 4 = (y ^ 2) ^ 2 * p ^ 4 := by rw [size]; ring
    _ = (-Complex.I * y * p) ^ 4 := by linear_combination -(y ^ 4 * p ^ 4 : ℂ) * unit
    _ = (f * (x * q)) ^ 4 := by rw [meet]
    _ = x ^ 4 * q ^ 4 := by linear_combination (x ^ 4 * q ^ 4 : ℂ) * root

inductive Pauli where
  | x
  | y
  | z

noncomputable def Pauli.entries : Pauli → Entries
  | .x => .mono (fun _ => 1) true
  | .y => .mono (fun a => -Complex.I * sign a) true
  | .z => .mono sign false

namespace Entries
variable {m n : Entries} {angle : ℝ} {c : ℂ}

theorem afterScaled : m.after (fun a b => c * n a b) = fun a b => c * m.after n a b := by
  funext a b
  simp only [after]
  ring

theorem scaledAfter : after (fun a b => c * m a b) n = fun a b => c * m.after n a b := by
  funext a b
  simp only [after]
  ring

def Clifford (m : Entries) : Prop := ∀ p : Pauli, ∃ (q : Pauli) (s : Bool),
  m.after p.entries = fun a b => sign s * q.entries.after m a b

namespace Clifford

theorem after (first : m.Clifford) (second : n.Clifford) : (m.after n).Clifford := by
  intro p
  obtain ⟨q, s, inner⟩ := second p
  obtain ⟨r, t, outer⟩ := first q
  refine ⟨r, xor s t, ?_⟩
  rw [afterAssoc, inner, afterScaled, ← afterAssoc, outer, scaledAfter, afterAssoc]
  funext a b
  rw [signXor, mul_assoc]

theorem scaled (clifford : m.Clifford) : Clifford fun a b => c * m a b := by
  intro p
  obtain ⟨q, s, image⟩ := clifford p
  refine ⟨q, s, ?_⟩
  rw [scaledAfter, afterScaled, image]
  funext a b
  ring

end Clifford

theorem quarterPhaseClifford : (mono (fun b => if b then Complex.I else 1) false).Clifford := by
  intro p
  cases p with
  | x =>
    refine ⟨.y, false, ?_⟩
    funext a b
    cases a <;> cases b <;> simp [after, mono, Pauli.entries]
  | y =>
    refine ⟨.x, true, ?_⟩
    funext a b
    cases a <;> cases b <;> simp [after, mono, Pauli.entries]
  | z =>
    refine ⟨.z, false, ?_⟩
    funext a b
    cases a <;> cases b <;> simp [after, mono, Pauli.entries]

theorem turnClifford (root : Complex.exp (angle * Complex.I) ^ 4 = 1) : (mono (turn angle) false).Clifford := by
  have join {f g : ℂ} (first : (mono (fun b => if b then f else 1) false).Clifford)
      (second : (mono (fun b => if b then g else 1) false).Clifford) :
      (mono (fun b => if b then f * g else 1) false).Clifford := by
    have product : mono (fun b => if b then f * g else 1) false =
        (mono (fun b => if b then f else 1) false).after (mono (fun b => if b then g else 1) false) := by
      rw [monoAfter]
      funext a b
      cases a <;> simp [mono]
    rw [product]
    exact first.after second
  have half : (mono (fun b => if b then -1 else 1) false).Clifford := by
    simpa using join quarterPhaseClifford quarterPhaseClifford
  unfold turn
  rcases fourthRoot root with phase | phase | phase | phase
  · rw [phase]
    simpa using join half half
  · rw [phase]
    exact half
  · rw [phase]
    exact quarterPhaseClifford
  · rw [phase]
    simpa using join half quarterPhaseClifford

theorem rzClifford (root : Complex.exp (angle * Complex.I) ^ 4 = 1) : (mono (rz angle) false).Clifford := by
  have same : mono (rz angle) false =
      fun a b => Complex.exp (-(angle / 2 : ℝ) * Complex.I) * mono (turn angle) false a b := by
    funext a b
    simp only [mono, rzTurn, mul_ite, mul_zero]
  rw [same]
  exact (turnClifford root).scaled

theorem hadamardClifford : (j 0).Clifford := by
  intro p
  cases p with
  | x =>
    refine ⟨.z, false, ?_⟩
    funext a b
    cases a <;> cases b <;> simp [after, mono, Pauli.entries, j]
  | y =>
    refine ⟨.y, true, ?_⟩
    funext a b
    cases a <;> cases b <;> simp [after, mono, Pauli.entries, j, mul_comm]
  | z =>
    refine ⟨.x, false, ?_⟩
    funext a b
    cases a <;> cases b <;> simp [after, mono, Pauli.entries, j]

theorem rxClifford (root : Complex.exp (angle * Complex.I) ^ 4 = 1) : (rx angle).Clifford := by
  rw [← rzBetween]
  exact hadamardClifford.after ((rzClifford root).after hadamardClifford)

namespace Clifford

theorem imageZ (clifford : m.Clifford) (special : m.Special) : m true false = 0 ∨ m true true = 0 ∨
    ∃ f : ℂ, f ^ 4 = 1 ∧ m true false = f * conj (m true true) := by
  obtain ⟨q, s, image⟩ := clifford .z
  have left := congrFun (congrFun image true) false
  have high := congrFun (congrFun image true) true
  cases q with
  | x =>
    refine .inr (.inr ⟨sign s, signRoot, ?_⟩)
    simpa [Entries.after, mono, Pauli.entries, special.diagonal] using left
  | y =>
    refine .inr (.inr ⟨sign s * Complex.I, quarterRoot, ?_⟩)
    simpa [Entries.after, mono, Pauli.entries, special.diagonal, mul_assoc] using left
  | z =>
    cases s with
    | false => exact .inl (by simpa [Entries.after, mono, Pauli.entries, self_eq_neg] using left)
    | true => exact .inr (.inl (by simpa [Entries.after, mono, Pauli.entries, neg_eq_self] using high))

theorem imageX (clifford : m.Clifford) (special : m.Special) :
    (∃ f : ℂ, f ^ 4 = 1 ∧ conj (m true true) = f * m true true ∧ conj (m true false) = -f * m true false) ∨
      ∃ f : ℂ, f ^ 4 = 1 ∧ m true false = f * m true true := by
  obtain ⟨q, s, image⟩ := clifford .x
  have low := congrFun (congrFun image false) false
  have right := congrFun (congrFun image false) true
  have high := congrFun (congrFun image true) true
  cases q with
  | x =>
    refine .inl ⟨sign s, signRoot, ?_, ?_⟩
    · simpa [Entries.after, mono, Pauli.entries, special.diagonal] using right
    · simpa [Entries.after, mono, Pauli.entries, special.beside, neg_eq_iff_eq_neg] using low
  | y =>
    refine .inl ⟨-(sign s * Complex.I), negRoot quarterRoot, ?_, ?_⟩
    · simpa [Entries.after, mono, Pauli.entries, special.diagonal, mul_assoc] using right
    · simpa [Entries.after, mono, Pauli.entries, special.beside, mul_assoc] using low
  | z =>
    refine .inr ⟨-sign s, negRoot signRoot, ?_⟩
    simpa [Entries.after, mono, Pauli.entries] using high

theorem rootDiagonal (clifford : m.Clifford) (special : m.Special) (beside : m true false = 0) :
    m true true ^ 8 = 1 := by
  have det := special.det
  rw [special.diagonal, beside, mul_zero, sub_zero] at det
  rcases clifford.imageX special with ⟨f, root, turned, _⟩ | ⟨f, root, same⟩
  · rw [turned] at det
    have fourth : (f * m true true * m true true) ^ 4 = 1 := by rw [det, one_pow]
    linear_combination fourth - m true true ^ 8 * root
  · rw [beside] at same
    have none : f = 0 ∨ m true true = 0 := mul_eq_zero.mp same.symm
    rcases none with none | none
    · simp [none] at root
    · simp [none] at det

theorem rootBeside (clifford : m.Clifford) (special : m.Special) (diagonal : m true true = 0) :
    m true false ^ 8 = 1 := by
  have det := special.det
  rw [special.beside, diagonal, mul_zero, zero_sub, neg_mul, neg_neg] at det
  rcases clifford.imageX special with ⟨f, root, _, turned⟩ | ⟨f, root, same⟩
  · rw [turned] at det
    have fourth : (-f * m true false * m true false) ^ 4 = 1 := by rw [det, one_pow]
    linear_combination fourth - m true false ^ 8 * root
  · rw [diagonal, mul_zero] at same
    simp [same] at det

theorem rootFull (clifford : m.Clifford) (special : m.Special) {x y : ℝ} {p q : ℂ}
    (high : m true true = x * p) (left : m true false = -Complex.I * y * q) (cosine : x ≠ 0) (sine : y ≠ 0)
    (unit : ‖p‖ = 1) (other : ‖q‖ = 1) : y ^ 2 = x ^ 2 ∧ (p * q) ^ 4 = 1 ∧ p ^ 4 = q ^ 4 := by
  have cosine' : (x : ℂ) ≠ 0 := by exact_mod_cast cosine
  have sine' : (y : ℂ) ≠ 0 := by exact_mod_cast sine
  have phase : p ≠ 0 := norm_ne_zero_iff.mp (by rw [unit]; exact one_ne_zero)
  have phase' : q ≠ 0 := norm_ne_zero_iff.mp (by rw [other]; exact one_ne_zero)
  have back : conj p * p = 1 := by rw [← Complex.inv_eq_conj unit, inv_mul_cancel₀ phase]
  rcases clifford.imageZ special with zero | zero | ⟨f, root, image⟩
  · rw [left] at zero
    simp [sine', phase'] at zero
  · rw [high] at zero
    simp [cosine', phase] at zero
  rw [left, high, map_mul, Complex.conj_ofReal] at image
  have size : y ^ 2 = x ^ 2 := by
    have norms := congrArg (‖·‖) image
    simp only [norm_mul, norm_neg, Complex.norm_I, Complex.norm_conj, unit, other, Complex.norm_real,
      Complex.norm_eq_one_of_pow_eq_one root four_ne_zero, one_mul, mul_one, Real.norm_eq_abs] at norms
    rw [← sq_abs, norms, sq_abs]
  have both : (p * q) ^ 4 = 1 := by
    have meet : -Complex.I * y * (p * q) = f * (x * 1) := by linear_combination p * image + f * x * back
    rw [sameFourth root size cosine meet, one_pow]
  refine ⟨size, both, ?_⟩
  rcases clifford.imageX special with ⟨g, root, turned, _⟩ | ⟨g, root, same⟩
  · rw [high, map_mul, Complex.conj_ofReal, mul_left_comm, mul_right_inj' cosine'] at turned
    have square : g * (p * p) = 1 := by rw [← back, turned, mul_assoc]
    have eighth : p ^ 4 * p ^ 4 = 1 := by
      linear_combination (congrArg (· ^ 4) square) - p ^ 8 * root
    refine mul_left_cancel₀ (pow_ne_zero 4 phase) ?_
    rw [eighth, ← mul_pow, both]
  · rw [left, high] at same
    exact (sameFourth root size cosine same).symm

end Clifford

end Entries

namespace LocalUnitary
open Scalar
variable {u : LocalUnitary ℝ} {m : Entries}

theorem quarterHalf {x y : ℝ} :
    Complex.exp ((half (x + y) : ℝ) * Complex.I) = Complex.exp ((half x : ℝ) * Complex.I) *
      Complex.exp ((half y : ℝ) * Complex.I) := by
  rw [← Complex.exp_add]
  congr 1
  simp only [halfReal]
  push_cast
  ring

theorem quarterTwice {z : ℂ} (size : ‖z‖ = 1) (root : z ^ 8 = 1) :
    Angle.isClifford (two * z.arg : ℝ) angleTol = true := by
  have twice : Complex.exp ((two * z.arg : ℝ) * Complex.I) = z ^ 2 := by
    rw [← unitPolar size, ← Complex.exp_nat_mul, unitPolar size, twoReal]
    congr 1
    push_cast
    ring
  rw [Angle.quarterTurn, twice, ← pow_mul, root]

theorem eighthEven {c s : ℝ} (size : ‖Complex.mk c s‖ = 1) (even : s ^ 2 = c ^ 2) : Complex.mk c s ^ 8 = 1 := by
  have whole : c * c + s * s = 1 := by
    rw [← Complex.normSq_mk, Complex.normSq_eq_norm_sq, size, one_pow]
  have whole : (c : ℂ) * c + s * s = 1 := by exact_mod_cast whole
  have even : (s : ℂ) ^ 2 = c ^ 2 := by exact_mod_cast even
  have unit := Complex.I_mul_I
  have square : Complex.mk c s ^ 2 = 2 * c * s * Complex.I := by
    rw [Complex.mk_eq_add_mul_I]
    linear_combination -even + (s ^ 2 : ℂ) * unit
  have fourth : (Complex.mk c s ^ 2) ^ 2 = -1 := by
    rw [square]
    linear_combination (4 * c ^ 2 * s ^ 2 : ℂ) * unit - (c * c + s * s + 1) * whole + (s ^ 2 - c ^ 2 : ℂ) * even
  calc Complex.mk c s ^ 8 = ((Complex.mk c s ^ 2) ^ 2) ^ 2 := by ring
    _ = 1 := by rw [fourth, neg_one_sq]

theorem Angles.quarters (special : m.Special) (clifford : m.Clifford) (angles : Angles m u) :
    Angle.isClifford u.alpha angleTol ∧ Angle.isClifford u.beta angleTol ∧
      Angle.isClifford u.gamma angleTol := by
  cases angles with
  | diagonal beside =>
    exact ⟨Angle.zeroClifford, Angle.zeroClifford,
      quarterTwice (sizeDiagonal special beside) (clifford.rootDiagonal special beside)⟩
  | beside diagonal some =>
    have root : (m false true / -Complex.I) ^ 8 = 1 := by
      have even : Even 8 := by decide
      have unit : Complex.I ^ 8 = 1 := by
        rw [show 8 = 4 * 2 from rfl, pow_mul, Complex.I_pow_four, one_pow]
      rw [special.beside, div_pow, even.neg_pow, even.neg_pow, unit, div_one, ← map_pow,
        clifford.rootBeside special diagonal, map_one]
    exact ⟨Angle.zeroClifford, Angle.straightClifford, quarterTwice (sizeBeside special diagonal) root⟩
  | @full p q c s high left cosine sine =>
    have unit (t : ℝ) : ‖Complex.exp (t * Complex.I)‖ = 1 := Complex.norm_exp_ofReal_mul_I t
    obtain ⟨even, both, same⟩ := clifford.rootFull special high left cosine sine (unit _) (unit _)
    refine ⟨?_, ?_, ?_⟩
    · have back : Complex.exp ((half (-q) : ℝ) * Complex.I) = (Complex.exp ((half q : ℝ) * Complex.I))⁻¹ := by
        rw [← Complex.exp_neg, ← neg_mul]
        congr 2
        simp only [halfReal]
        push_cast
        ring
      rw [Angle.quarterTurn, sub_eq_add_neg, quarterHalf, back, mul_pow, inv_pow, same,
        mul_inv_cancel₀ (pow_ne_zero 4 (Complex.exp_ne_zero _))]
    · exact quarterTwice (sizeFull special high left (unit _) (unit _))
        (eighthEven (sizeFull special high left (unit _) (unit _)) even)
    · rw [Angle.quarterTurn, quarterHalf, both]

end LocalUnitary

namespace LocalClifford
variable {c d : LocalClifford ℝ}

theorem entriesClifford : c.unitary.entries.Clifford := by
  obtain ⟨alpha, beta, gamma⟩ := c.clifford
  exact ((Entries.rzClifford (Angle.quarterTurn.mp gamma)).after
    (Entries.rxClifford (Angle.quarterTurn.mp beta))).after (Entries.rzClifford (Angle.quarterTurn.mp alpha))

/- The product is always found, but transposed where its diagonal is zero. -/
theorem afterMirrored (c d : LocalClifford ℝ) : ∃ joined, c.after d = .ok joined ∧
    joined.unitary.entries = (c.unitary.entries.after d.unitary.entries).mirrored := by
  obtain ⟨left, found, shown⟩ := LocalUnitary.matrixShows (u := c.unitary)
  obtain ⟨right, found', shown'⟩ := LocalUnitary.matrixShows (u := d.unitary)
  have special : (c.unitary.entries.after d.unitary.entries).Special :=
    LocalUnitary.entriesSpecial.after LocalUnitary.entriesSpecial
  obtain ⟨u, decomposed, angles⟩ := LocalUnitary.ofMatrixAngles (shown.mul shown') special
  have quarters := angles.quarters special (entriesClifford.after entriesClifford)
  refine ⟨⟨u, quarters⟩, ?_, angles.entries special⟩
  refine Result.bindOk.mpr ⟨left, found, Result.bindOk.mpr ⟨right, found', ?_⟩⟩
  refine Result.bindOk.mpr ⟨u, decomposed, ?_⟩
  rw [ofUnitary, dif_pos quarters]

end LocalClifford
end OneWay
