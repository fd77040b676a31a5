import Mathlib.Analysis.SpecialFunctions.Complex.Arg
import OneWay.Proofs.Meaning

/-! Operators that change the label of one target in a way that the other labels choose: a matrix of two
rows and columns for each of them. Such blocks on one target are multiplied label by label, and the
matrix of a controlled gate is one. -/
namespace OneWay

abbrev Entries := Bool → Bool → ℂ

namespace Entries

def after (m n : Entries) : Entries := fun a b => m a false * n false b + m a true * n true b

/- One entry in each row: `d` gives them, and they stand beside the diagonal if `k` says so. -/
def mono (d : Bool → ℂ) (k : Bool) : Entries := fun a b => if xor a k = b then d a else 0

noncomputable def turn (angle : ℝ) (b : Bool) : ℂ := if b then Complex.exp (angle * Complex.I) else 1

noncomputable def j (angle : ℝ) : Entries := fun a b =>
  (√(Scalar.two : ℝ) : ℂ)⁻¹ * (if b then Complex.exp (angle * Complex.I) * sign a else 1)

noncomputable def rx (angle : ℝ) : Entries := fun a b =>
  if a = b then Complex.cos (Scalar.half angle : ℝ) else -Complex.I * Complex.sin (Scalar.half angle : ℝ)

noncomputable def ry (angle : ℝ) : Entries := fun a b =>
  if a = b then Complex.cos (Scalar.half angle : ℝ) else -sign a * Complex.sin (Scalar.half angle : ℝ)

noncomputable def u3 (theta phi lambda : ℝ) : Entries := fun a b =>
  turn phi a * ry theta a b * turn lambda b

@[simp] theorem turnFalse {angle : ℝ} : turn angle false = 1 := rfl

theorem turnTrue {angle : ℝ} : turn angle true = Complex.exp (angle * Complex.I) := rfl

@[simp] theorem turnZero {b : Bool} : turn 0 b = 1 := by
  cases b <;> simp [turn]

theorem turnAdd {x y : ℝ} {b : Bool} : turn (x + y) b = turn x b * turn y b := by
  cases b with
  | false => simp
  | true => rw [turnTrue, turnTrue, turnTrue, ← Complex.exp_add, Complex.ofReal_add, add_mul]

theorem afterAssoc {l m n : Entries} : (l.after m).after n = l.after (m.after n) := by
  funext a b
  simp only [after]
  ring

def on (m : Entries) (ψ : Bool → ℂ) : Bool → ℂ := fun a => m a false * ψ false + m a true * ψ true

theorem onAfter {m n : Entries} {ψ : Bool → ℂ} : (m.after n).on ψ = m.on (n.on ψ) := by
  funext a
  simp only [on, after]
  ring

theorem onScaled {m : Entries} {ψ : Bool → ℂ} {s : ℂ} : on (fun a b => s * m a b) ψ = s • m.on ψ := by
  funext a
  simp only [on, Pi.smul_apply, smul_eq_mul]
  ring

theorem monoAfter {d e : Bool → ℂ} {k l : Bool} :
    (mono d k).after (mono e l) = mono (fun a => d a * e (xor a k)) (xor k l) := by
  funext a b
  cases a <;> cases b <;> cases k <;> cases l <;> simp [after, mono]

theorem flipAfter {m : Entries} {k : Bool} :
    (mono (fun _ => 1) k).after m = fun a b => m (xor a k) b := by
  funext a b
  cases a <;> cases k <;> simp [after, mono]

theorem afterMono {m : Entries} {d : Bool → ℂ} {k : Bool} :
    m.after (mono d k) = fun a b => m a (xor b k) * d (xor b k) := by
  funext a b
  cases b <;> cases k <;> simp [after, mono]

theorem monoOneAfter {m : Entries} : (mono (fun _ => 1) false).after m = m := by
  simpa using flipAfter (m := m) (k := false)

theorem factorPast {f : ℂ} {m n : Entries} :
    (mono (fun _ => f) false).after (m.after n) = m.after ((mono (fun _ => f) false).after n) := by
  funext a b
  cases a <;> simp [after, mono] <;> ring

theorem rootTwice : (√2 : ℂ)⁻¹ * (√2 : ℂ)⁻¹ = 1 / 2 := by
  have square : (√2 : ℂ) * √2 = 2 := by
    rw [← Complex.ofReal_mul, Real.mul_self_sqrt (by norm_num)]
    norm_num
  rw [← mul_inv, square, one_div]

theorem halfTurn {angle : ℝ} {a b : Bool} :
    (1 + Complex.exp (angle * Complex.I) * (sign a * sign b)) / 2 =
      Complex.exp ((angle / 2 : ℝ) * Complex.I) * rx angle a b := by
  have whole : Complex.exp (angle * Complex.I) =
      Complex.exp ((angle / 2 : ℝ) * Complex.I) * Complex.exp ((angle / 2 : ℝ) * Complex.I) := by
    rw [← Complex.exp_add]
    congr 1
    push_cast
    ring
  have half : ((angle / 2 : ℝ) : ℂ) = (angle : ℂ) / 2 := by
    push_cast
    rfl
  have circle : Complex.cos (angle / 2) ^ 2 + Complex.sin (angle / 2) ^ 2 = 1 :=
    Complex.cos_sq_add_sin_sq _
  have square := Complex.I_mul_I
  rw [whole, half, Complex.exp_mul_I]
  cases a <;> cases b <;> simp [rx] <;>
    linear_combination (-1 / 2 : ℂ) * circle + (Complex.sin (angle / 2) ^ 2 / 2) * square

theorem jTwice {first second : ℝ} : (j second).after (j first) =
    fun a b => Complex.exp ((second / 2 : ℝ) * Complex.I) * rx second a b * turn first b := by
  funext a b
  rw [← halfTurn]
  have scale := rootTwice
  cases b with
  | false =>
    simp only [after, j, turn]
    simp
    linear_combination (1 + Complex.exp (second * Complex.I) * sign a) * scale
  | true =>
    simp only [after, j, turn]
    simp
    linear_combination (Complex.exp (first * Complex.I)) *
      (1 - Complex.exp (second * Complex.I) * sign a) * scale

theorem rxZero : rx 0 = mono (fun _ => 1) false := by
  funext a b
  cases a <;> cases b <;> simp [rx, mono]

theorem jZeroAfter {angle : ℝ} : (j 0).after (j angle) = mono (turn angle) false := by
  rw [jTwice, rxZero]
  funext a b
  cases a <;> cases b <;> simp [mono]

theorem jZeroTwice : (j 0).after (j 0) = mono (fun _ => 1) false := by
  rw [jZeroAfter]
  exact congrArg (mono · false) (funext fun _ => turnZero)

theorem signBetween {k : Bool} :
    (j 0).after ((mono (fun b => sign (k && b)) false).after (j 0)) = mono (fun _ => 1) k := by
  cases k with
  | false =>
    have none : mono (fun b => sign (false && b)) false = mono (fun _ => 1) false := by simp
    rw [none, monoOneAfter, jZeroTwice]
  | true =>
    have scale := rootTwice
    funext a b
    cases a <;> cases b <;> simp [after, mono, j] <;> linear_combination 2 * scale

theorem flipBetween {k : Bool} :
    (j 0).after ((mono (fun _ => 1) k).after (j 0)) = mono (fun b => sign (k && b)) false := by
  have back (m : Entries) : m.after (mono (fun _ => 1) false) = m := by
    funext a b
    cases b <;> simp [after, mono]
  rw [← signBetween, afterAssoc, afterAssoc, jZeroTwice, back, ← afterAssoc, jZeroTwice, monoOneAfter]

theorem jZeroTurn {angle : ℝ} : (j 0).after (mono (turn angle) false) = j angle := by
  funext a b
  cases b <;> simp [after, mono, j, turn]
  ring

noncomputable def rz (angle : ℝ) (b : Bool) : ℂ :=
  Complex.exp ((if b then Scalar.half angle else -Scalar.half angle : ℝ) * Complex.I)

theorem rzTurn {angle : ℝ} {b : Bool} :
    rz angle b = Complex.exp (-(angle / 2 : ℝ) * Complex.I) * turn angle b := by
  cases b with
  | false => simp [rz]
  | true =>
    simp only [rz, if_true, turn, Scalar.halfReal]
    rw [← Complex.exp_add]
    congr 1
    push_cast
    ring

theorem rzBetween {angle : ℝ} : (j 0).after ((mono (rz angle) false).after (j 0)) = rx angle := by
  have scaled : (j 0).after ((mono (rz angle) false).after (j 0)) = fun a b =>
      Complex.exp (-(angle / 2 : ℝ) * Complex.I) *
        ((j 0).after ((mono (turn angle) false).after (j 0))) a b := by
    funext a b
    simp only [after, mono, rzTurn]
    cases a <;> cases b <;> simp <;> ring
  have unit : Complex.exp (-(angle / 2 : ℝ) * Complex.I) * Complex.exp ((angle / 2 : ℝ) * Complex.I) = 1 := by
    rw [← Complex.exp_add, neg_mul, neg_add_cancel, Complex.exp_zero]
  rw [scaled, ← afterAssoc, jZeroTurn, jTwice]
  funext a b
  simp only [turnZero, mul_one]
  rw [← mul_assoc, unit, one_mul]

theorem u3Of {theta phi lambda : ℝ} :
    (mono (turn (phi + Real.pi / 2)) false).after
      ((j theta).after (j (lambda - Real.pi / 2))) =
        fun a b => Complex.exp ((theta / 2 : ℝ) * Complex.I) * u3 theta phi lambda a b := by
  have ahead : turn (Real.pi / 2) true = Complex.I := by
    rw [turnTrue]
    push_cast
    exact Complex.exp_pi_div_two_mul_I
  have behind : turn (-(Real.pi / 2)) true = -Complex.I := by
    rw [turnTrue]
    push_cast
    rw [neg_mul, Complex.exp_neg, Complex.exp_pi_div_two_mul_I, Complex.inv_I]
  have square := Complex.I_mul_I
  rw [jTwice]
  funext a b
  rw [sub_eq_add_neg]
  cases a <;> cases b <;> simp [after, mono, u3, rx, ry, turnAdd, ahead, behind] <;> grind

theorem ryTwice (angle : ℝ) (k : Bool) :
    (ry angle).after (fun a b => ry (-angle) (xor a k) (xor b k)) =
      if k then ry (2 * angle) else mono (fun _ => 1) false := by
  have circle := Complex.cos_sq_add_sin_sq (angle / 2)
  have cosine := Complex.cos_two_mul (angle / 2)
  have sine := Complex.sin_two_mul (angle / 2)
  rw [mul_div_cancel₀ _ two_ne_zero] at cosine sine
  funext a b
  cases k <;> cases a <;> cases b <;> simp [after, ry, mono, neg_div] <;> grind

end Entries

namespace Operator
open Tensor (withBits placeOn withBitsPlace)
variable {φ : State} {z : Labelling} {t : Int} {m n : Labelling → Entries}

theorem inTurnAppend {us vs : List Operator} : inTurn (us ++ vs) = inTurn vs * inTurn us := by
  simp [inTurn]

def block (t : Int) (m : Labelling → Entries) : Operator where
  toFun φ z := m z (z t) false * φ (Function.update z t false) + m z (z t) true * φ (Function.update z t true)
  map_add' φ ψ := by
    funext z
    simp only [Pi.add_apply]
    ring
  map_smul' c φ := by
    funext z
    simp only [Pi.smul_apply, smul_eq_mul, RingHom.id_apply]
    ring

theorem blockApply : block t m φ z = m z (z t) false * φ (Function.update z t false) +
    m z (z t) true * φ (Function.update z t true) := rfl

theorem blockAfter (blind : ∀ z b, n (Function.update z t b) = n z) :
    block t m * block t n = block t fun z => (m z).after (n z) := by
  refine LinearMap.ext fun φ => funext fun z => ?_
  simp only [Module.End.mul_apply, blockApply, blind, Function.update_self, Function.update_idem,
    Entries.after]
  ring

theorem blockDiagonal {d : Labelling → Bool → ℂ} :
    block t (fun z => .mono (d z) false) φ z = d z (z t) * φ z := by
  have here (b : Bool) (label : z t = b) : Function.update z t b = z := by
    rw [← label, Function.update_eq_self]
  rw [blockApply]
  cases label : z t with
  | false => simp [Entries.mono, here false label]
  | true => simp [Entries.mono, here true label]

theorem actBlock {m : Matrix ℝ} :
    act m [t] = block t fun _ a b => (m.entry a.toNat b.toNat).toComplex :=
  LinearMap.ext fun _ => funext fun _ => actOne

theorem placeFull {n : Nat} {x : Tensor.Label} :
    Tensor.placeOf n x + 1 = 2 ^ n ↔ ∀ i < n, x i = true := by
  induction n with
  | zero => simp [Tensor.placeOf]
  | succ n ih =>
    have below : Tensor.placeOf n x < 2 ^ n := Tensor.placeLt
    rw [Tensor.placeSucc, pow_succ, Nat.forall_lt_succ_right, ← ih]
    cases x n with
    | false => simp; omega
    | true => simp; omega

theorem placeOnSnoc {cs : List Int} :
    placeOn (cs ++ [t]) z = 2 * placeOn cs z + (z t).toNat := by
  rw [placeOn, List.length_append, List.length_singleton, Tensor.placeSucc, placeOn]
  have last : ((cs ++ [t]).map z).getD cs.length false = z t := by simp
  have same : Tensor.placeOf cs.length (fun i => ((cs ++ [t]).map z).getD i false) =
      Tensor.placeOf cs.length fun i => (cs.map z).getD i false :=
    Tensor.placeCongr fun i inside => by
      rw [List.map_append, List.getD_append _ _ _ _ (by simpa using inside)]
  rw [last, same]

theorem placeOnFull {cs : List Int} : placeOn cs z + 1 = 2 ^ cs.length ↔ cs.all (z ·) = true := by
  rw [placeOn, placeFull, List.all_eq_true]
  constructor
  · intro each q mem
    obtain ⟨i, inside, rfl⟩ := List.mem_iff_getElem.mp mem
    simpa [inside] using each i inside
  · intro each i inside
    simpa [inside] using each _ (List.getElem_mem inside)

theorem withBitsOther {qs : List Int} {w : Labelling} (same : ∀ q ∉ qs, z q = w q) :
    withBits qs (placeOn qs w) z = w := by
  have own : withBits qs (placeOn qs w) z = withBits qs (placeOn qs w) w := by
    funext q
    simp only [withBits]
    split
    · rfl
    · rename_i absent
      exact same q (List.idxOf?_eq_none_iff.mp absent)
  rw [own, withBitsPlace]

section
variable {u : Matrix ℝ} {cs : List Int}

theorem controlledRow (rows : u.rows = 2) {j : Nat} (column : j < 2 ^ (cs.length + 1)) :
    (Gate.controlled (2 ^ (cs.length + 1)) u).entry (placeOn (cs ++ [t]) z) j =
      if 2 ^ (cs.length + 1) - 2 ≤ placeOn (cs ++ [t]) z ∧ 2 ^ (cs.length + 1) - 2 ≤ j then
        u.entry (placeOn (cs ++ [t]) z - (2 ^ (cs.length + 1) - 2)) (j - (2 ^ (cs.length + 1) - 2))
      else if placeOn (cs ++ [t]) z = j then 1 else 0 := by
  have inside : placeOn (cs ++ [t]) z < 2 ^ (cs ++ [t]).length := Tensor.placeLt
  rw [List.length_append, List.length_singleton] at inside
  rw [Gate.controlled, rows, Matrix.entryOfFn inside column]

theorem controlledIdle (rows : u.rows = 2) (idle : ¬ cs.all (z ·) = true) :
    act (Gate.controlled (2 ^ (cs.length + 1)) u) (cs ++ [t]) φ z = φ z := by
  have length : (cs ++ [t]).length = cs.length + 1 := by simp
  have inside : placeOn (cs ++ [t]) z < 2 ^ (cs.length + 1) := length ▸ Tensor.placeLt
  have short : ¬ 2 ^ (cs.length + 1) - 2 ≤ placeOn (cs ++ [t]) z := by
    have below : placeOn cs z < 2 ^ cs.length := Tensor.placeLt
    have lower : placeOn cs z + 1 ≠ 2 ^ cs.length := fun last => idle (placeOnFull.mp last)
    have bit := Bool.toNat_lt (z t)
    rw [placeOnSnoc, pow_succ]
    omega
  rw [actApply, length, Finset.sum_eq_single (placeOn (cs ++ [t]) z)]
  · rw [controlledRow rows inside, if_neg fun h => short h.1, if_pos rfl, withBitsPlace,
      Amplitude.toComplexOne, one_mul]
  · intro place mem other
    rw [controlledRow rows (Finset.mem_range.mp mem), if_neg fun h => short h.1, if_neg (Ne.symm other),
      Amplitude.toComplexZero, zero_mul]
  · exact fun absent => absurd (Finset.mem_range.mpr inside) absent

theorem placeOnSet (full : cs.all (z ·) = true) :
    placeOn (cs ++ [t]) z = 2 ^ (cs.length + 1) - 2 + (z t).toNat := by
  have last := placeOnFull.mpr full
  rw [placeOnSnoc, pow_succ]
  omega

theorem withBitsSet (fresh : t ∉ cs) (full : cs.all (z ·) = true) (b : Bool) :
    withBits (cs ++ [t]) (2 ^ (cs.length + 1) - 2 + b.toNat) z = Function.update z t b := by
  have still : cs.all (Function.update z t b ·) = true := by
    rw [List.all_eq_true] at full ⊢
    intro q mem
    have apart : q ≠ t := fun same => fresh (same ▸ mem)
    rw [Function.update_of_ne apart]
    exact full q mem
  have place := placeOnSet (t := t) still
  rw [Function.update_self] at place
  rw [← place]
  refine withBitsOther fun q absent => ?_
  have apart : q ≠ t := fun same => absent (by simp [same])
  rw [Function.update_of_ne apart]

theorem controlledFull (rows : u.rows = 2) (fresh : t ∉ cs) (full : cs.all (z ·) = true) :
    act (Gate.controlled (2 ^ (cs.length + 1)) u) (cs ++ [t]) φ z =
      (u.entry (z t).toNat 0).toComplex * φ (Function.update z t false) +
        (u.entry (z t).toNat 1).toComplex * φ (Function.update z t true) := by
  have length : (cs ++ [t]).length = cs.length + 1 := by simp
  have size : 2 ^ (cs.length + 1) = 2 ^ (cs.length + 1) - 2 + 1 + 1 := by
    have : 2 ^ 1 ≤ 2 ^ (cs.length + 1) := Nat.pow_le_pow_right (by omega) (by omega)
    omega
  have row := placeOnSet (t := t) full
  have none : ∀ place ∈ Finset.range (2 ^ (cs.length + 1) - 2),
      ((Gate.controlled (2 ^ (cs.length + 1)) u).entry (placeOn (cs ++ [t]) z) place).toComplex *
        φ (withBits (cs ++ [t]) place z) = 0 := by
    intro place mem
    have short := Finset.mem_range.mp mem
    have other : placeOn (cs ++ [t]) z ≠ place := by omega
    rw [controlledRow rows (by omega), if_neg fun h => by omega, if_neg other, Amplitude.toComplexZero,
      zero_mul]
  have one (b : Bool) :
      ((Gate.controlled (2 ^ (cs.length + 1)) u).entry (placeOn (cs ++ [t]) z)
        (2 ^ (cs.length + 1) - 2 + b.toNat)).toComplex = (u.entry (z t).toNat b.toNat).toComplex := by
    have bit := Bool.toNat_lt b
    rw [controlledRow rows (by omega), if_pos (by omega), row, Nat.add_sub_cancel_left,
      Nat.add_sub_cancel_left]
  rw [actApply, length]
  nth_rewrite 1 [size]
  rw [Finset.sum_range_succ, Finset.sum_range_succ, Finset.sum_eq_zero none, zero_add]
  exact congrArg₂ (· + ·)
    (congrArg₂ (· * ·) (one false) (congrArg φ (withBitsSet fresh full false)))
    (congrArg₂ (· * ·) (one true) (congrArg φ (withBitsSet fresh full true)))

theorem controlledBlock (cs : List Int) (rows : u.rows = 2) (fresh : t ∉ cs) :
    act (Gate.controlled (2 ^ (cs.length + 1)) u) (cs ++ [t]) = block t fun z =>
      if cs.all (z ·) then fun a b => (u.entry a.toNat b.toNat).toComplex
      else .mono (fun _ => 1) false := by
  refine LinearMap.ext fun φ => funext fun z => ?_
  by_cases full : cs.all (z ·) = true
  · rw [controlledFull rows fresh full, blockApply, if_pos full]
    rfl
  · rw [controlledIdle rows full, blockApply, if_neg full,
      ← blockApply (m := fun _ => .mono (fun _ => 1) false), blockDiagonal, one_mul]

end

def Alike (u v : Operator) : Prop := ∃ angle : ℝ, u = Complex.exp (angle * Complex.I) • v

theorem alikeSelf {u : Operator} : Alike u u := ⟨0, by simp⟩

theorem Alike.mul {u v u' v' : Operator} (first : Alike u v) (second : Alike u' v') :
    Alike (u * u') (v * v') := by
  obtain ⟨x, rfl⟩ := first
  obtain ⟨y, rfl⟩ := second
  refine ⟨x + y, ?_⟩
  rw [smul_mul_smul_comm, ← Complex.exp_add, Complex.ofReal_add, add_mul]

end Operator

end OneWay
