import OneWay.Proofs.Labels

/-! Products of registers. The axes of the two factors are matched from the last backwards and
interleaved, so that the qubits of the first register come before those of the second only if the first
has none or the second at most one. -/
namespace OneWay

namespace Tensor
variable {R : Type} [Scalar R] {a b : Tensor R} {n m i : Nat} {x y : Label}

def leftAxis (n m i : Nat) : Nat := if i < n - m then i else n - m + (m - n) + 2 * (i - (n - m))

def rightAxis (n m i : Nat) : Nat := if i < m - n then i else n - m + (m - n) + 2 * (i - (m - n)) + 1

theorem leftLt (inside : i < n) : leftAxis n m i < n + m := by
  unfold leftAxis
  split <;> omega

theorem rightLt (inside : i < m) : rightAxis n m i < n + m := by
  unfold rightAxis
  split <;> omega

theorem getInterleave : (a.interleave b).get x =
    a.get (x ∘ leftAxis a.axes b.axes) * b.get (x ∘ rightAxis a.axes b.axes) := by
  refine getOfFn fun y same => ?_
  have left : a.get (y ∘ leftAxis a.axes b.axes) = a.get (x ∘ leftAxis a.axes b.axes) :=
    getCongr fun i inside => same _ (leftLt inside)
  have right : b.get (y ∘ rightAxis a.axes b.axes) = b.get (x ∘ rightAxis a.axes b.axes) :=
    getCongr fun i inside => same _ (rightLt inside)
  exact congr (congrArg _ left) right

theorem axesFollow (few : n = 0 ∨ m ≤ 1) :
    (∀ i < n, leftAxis n m i = i) ∧ ∀ i < m, rightAxis n m i = n + i := by
  constructor
  · intro i inside
    unfold leftAxis
    split <;> omega
  · intro i inside
    unfold rightAxis
    split <;> omega

theorem leftMoved (some : 0 < n) (many : 1 < m) : ∃ i < n, leftAxis n m i ≠ i := by
  unfold leftAxis
  by_cases wide : n < m
  · exact ⟨0, some, by rw [if_neg (by omega)]; omega⟩
  · exact ⟨n - m + 1, by omega, by rw [if_neg (by omega)]; omega⟩

def followed (n : Nat) (x y : Label) : Label := fun i => if i < n then x i else y (i - n)

theorem followedLeft (inside : i < n) : followed n x y i = x i := if_pos inside

theorem followedRight : followed n x y (n + i) = y i := by
  rw [followed, if_neg (by omega), Nat.add_sub_cancel_left]

theorem getFollowed (few : a.axes = 0 ∨ b.axes ≤ 1) :
    (a.interleave b).get (followed a.axes x y) = a.get x * b.get y := by
  obtain ⟨left, right⟩ := axesFollow few
  have first : a.get (followed a.axes x y ∘ leftAxis a.axes b.axes) = a.get x :=
    getCongr fun i inside => by rw [Function.comp_apply, left i inside, followedLeft inside]
  have second : b.get (followed a.axes x y ∘ rightAxis a.axes b.axes) = b.get y :=
    getCongr fun i inside => by rw [Function.comp_apply, right i inside, followedRight]
  rw [getInterleave, first, second]

def forked (n axis : Nat) (c d : Amplitude R) : Tensor R := ofFn n fun x => if x axis then c else d

theorem getForked {axis : Nat} {c d : Amplitude R} (inside : axis < n) :
    (forked n axis c d).get x = if x axis then c else d :=
  getOfFn fun y same => by rw [same axis inside]

theorem getConst {e : Amplitude R} : (ofFn n fun _ => e).get x = e := getOfFn fun _ _ => rfl

end Tensor

namespace Register
open Tensor
variable {R : Type} {a b : Register R} {s t : Tensor R} {law : Tensor R → Tensor R → Tensor R → Prop}

theorem properOfTensor : (ofTensor t).Proper := QubitOrder.properIdentity t.axes

variable [Scalar R]

theorem stateOfTensor : (ofTensor t).state = .ok t := if_pos rfl

theorem productOk (first : a.state = .ok s) (second : b.state = .ok t) :
    a.product b = .ok (ofTensor (s.interleave t)) := by
  simp only [product, Result.bindOk, Result.pureOk]
  exact ⟨s, first, t, second, rfl⟩

def Multiplies (a b : Register R) (law : Tensor R → Tensor R → Tensor R → Prop) : Prop :=
  ∃ s t r u, a.state = .ok s ∧ b.state = .ok t ∧ a.product b = .ok r ∧ r.Proper ∧
    r.size = a.size + b.size ∧ r.state = .ok u ∧ law s t u

theorem Multiplies.shown (product : a.Multiplies b law) (first : a.state = .ok s) (second : b.state = .ok t) :
    law s t (s.interleave t) := by
  obtain ⟨_, _, r, u, left, right, run, _, _, shown, holds⟩ := product
  cases first.symm.trans left
  cases second.symm.trans right
  cases (productOk first second).symm.trans run
  cases stateOfTensor.symm.trans shown
  exact holds

theorem multiplies (first : a.Proper) (second : b.Proper)
    (holds : ∀ s t, s.axes = a.size → t.axes = b.size → law s t (s.interleave t)) : a.Multiplies b law :=
  ⟨_, _, _, _, first.stateOk, second.stateOk, productOk first.stateOk second.stateOk, properOfTensor, rfl,
    stateOfTensor, holds _ _ rfl rfl⟩

def Interleaves (a b : Register R) : Prop := a.Multiplies b fun s t u =>
  ∀ x, u.get x = s.get (x ∘ leftAxis a.size b.size) * t.get (x ∘ rightAxis a.size b.size)

def Juxtaposes (a b : Register R) : Prop := a.Multiplies b fun s t u =>
  ∀ x y, u.get (followed a.size x y) = s.get x * t.get y

theorem interleaves (first : a.Proper) (second : b.Proper) : a.Interleaves b :=
  multiplies first second fun s t left right x => by rw [getInterleave, left, right]

theorem juxtaposes (first : a.Proper) (second : b.Proper) (few : a.size = 0 ∨ b.size ≤ 1) :
    a.Juxtaposes b := by
  refine multiplies first second fun s t left right x y => ?_
  rw [← left, ← right] at few
  rw [← left]
  exact getFollowed few

theorem notJuxtaposed {n m : Nat} {c d e : Amplitude R} (apart : c * e ≠ d * e) (some : 0 < n)
    (many : 1 < m) :
    ∃ a b : Register R, a.Proper ∧ b.Proper ∧ a.size = n ∧ b.size = m ∧ ¬ a.Juxtaposes b := by
  obtain ⟨axis, inside, moved⟩ := leftMoved some many
  refine ⟨ofTensor (forked n axis c d), ofTensor (ofFn m fun _ => e), properOfTensor, properOfTensor, rfl,
    rfl, fun juxtaposes => ?_⟩
  have product := juxtaposes.shown stateOfTensor stateOfTensor
  -- a one on that axis alone, where the product does not look for it
  have off : followed n (fun i => i == axis) (fun _ => false) (leftAxis n m axis) = false := by
    unfold followed
    split
    · simpa using moved
    · rfl
  have held : (forked n axis c d).get (fun i => i == axis) = c := by
    rw [getForked inside]
    exact if_pos (beq_self_eq_true axis)
  have lost : (forked n axis c d).get (followed n (fun i => i == axis) (fun _ => false) ∘ leftAxis n m) =
      d := by
    rw [getForked inside]
    exact if_neg (Bool.eq_false_iff.mp off)
  have wanted := getInterleave.symm.trans (product (fun i => i == axis) fun _ => false)
  rw [getConst, getConst, held] at wanted
  exact apart (wanted.symm.trans (congrArg (· * e) lost))

/- Two registers always have a product, at whose labels stands the product of what the factors show at the
axes that they have in it. It shows the first register and then the second if the first has no qubits or
the second at most one, and for all other numbers of qubits there are registers for which it does not. -/
theorem productInterleaves (R : Type) [Scalar R] :
    (∀ a b : Register R, a.Proper → b.Proper → a.Interleaves b) ∧
    (∀ a b : Register R, a.Proper → b.Proper → a.size = 0 ∨ b.size ≤ 1 → a.Juxtaposes b) ∧
    ∀ c d e : Amplitude R, c * e ≠ d * e → ∀ n m, 0 < n → 1 < m →
      ∃ a b : Register R, a.Proper ∧ b.Proper ∧ a.size = n ∧ b.size = m ∧ ¬ a.Juxtaposes b :=
  ⟨fun _ _ => interleaves, fun _ _ => juxtaposes, fun _ _ _ apart _ _ => notJuxtaposed apart⟩

noncomputable def lone : Tensor ℝ := ⟨1, #[0, 1], rfl⟩

noncomputable def pair : Tensor ℝ := ⟨2, #[1, 0, 0, 0], rfl⟩

theorem pairsNotJuxtaposed :
    (∃ a b : Register ℝ, a.Proper ∧ b.Proper ∧ a.size = 2 ∧ b.size = 2 ∧ ¬ a.Juxtaposes b) ∧
    (ofTensor pair).Juxtaposes (ofTensor lone) ∧ (ofTensor lone).Interleaves (ofTensor pair) := by
  have apart : (1 : Amplitude ℝ) * 1 ≠ 0 * 1 := fun same => by
    simpa using congrArg Amplitude.toComplex same
  obtain ⟨always, few, others⟩ := productInterleaves ℝ
  exact ⟨others 1 0 1 apart 2 2 Nat.two_pos Nat.one_lt_two,
    few _ _ properOfTensor properOfTensor (.inr (Nat.le_refl 1)), always _ _ properOfTensor properOfTensor⟩

theorem oneShownBetween : ofAmps [0, 1] = .ok (ofTensor lone) ∧ ofAmps [1, 0, 0, 0] = .ok (ofTensor pair) ∧
    ∃ r u, (ofTensor lone).product (ofTensor pair) = .ok r ∧ r.state = .ok u ∧
      (lone.get (labelAt 1 1) * pair.get (labelAt 2 0)).toComplex = 1 ∧
      (u.get (followed 1 (labelAt 1 1) (labelAt 2 0))).toComplex = 0 ∧
      (u.get (labelAt 3 2)).toComplex = 1 := by
  have first : lone.get (labelAt 1 1) = 1 := rfl
  have second : pair.get (labelAt 2 0) = 1 := rfl
  have away : lone.get (followed 1 (labelAt 1 1) (labelAt 2 0) ∘ leftAxis lone.axes pair.axes) = 0 := rfl
  have between : lone.get (labelAt 3 2 ∘ leftAxis lone.axes pair.axes) = 1 := rfl
  have around : pair.get (labelAt 3 2 ∘ rightAxis lone.axes pair.axes) = 1 := rfl
  refine ⟨rfl, rfl, _, _, productOk stateOfTensor stateOfTensor, stateOfTensor, ?_, ?_, ?_⟩
  · rw [first, second]
    simp
  · rw [getInterleave, away]
    simp
  · rw [getInterleave, between, around]
    simp

end Register
end OneWay
