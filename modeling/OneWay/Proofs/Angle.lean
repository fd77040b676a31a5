import Mathlib.Analysis.SpecialFunctions.Complex.Arg
import OneWay.Angle
import OneWay.Proofs.Exact

/-! Angles over the exact reals. Two angles are near each other if whole turns bring one of them near the
other, and an angle passes for a Clifford one if it is near a multiple of a quarter turn. -/
namespace OneWay

namespace Scalar

@[simp] theorem turnReal : (turn : ℝ) = 2 * Real.pi := by
  rw [turn, twoReal]
  rfl

@[simp] theorem ltReal {x y : ℝ} : lt x y = true ↔ x < y := by
  rw [lt, Bool.and_eq_true, leReal, Bool.not_eq_true', Bool.eq_false_iff, Ne, leReal, not_le]
  exact ⟨And.right, fun below => ⟨below.le, below⟩⟩

end Scalar

namespace Angle
open Scalar
variable {x y t : ℝ}

theorem remTurn : ∃ k : ℤ, rem x turn = x - k * (2 * Real.pi) ∧ 0 ≤ rem x turn ∧ rem x turn < 2 * Real.pi := by
  have whole : 0 < 2 * Real.pi := Real.two_pi_pos
  have left : rem x turn = x - ⌊x / (2 * Real.pi)⌋ * (2 * Real.pi) := by
    rw [turnReal, mul_comm (⌊x / (2 * Real.pi)⌋ : ℝ)]
    rfl
  have below : ⌊x / (2 * Real.pi)⌋ * (2 * Real.pi) ≤ x := (le_div_iff₀ whole).mp (Int.floor_le _)
  have above : x < (⌊x / (2 * Real.pi)⌋ + 1) * (2 * Real.pi) := (div_lt_iff₀ whole).mp (Int.lt_floor_add_one _)
  refine ⟨_, left, ?_, ?_⟩
  · rw [left]
    linarith
  · rw [left]
    linarith

theorem distanceLeast : (∃ k : ℤ, distance x y = |x - y - k * (2 * Real.pi)|) ∧
    ∀ k : ℤ, distance x y ≤ |x - y - k * (2 * Real.pi)| := by
  obtain ⟨m, left, nonneg, below⟩ := remTurn (x := x - y)
  have whole : 0 < 2 * Real.pi := Real.two_pi_pos
  unfold distance
  simp only [ltReal]
  generalize rem (x - y) turn = d at left nonneg below
  have start (k : ℤ) : x - y - k * (2 * Real.pi) = d + ((m - k : ℤ) : ℝ) * (2 * Real.pi) := by
    push_cast
    linarith
  have far (k : ℤ) : d ≤ |x - y - k * (2 * Real.pi)| ∨ 2 * Real.pi - d ≤ |x - y - k * (2 * Real.pi)| := by
    rw [start k]
    rcases le_or_gt 0 (m - k) with ahead | behind
    · have turns : (0 : ℝ) ≤ ((m - k : ℤ) : ℝ) := by exact_mod_cast ahead
      exact .inl ((le_add_of_nonneg_right (by positivity)).trans (le_abs_self _))
    · have turns : ((m - k : ℤ) : ℝ) ≤ -1 := by
        have : m - k ≤ -1 := by omega
        exact_mod_cast this
      refine .inr (le_trans ?_ (neg_le_abs _))
      nlinarith
  split
  · rename_i beyond
    have beyond : Real.pi < d := beyond
    rw [turnReal]
    refine ⟨⟨m + 1, ?_⟩, fun k => ?_⟩
    · rw [start, abs_of_nonpos]
      · push_cast
        ring
      · push_cast
        linarith
    · rcases far k with least | least
      · linarith
      · exact least
  · rename_i within
    have within : d ≤ Real.pi := not_lt.mp within
    refine ⟨⟨m, ?_⟩, fun k => ?_⟩
    · rw [start, sub_self, Int.cast_zero, zero_mul, add_zero, abs_of_nonneg nonneg]
    · rcases far k with least | least
      · exact least
      · linarith

theorem nearIff (nonneg : 0 ≤ t) : near x y t = true ↔ ∃ k : ℤ, |x - y - k * (2 * Real.pi)| ≤ t := by
  obtain ⟨⟨m, attained⟩, least⟩ := distanceLeast (x := x) (y := y)
  have size : |distance x y| = distance x y := by rw [attained, abs_abs]
  rw [near, nearZero, Bool.or_eq_true, leReal, eqReal, absReal, size, zeroReal]
  constructor
  · rintro (close | zero)
    · exact ⟨m, attained ▸ close⟩
    · exact ⟨m, by rw [← attained, zero]; exact nonneg⟩
  · rintro ⟨k, close⟩
    exact .inl ((least k).trans close)

theorem quartersListed :
    (quarters : List ℝ) = ([0, 1, 2, 3] : List ℤ).map fun j : ℤ => (j : ℝ) * (Real.pi / 2) := by
  have straight : (pi : ℝ) = Real.pi := rfl
  have three : (Scalar.ofNat 3 : ℝ) = 3 := Nat.cast_ofNat
  simp only [quarters, List.map_cons, List.map_nil, zeroReal, halfReal, twoReal, straight, three,
    List.cons.injEq, and_true]
  refine ⟨?_, ?_, ?_, ?_⟩ <;> push_cast <;> ring

theorem isCliffordIff (nonneg : 0 ≤ t) : isClifford x t = true ↔ ∃ k : ℤ, |x - k * (Real.pi / 2)| ≤ t := by
  obtain ⟨m, left, _, _⟩ := remTurn (x := x)
  -- Four quarters are a turn, so that the whole turns left out count four each.
  have target (j : ℤ) : near (rem x turn) (j * (Real.pi / 2)) t = true ↔
      ∃ k : ℤ, |x - ((4 * (m + k) + j : ℤ) : ℝ) * (Real.pi / 2)| ≤ t := by
    rw [nearIff nonneg, left]
    refine exists_congr fun k => ?_
    have same : x - m * (2 * Real.pi) - j * (Real.pi / 2) - k * (2 * Real.pi) =
        x - ((4 * (m + k) + j : ℤ) : ℝ) * (Real.pi / 2) := by
      push_cast
      ring
    rw [same]
  rw [isClifford, quartersListed, List.any_map, List.any_eq_true]
  constructor
  · rintro ⟨j, _, close⟩
    obtain ⟨k, close⟩ := (target j).mp close
    exact ⟨_, close⟩
  · rintro ⟨k, close⟩
    have rest : k % 4 = 0 ∨ k % 4 = 1 ∨ k % 4 = 2 ∨ k % 4 = 3 := by omega
    refine ⟨k % 4, by simpa using rest, (target _).mpr ⟨k / 4 - m, ?_⟩⟩
    have split : 4 * (m + (k / 4 - m)) + k % 4 = k := by omega
    rwa [split]

theorem exactClifford : isClifford x angleTol = true ↔ ∃ k : ℤ, x = k * (Real.pi / 2) := by
  have none : (angleTol : ℝ) = 0 := rfl
  rw [none, isCliffordIff le_rfl]
  refine exists_congr fun k => ?_
  rw [abs_nonpos_iff, sub_eq_zero]

theorem zeroClifford : isClifford (zero : ℝ) angleTol = true := exactClifford.mpr ⟨0, by simp⟩

theorem quarterClifford : isClifford (half pi : ℝ) angleTol = true := by
  refine exactClifford.mpr ⟨1, ?_⟩
  rw [halfReal, Int.cast_one, one_mul]
  rfl

theorem straightClifford : isClifford (pi : ℝ) angleTol = true := by
  refine exactClifford.mpr ⟨2, ?_⟩
  show Real.pi = _
  push_cast
  ring

end Angle
end OneWay
