import Mathlib.Analysis.SpecialFunctions.Complex.Arg
import OneWay.Proofs.Expanded
import OneWay.Proofs.Expansion
import OneWay.Proofs.LocalProduct

/-! What the chain in front of an input does to the qubit that its first node takes over. A measured node
hands its qubit on with a turn back by its angle and a Hadamard. Three of them turn the qubit against the
Clifford that waited on the input, and leave one Hadamard over. This is never the Clifford itself. -/
namespace OneWay
open ComplexConjugate

def held (n : Int) (ψ : Bool → ℂ) : State := fun z => ψ (z n)

namespace Entries
variable {m n : Entries}

theorem oneFactor (det : n false false * n true true - n false true * n true false = 1)
    (each : ∀ ψ, ∃ s : ℂ, m.on ψ = s • n.on ψ) : ∃ s : ℂ, ∀ a b, m a b = s * n a b := by
  obtain ⟨s, low⟩ := each fun b => if b then 0 else 1
  obtain ⟨t, high⟩ := each fun b => if b then 1 else 0
  obtain ⟨r, both⟩ := each fun _ => 1
  have low (a : Bool) : m a false = s * n a false := by simpa [on] using congrFun low a
  have high (a : Bool) : m a true = t * n a true := by simpa [on] using congrFun high a
  have both (a : Bool) : m a false + m a true = r * (n a false + n a true) := by
    simpa [on] using congrFun both a
  have zero : (s - r) * n false false + (t - r) * n false true = 0 := by
    linear_combination both false - low false - high false
  have one : (s - r) * n true false + (t - r) * n true true = 0 := by
    linear_combination both true - low true - high true
  have first : s = r := by
    linear_combination n true true * zero - n false true * one - (s - r) * det
  have second : t = r := by
    linear_combination n false false * one - n true false * zero - (t - r) * det
  refine ⟨r, fun a b => ?_⟩
  cases b with
  | false => rw [low, first]
  | true => rw [high, second]

end Entries

namespace Operator
open Entries (on)
variable {ψ : Bool → ℂ} {n a b : Int} {angle : ℝ} {k : Ket ℝ} {edges : List (Int × Int)}

theorem actHeld {m : Matrix ℝ} {e : Entries} (shown : ∀ a b : Bool, (m.entry a.toNat b.toNat).toComplex = e a b) :
    act m [n] (held n ψ) = held n (e.on ψ) := by
  funext z
  rw [actBlock, blockApply, shown, shown, held, held, Function.update_self, Function.update_self]
  rfl

theorem phaseBlind (apart : ∀ e ∈ edges, n ≠ e.1 ∧ n ≠ e.2) (z : Labelling) (b : Bool) :
    phase edges (Function.update z n b) = phase edges z := by
  unfold phase
  refine congrArg List.prod (List.map_congr_left fun e mem => ?_)
  obtain ⟨one, other⟩ := apart e mem
  rw [Function.update_of_ne one.symm, Function.update_of_ne other.symm]

theorem hop (apart : a ≠ b) (clear : ∀ e ∈ edges, a ≠ e.1 ∧ a ≠ e.2)
    (vector : Basis.vectorAt .xy angle = .ok k) : project a k (phase ((a, b) :: edges) * held a ψ) =
      phase edges * held b ((Entries.j (-angle)).on ψ) := by
  obtain ⟨k', vector', zero, one⟩ := @Basis.vectorAtXy angle
  cases vector.symm.trans vector'
  have first : phase ((a, b) :: edges) * held a ψ =
      phase edges * fun z => sign (z a && z b) * held a ψ z := by
    funext z
    simp only [phase, List.map_cons, List.prod_cons, Pi.mul_apply]
    ring
  have back : conj (Complex.exp (angle * Complex.I)) = Complex.exp ((-angle : ℝ) * Complex.I) := by
    rw [Entries.expConj, Complex.ofReal_neg]
  rw [first, projectFactor (phaseBlind clear)]
  refine congrArg (phase edges * ·) (funext fun z => ?_)
  simp only [projectApply, held, Function.update_self, Function.update_of_ne apart.symm, zero, one, map_mul,
    map_inv₀, Complex.conj_ofReal, back, on, Entries.j, Scalar.twoReal]
  simp
  ring

end Operator

namespace LocalUnitary
variable {u : LocalUnitary ℝ}

def opposite {R : Type} [Scalar R] (u : LocalUnitary R) : LocalUnitary R := ⟨-u.alpha, -u.beta, -u.gamma⟩

theorem oppositeEntries : u.opposite.entries = fun a b => conj (u.entries a b) := by
  have turned (angle : ℝ) (b : Bool) : Entries.rz (-angle) b = conj (Entries.rz angle b) := by
    rw [Entries.rz, Entries.rz, Entries.expConj]
    cases b <;> simp <;> ring_nf
  have tilted (a b : Bool) : Entries.rx (-u.beta) a b = conj (Entries.rx u.beta a b) := by
    cases a <;> cases b <;> simp [Entries.rx, neg_div, ← Complex.cos_conj, ← Complex.sin_conj, map_ofNat]
  funext a b
  simp only [entries, opposite, Entries.after, Entries.mono, tilted, turned, map_add, map_mul, apply_ite conj,
    map_zero]

theorem threeHops : (Entries.j u.gamma).after ((Entries.j u.beta).after (Entries.j u.alpha)) = fun a b =>
    Complex.exp (((u.alpha + u.beta + u.gamma) / 2 : ℝ) * Complex.I) * (Entries.j 0).after u.entries a b := by
  have turned (angle : ℝ) : (Entries.j 0).after (.mono (Entries.rz angle) false) = fun a b =>
      Complex.exp (-(angle / 2 : ℝ) * Complex.I) * Entries.j angle a b := by
    have scaled : Entries.mono (Entries.rz angle) false = fun a b =>
        Complex.exp (-(angle / 2 : ℝ) * Complex.I) * Entries.mono (Entries.turn angle) false a b := by
      funext a b
      simp only [Entries.mono, Entries.rzTurn, mul_ite, mul_zero]
    rw [scaled, Entries.afterScaled, Entries.jZeroTurn]
  have apart : (Entries.j 0).after u.entries = ((Entries.j 0).after (.mono (Entries.rz u.gamma) false)).after
      (((Entries.j 0).after (.mono (Entries.rz u.beta) false)).after
        ((Entries.j 0).after (.mono (Entries.rz u.alpha) false))) := by
    simp only [entries, ← Entries.rzBetween, Entries.afterAssoc]
  have back : Complex.exp (((u.alpha + u.beta + u.gamma) / 2 : ℝ) * Complex.I) *
      (Complex.exp (-(u.gamma / 2 : ℝ) * Complex.I) * (Complex.exp (-(u.beta / 2 : ℝ) * Complex.I) *
        Complex.exp (-(u.alpha / 2 : ℝ) * Complex.I))) = 1 := by
    rw [← Complex.exp_add, ← Complex.exp_add, ← Complex.exp_add, ← Complex.exp_zero]
    congr 1
    push_cast
    ring
  rw [apart, turned, turned, turned]
  simp only [Entries.scaledAfter, Entries.afterScaled]
  funext a b
  linear_combination -((Entries.j u.gamma).after ((Entries.j u.beta).after (Entries.j u.alpha)) a b) * back

end LocalUnitary

namespace LocalClifford
variable {c : LocalClifford ℝ}

theorem cosSquare {angle : ℝ} (root : Complex.exp (angle * Complex.I) ^ 4 = 1) :
    Complex.cos (angle / 2 : ℝ) ^ 2 = 0 ∨ Complex.cos (angle / 2 : ℝ) ^ 2 = 1 ∨
      2 * Complex.cos (angle / 2 : ℝ) ^ 2 = 1 := by
  have whole : Complex.cos angle = 2 * Complex.cos (angle / 2 : ℝ) ^ 2 - 1 := by
    rw [← Complex.cos_two_mul]
    push_cast
    ring_nf
  have cosine : Complex.cos angle = (Complex.exp (angle * Complex.I)).re := by
    rw [Complex.exp_ofReal_mul_I_re, Complex.ofReal_cos]
  rw [cosine] at whole
  rcases fourthRoot root with is | is | is | is
  · rw [is, Complex.one_re, Complex.ofReal_one] at whole
    exact .inr (.inl (by linear_combination -whole / 2))
  · rw [is, Complex.neg_re, Complex.one_re, Complex.ofReal_neg, Complex.ofReal_one] at whole
    exact .inl (by linear_combination -whole / 2)
  · rw [is, Complex.I_re, Complex.ofReal_zero] at whole
    exact .inr (.inr (by linear_combination -whole))
  · rw [is, Complex.neg_re, Complex.I_re, neg_zero, Complex.ofReal_zero] at whole
    exact .inr (.inr (by linear_combination -whole))

end LocalClifford

theorem Entries.Special.conjugateBack {m : Entries} {s : ℂ} (special : m.Special)
    (same : ∀ a b, (Entries.j 0).after (fun a b => conj (m a b)) a b = s * m a b) :
    ∃ r : ℂ, r * r = -2 ∧
      4 * (m true true * conj (m true true)) + r * (m true true ^ 2 - conj (m true true) ^ 2) = 1 := by
  have det := special.det
  have root : (√2 : ℂ) * (√2 : ℂ)⁻¹ = 1 := mul_inv_cancel₀ (by simp)
  have low := same false false
  have right := same false true
  have left := same true false
  have high := same true true
  simp only [Entries.after, Entries.j, special.diagonal, special.beside, Scalar.twoReal, if_true,
    Bool.false_eq_true, if_false, Complex.ofReal_zero, zero_mul, Complex.exp_zero, one_mul, signTrue, signFalse,
    mul_one, map_neg, Complex.conj_conj] at det low right left high
  -- Two entries and their conjugates are left, in four linear equations and the determinant.
  generalize m true true = t at *
  generalize m true false = l at *
  generalize conj t = t' at *
  generalize conj l = l' at *
  have low : t + l' = s * √2 * t' := by linear_combination √2 * low - (t + l') * root
  have right : t' - l = -(s * √2 * l') := by linear_combination √2 * right - (t' - l) * root
  have left : t - l' = s * √2 * l := by linear_combination √2 * left - (t - l') * root
  have high : -l - t' = s * √2 * t := by linear_combination √2 * high - (-l - t') * root
  generalize s * √2 = r at *
  have square : r * r = -2 := by
    linear_combination t' * (low + left) - r * t' * high + l * (low - left) + r * l * right - (r * r + 2) * det
  exact ⟨r, square, by linear_combination det + t * t' * square - l * low + (r * t' - t) * high⟩

/- With a fourth root of one for a phase and the squared cosine of half a quarter turn the relation fails: what
is added to four would have to be minus two or minus three, and its square is zero or eight. -/
theorem conjugateApart {x r f : ℂ} (cosine : x = 0 ∨ x = 1 ∨ 2 * x = 1) (square : r * r = -2)
    (root : f ^ 4 = 1) : x * (4 + r * (f - conj f)) ≠ 1 := by
  intro meet
  have size : (r * (f - conj f)) ^ 2 = 0 ∨ (r * (f - conj f)) ^ 2 = 8 := by
    have imaginary := Complex.I_mul_I
    rcases fourthRoot root with rfl | rfl | rfl | rfl
    · exact .inl (by simp)
    · exact .inl (by simp)
    · exact .inr (by rw [Complex.conj_I]; linear_combination 4 * Complex.I ^ 2 * square - 8 * imaginary)
    · exact .inr (by rw [map_neg, Complex.conj_I]; linear_combination 4 * Complex.I ^ 2 * square - 8 * imaginary)
  rcases cosine with rfl | rfl | half
  · simp at meet
  · have value : r * (f - conj f) = -3 := by linear_combination meet
    rw [value] at size
    norm_num at size
  · have value : r * (f - conj f) = -2 := by linear_combination 2 * meet - (4 + r * (f - conj f)) * half
    rw [value] at size
    norm_num at size

namespace LocalClifford
variable {c : LocalClifford ℝ}

theorem neverOpposite : ¬ ∃ s : ℂ, ∀ a b,
    (Entries.j 0).after c.unitary.opposite.entries a b = s * c.unitary.entries a b := by
  rintro ⟨s, same⟩
  rw [LocalUnitary.oppositeEntries] at same
  obtain ⟨r, square, meet⟩ := LocalUnitary.entriesSpecial.conjugateBack same
  obtain ⟨alpha, beta, gamma⟩ := c.clifford
  rw [Angle.quarterTurn] at alpha beta gamma
  rw [LocalUnitary.entriesHigh, map_mul, ← Complex.cos_conj, Complex.conj_ofReal] at meet
  have unit := @Entries.expUnit ((c.unitary.gamma + c.unitary.alpha) / 2)
  have whole := @Angle.halfSquare (c.unitary.gamma + c.unitary.alpha)
  rw [Complex.ofReal_add, add_mul, Complex.exp_add] at whole
  generalize Complex.exp (((c.unitary.gamma + c.unitary.alpha) / 2 : ℝ) * Complex.I) = e at unit whole meet
  have root : (e ^ 2) ^ 4 = 1 := by rw [whole, mul_pow, gamma, alpha, one_mul]
  refine conjugateApart (cosSquare beta) square root ?_
  rw [map_pow]
  linear_combination meet - 4 * Complex.cos (c.unitary.beta / 2 : ℝ) ^ 2 * unit

end LocalClifford

noncomputable def Chain.pass (chain : Chain) (v : Int) (first second third : Ket ℝ) : Operator :=
  .projectAll [(chain.first, first), (chain.second, second), (chain.third, third)] *
    (.inTurn ([(chain.first, chain.second), (chain.second, chain.third), (chain.third, v)].map fun e =>
      .entangle e.1 e.2) * .inTurn ([chain.second, chain.third, v].map .prepare))

theorem Chain.passHeld {chain : Chain} {v : Int} {alpha beta gamma : ℝ} {first second third : Ket ℝ}
    {ψ : Bool → ℂ} (apart : [chain.first, chain.second, chain.third, v].Nodup)
    (one : Basis.vectorAt .xy alpha = .ok first) (two : Basis.vectorAt .xy beta = .ok second)
    (three : Basis.vectorAt .xy gamma = .ok third) : chain.pass v first second third (held chain.first ψ) =
      (√2 : ℂ)⁻¹ ^ 3 • held v
        (((Entries.j (-gamma)).after ((Entries.j (-beta)).after (Entries.j (-alpha)))).on ψ) := by
  obtain ⟨a, b, c⟩ := chain
  simp only [List.nodup_cons, List.mem_cons, List.not_mem_nil, or_false, not_or, not_false_eq_true,
    List.nodup_nil, and_true] at apart
  obtain ⟨⟨ab, ac, av⟩, ⟨bc, bv⟩, cv⟩ := apart
  have blind : Operator.Blind [b, c, v] (held a ψ) := by
    intro n mem z bit
    have other : a ≠ n := by
      rintro rfl
      simp [ab, ac, av] at mem
    rw [held, held, Function.update_of_ne other]
  have edges (φ : State) : Operator.inTurn ([(a, b), (b, c), (c, v)].map fun e => Operator.entangle e.1 e.2) φ =
      Operator.phase [(a, b), (b, c), (c, v)] * φ := funext fun z => Operator.entangleAll
  rw [pass, Module.End.mul_apply, Module.End.mul_apply, Operator.prepareAll blind, map_smul, map_smul, edges]
  refine congrArg (fun φ : State => (√2 : ℂ)⁻¹ ^ 3 • φ) ?_
  rw [Operator.projectAllCons, Operator.projectAllCons, Operator.projectAllCons]
  simp only [Module.End.mul_apply]
  -- Each hop leaves the signs of the edges still ahead, which do not see the node just measured.
  rw [Operator.hop ab (by simp [ab, ac, av]) one, Operator.hop bc (by simp [bc, bv]) two,
    Operator.hop cv (by simp) three, Entries.onAfter, Entries.onAfter]
  exact one_mul _

namespace Graph
open Operator
variable {g left : Graph ℝ} {chain : Chain} {v : Int} {c : LocalClifford ℝ}

noncomputable def transfer (g : Graph ℝ) (chain : Chain) (v : Int) : Except Fault Operator := do
  let first ← (← g.basisAt chain.first).vector
  let second ← (← g.basisAt chain.second).vector
  let third ← (← g.basisAt chain.third).vector
  return chain.pass v first second third

theorem Fronts.transfers (fronts : Fronts left chain v c) : ∃ (u : Operator) (s : ℂ),
    left.transfer chain v = .ok u ∧ s ≠ 0 ∧ ∀ ψ, u (held chain.first ψ) =
      s • held v (((Entries.j 0).after c.unitary.opposite.entries).on ψ) := by
  obtain ⟨alpha, first⟩ : ∃ k, Basis.vectorAt .xy c.unitary.alpha = .ok k := ⟨_, rfl⟩
  obtain ⟨beta, second⟩ : ∃ k, Basis.vectorAt .xy c.unitary.beta = .ok k := ⟨_, rfl⟩
  obtain ⟨gamma, third⟩ : ∃ k, Basis.vectorAt .xy c.unitary.gamma = .ok k := ⟨_, rfl⟩
  have based (n : Int) (basis : Basis ℝ) (found : left.bases.get? n = some basis) :
      left.basisAt n = .ok basis := by rw [basisAt, found]
  obtain ⟨f, some, hops⟩ : ∃ f : ℂ, f ≠ 0 ∧ (Entries.j (-c.unitary.gamma)).after
      ((Entries.j (-c.unitary.beta)).after (Entries.j (-c.unitary.alpha))) =
        fun a b => f * (Entries.j 0).after c.unitary.opposite.entries a b :=
    ⟨_, Complex.exp_ne_zero _, LocalUnitary.threeHops (u := c.unitary.opposite)⟩
  refine ⟨chain.pass v alpha beta gamma, (√2 : ℂ)⁻¹ ^ 3 * f, ?_, mul_ne_zero (by simp) some, fun ψ => ?_⟩
  · simp only [transfer, Result.bindOk, Result.pureOk]
    exact ⟨_, based _ _ fronts.alpha, alpha, first, _, based _ _ fronts.beta, beta, second, _,
      based _ _ fronts.gamma, gamma, third, rfl⟩
  · rw [chain.passHeld fronts.apart first second third, hops, Entries.onScaled, mul_smul]
    rfl

theorem Fronts.apartFrom {u : Operator} {m : Matrix ℝ} (fronts : Fronts left chain v c)
    (transfers : left.transfer chain v = .ok u) (matrix : c.matrix = .ok m) :
    ∃ ψ, ∀ s : ℂ, u (held chain.first ψ) ≠ s • act m [v] (held v ψ) := by
  obtain ⟨u', f, ok, some, turned⟩ := fronts.transfers
  cases transfers.symm.trans ok
  obtain ⟨m', ok, shown⟩ := LocalUnitary.matrixShows (u := c.unitary)
  cases matrix.symm.trans ok
  by_contra never
  simp only [not_exists, not_forall, ne_eq, not_not] at never
  refine LocalClifford.neverOpposite (c := c) (Entries.oneFactor LocalUnitary.entriesSpecial.det fun ψ => ?_)
  obtain ⟨s, same⟩ := never ψ
  rw [turned, actHeld shown.entries] at same
  refine ⟨f⁻¹ * s, funext fun a => ?_⟩
  have here := congrFun same fun _ => a
  simp only [Pi.smul_apply, smul_eq_mul, held] at here ⊢
  rw [mul_assoc, ← here, inv_mul_cancel_left₀ some]

/- The chain in front of an input turns its qubit by the opposite angles and then by a Hadamard, and never as
the Clifford that it was made of. -/
theorem inputTurnedBack (reach : g.Reachable) (input : v ∈ g.inputs.keys) (waiting : g.cliffords.get? v = some c) :
    ∃ chain u m back, Expands g v c chain ∧ (expandCliffords.apply g).2.transfer chain v = .ok u ∧
      c.matrix = .ok m ∧ c.unitary.opposite.matrix = .ok back ∧
      (∃ s : ℂ, s ≠ 0 ∧ ∀ ψ, u (held chain.first ψ) =
        s • act (Gate.h v).matrix [v] (act back [v] (held v ψ))) ∧
      ∃ ψ, ∀ s : ℂ, u (held chain.first ψ) ≠ s • act m [v] (held v ψ) := by
  obtain ⟨chain, expands⟩ := inputExpands reach input waiting
  obtain ⟨u, s, transfers, some, turned⟩ := expands.fronts.transfers
  obtain ⟨m, matrix, _⟩ := LocalUnitary.matrixShows (u := c.unitary)
  obtain ⟨back, opposite, shown⟩ := LocalUnitary.matrixShows (u := c.unitary.opposite)
  refine ⟨chain, u, m, back, expands, transfers, matrix, opposite, ⟨s, some, fun ψ => ?_⟩,
    expands.fronts.apartFrom transfers matrix⟩
  rw [turned, Entries.onAfter, actHeld shown.entries, actHeld fun _ _ => Gate.hEntries]

noncomputable def wick : Graph ℝ := after [.addNode, .registerInput 0, .applyClifford 0 .tilt]

theorem wickTurnedBack : wick.Reachable ∧ 0 ∈ wick.inputs.keys ∧ wick.cliffords.get? 0 = some .tilt ∧
    ∃ chain u m back, Expands wick 0 .tilt chain ∧ (expandCliffords.apply wick).2.transfer chain 0 = .ok u ∧
      LocalClifford.tilt.matrix = .ok m ∧ LocalClifford.tilt.unitary.opposite.matrix = .ok back ∧
      (∃ s : ℂ, s ≠ 0 ∧ ∀ ψ, u (held chain.first ψ) =
        s • act (Gate.h 0).matrix [0] (act back [0] (held 0 ψ))) ∧
      ∃ ψ, ∀ s : ℂ, u (held chain.first ψ) ≠ s • act m [0] (held 0 ψ) := by
  have reach : wick.Reachable := ⟨_, rfl⟩
  have input : 0 ∈ wick.inputs.keys := by decide
  exact ⟨reach, input, rfl, inputTurnedBack reach input rfl⟩

noncomputable def ember : Graph ℝ := after [.addNode, .registerInput 0, .applyClifford 0 .still]

theorem emberTurned : ember.Reachable ∧ ember.cliffords.get? 0 = some .still ∧
    ∃ chain u m, Expands ember 0 .still chain ∧ (expandCliffords.apply ember).2.transfer chain 0 = .ok u ∧
      LocalClifford.still.matrix = .ok m ∧ ∀ s : ℂ, u (held chain.first fun b => if b then 0 else 1) ≠
        s • act m [0] (held 0 fun b => if b then 0 else 1) := by
  have reach : ember.Reachable := ⟨_, rfl⟩
  have waiting : ember.cliffords.get? 0 = some .still := rfl
  obtain ⟨chain, expands⟩ := inputExpands reach (by decide) waiting
  obtain ⟨u, f, transfers, some, turned⟩ := expands.fronts.transfers
  obtain ⟨m, matrix, shown⟩ := LocalUnitary.matrixShows (u := LocalClifford.still.unitary)
  refine ⟨reach, waiting, chain, u, m, expands, transfers, matrix, fun s same => some ?_⟩
  rw [turned, actHeld shown.entries] at same
  have here := congrFun same fun _ => true
  simp [held, Entries.on, Entries.after, LocalUnitary.oppositeEntries, LocalClifford.stillEntries, Entries.mono,
    Entries.j] at here
  exact here

end Graph
end OneWay
