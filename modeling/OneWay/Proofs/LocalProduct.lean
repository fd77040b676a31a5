import Mathlib.Analysis.SpecialFunctions.Complex.Arg
import OneWay.Proofs.Clifford
import OneWay.Proofs.Refusal

/-! Cliffords that act on an input or output in turn. They never fail, and what waits there in the end is
their product up to a global phase, unless the product of some of them has a zero diagonal: it is
transposed where it is stored, which is no phase if its two other entries have different squares. -/
namespace OneWay

namespace Entries
variable {l m n : Entries}

def Alike (m n : Entries) : Prop := ∃ angle : ℝ, ∀ a b, m a b = Complex.exp (angle * Complex.I) * n a b

theorem Alike.refl : m.Alike m := ⟨0, by simp⟩

theorem Alike.symm (alike : m.Alike n) : n.Alike m := by
  obtain ⟨angle, same⟩ := alike
  refine ⟨-angle, fun a b => ?_⟩
  rw [same, ← mul_assoc, ← Complex.exp_add, Complex.ofReal_neg, neg_mul, neg_add_cancel, Complex.exp_zero,
    one_mul]

theorem Alike.trans (first : l.Alike m) (second : m.Alike n) : l.Alike n := by
  obtain ⟨x, same⟩ := first
  obtain ⟨y, same'⟩ := second
  refine ⟨x + y, fun a b => ?_⟩
  rw [same, same', ← mul_assoc, ← Complex.exp_add, Complex.ofReal_add, add_mul]

theorem Alike.after (alike : m.Alike n) : (l.after m).Alike (l.after n) := by
  obtain ⟨angle, same⟩ := alike
  refine ⟨angle, fun a b => ?_⟩
  simp only [Entries.after, same]
  ring

theorem Alike.mirrored (alike : m.Alike n) : m.mirrored.Alike n.mirrored := by
  obtain ⟨angle, same⟩ := alike
  have zero : m true true = 0 ↔ n true true = 0 := by simp [same]
  refine ⟨angle, fun a b => ?_⟩
  by_cases diagonal : n true true = 0
  · rw [Entries.mirrored, Entries.mirrored, if_pos (zero.mpr diagonal), if_pos diagonal]
    exact same b a
  · rw [Entries.mirrored, Entries.mirrored, if_neg fun none => diagonal (zero.mp none), if_neg diagonal]
    exact same a b

def Skew (m : Entries) : Prop := m true true = 0 ∧ m false true * m false true ≠ m true false * m true false

theorem mirroredAlike (special : m.Special) : m.mirrored.Alike m ↔ ¬ m.Skew := by
  by_cases diagonal : m true true = 0
  · have low : m false false = 0 := by rw [special.diagonal, diagonal, map_zero]
    rw [mirrored, if_pos diagonal]
    constructor
    · rintro ⟨angle, same⟩ skew
      refine skew.2 ?_
      have left := same false true
      have right := same true false
      simp only at left right
      linear_combination m false true * right - m true false * left
    · intro even
      have squares : m false true * m false true = m true false * m true false := by
        by_contra other
        exact even ⟨diagonal, other⟩
      rcases mul_self_eq_mul_self_iff.mp squares with same | same
      · refine ⟨0, fun a b => ?_⟩
        cases a <;> cases b <;> simp [diagonal, low, same]
      · refine ⟨Real.pi, fun a b => ?_⟩
        rw [Complex.exp_pi_mul_I]
        cases a <;> cases b <;> simp [diagonal, low, same]
  · rw [mirrored, if_neg diagonal]
    exact ⟨fun _ skew => diagonal skew.1, fun _ => .refl⟩

end Entries

namespace Matrix
variable {m n : Matrix ℝ} {e f : Entries}

def Alike (m n : Matrix ℝ) : Prop := m.rows = n.rows ∧ m.cols = n.cols ∧ ∃ angle : ℝ,
  ∀ i < m.rows, ∀ j < m.cols,
    (m.entry i j).toComplex = Complex.exp (angle * Complex.I) * (n.entry i j).toComplex

def Skew (m : Matrix ℝ) : Prop := (m.entry 1 1).toComplex = 0 ∧
  (m.entry 0 1).toComplex * (m.entry 0 1).toComplex ≠ (m.entry 1 0).toComplex * (m.entry 1 0).toComplex

theorem Shows.alikeIff (first : m.Shows e) (second : n.Shows f) : m.Alike n ↔ e.Alike f := by
  constructor
  · rintro ⟨_, _, angle, same⟩
    refine ⟨angle, fun a b => ?_⟩
    rw [← first.entries, ← second.entries]
    exact same _ (first.rows ▸ Bool.toNat_lt a) _ (first.cols ▸ Bool.toNat_lt b)
  · rintro ⟨angle, same⟩
    refine ⟨first.rows.trans second.rows.symm, first.cols.trans second.cols.symm, angle, fun i row j col => ?_⟩
    rw [first.rows] at row
    rw [first.cols] at col
    have bit : ∀ k < 2, ∃ b : Bool, k = b.toNat := by decide
    obtain ⟨a, rfl⟩ := bit i row
    obtain ⟨b, rfl⟩ := bit j col
    rw [first.entries, second.entries, same]

theorem Shows.skewIff (shown : m.Shows e) : m.Skew ↔ e.Skew := by
  have high := shown.entries true true
  have right := shown.entries false true
  have left := shown.entries true false
  rw [Skew, Entries.Skew, ← high, ← right, ← left]
  rfl

theorem identityShows : (identity 2 : Matrix ℝ).Shows (.mono (fun _ => 1) false) where
  rows := rfl
  cols := rfl
  entries a b := by
    rw [identity, entryOfFn (Bool.toNat_lt a) (Bool.toNat_lt b)]
    cases a <;> cases b <;> simp [Entries.mono]

end Matrix

namespace LocalClifford
variable {R : Type} [Scalar R] {c : LocalClifford ℝ} {cs : List (LocalClifford ℝ)}

def product (cs : List (LocalClifford R)) : Except Fault (Matrix R) :=
  cs.foldlM (fun m c => do return (← c.matrix) * m) (.identity 2)

noncomputable def whole (cs : List (LocalClifford ℝ)) : Entries :=
  cs.foldl (fun m c => c.unitary.entries.after m) (.mono (fun _ => 1) false)

theorem wholeSnoc : whole (cs ++ [c]) = c.unitary.entries.after (whole cs) := by
  simp [whole]

theorem wholeSpecial : (whole cs).Special := by
  induction cs using List.reverseRecOn with
  | nil => exact ⟨by simp [whole, Entries.mono], by simp [whole, Entries.mono], by simp [whole, Entries.mono]⟩
  | append_singleton cs c ih =>
    rw [wholeSnoc]
    exact LocalUnitary.entriesSpecial.after ih

theorem productShows (cs : List (LocalClifford ℝ)) : ∃ m, product cs = .ok m ∧ m.Shows (whole cs) := by
  induction cs using List.reverseRecOn with
  | nil => exact ⟨_, rfl, Matrix.identityShows⟩
  | append_singleton cs c ih =>
    obtain ⟨m, found, shown⟩ := ih
    obtain ⟨n, matrix, shown'⟩ := LocalUnitary.matrixShows (u := c.unitary)
    refine ⟨n * m, ?_, wholeSnoc ▸ shown'.mul shown⟩
    rw [product, List.foldlM_append]
    refine Result.bindOk.mpr ⟨m, found, ?_⟩
    rw [List.foldlM_cons]
    exact Result.bindOk.mpr ⟨n * m, Result.bindOk.mpr ⟨n, matrix, rfl⟩, rfl⟩

noncomputable def kept : List (LocalClifford ℝ) → Entries
  | [] => .mono (fun _ => 1) false
  | c :: cs => cs.foldl (fun m d => (d.unitary.entries.after m).mirrored) c.unitary.entries

theorem keptSnoc (some : cs ≠ []) : kept (cs ++ [c]) = (c.unitary.entries.after (kept cs)).mirrored := by
  cases cs with
  | nil => exact absurd rfl some
  | cons d cs => simp [kept]

theorem keptOne : kept [c] = whole [c] := by
  funext a b
  cases b <;> simp [kept, whole, Entries.after, Entries.mono]

theorem keptStep (c : LocalClifford ℝ) (some : cs ≠ []) (alike : (kept cs).Alike (whole cs)) :
    (kept (cs ++ [c])).Alike (whole (cs ++ [c])) ↔ ¬ (whole (cs ++ [c])).Skew := by
  rw [← Entries.mirroredAlike wholeSpecial]
  have mirrored : (kept (cs ++ [c])).Alike (whole (cs ++ [c])).mirrored := by
    rw [keptSnoc some, wholeSnoc]
    exact alike.after.mirrored
  exact ⟨mirrored.symm.trans, mirrored.trans⟩

theorem keptIff (cs : List (LocalClifford ℝ)) :
    (∀ pre, pre <+: cs → pre ≠ [] → (kept pre).Alike (whole pre)) ↔
      ∀ pre, pre <+: cs → 1 < pre.length → ¬ (whole pre).Skew := by
  induction cs using List.reverseRecOn with
  | nil => simp
  | append_singleton cs c ih =>
    have last (Q : List (LocalClifford ℝ) → Prop) :
        (∀ pre, pre <+: cs ++ [c] → Q pre) ↔ (∀ pre, pre <+: cs → Q pre) ∧ Q (cs ++ [c]) := by
      simp only [List.prefix_concat_iff, or_imp, forall_and, forall_eq]
      exact and_comm
    rw [last, last, ih]
    refine and_congr_right fun none => ?_
    by_cases some : cs = []
    · subst some
      exact ⟨fun _ long => absurd long (by simp), fun _ _ => keptOne ▸ .refl⟩
    · have long : 1 < (cs ++ [c]).length := by
        have := List.length_pos_of_ne_nil some
        rw [List.length_append, List.length_singleton]
        omega
      have step := keptStep c some (ih.mpr none cs List.prefix_rfl some)
      exact ⟨fun alike _ => step.mp (alike (by simp)), fun even _ => step.mpr (even long)⟩

end LocalClifford

namespace Graph
variable {g : Graph ℝ} {n : Int}

theorem joinedKept (there : n ∈ g.nodes) (role : n ∈ g.inputs.keys ∨ n ∈ g.outputs.keys)
    (free : n ∉ g.cliffords.keys) (cs : List (LocalClifford ℝ)) :
    ∃ left, (cs.forM (applyClifford n)).apply g = (.ok ⟨⟩, left) ∧ n ∈ left.nodes ∧
      (n ∈ left.inputs.keys ∨ n ∈ left.outputs.keys) ∧
      (cs = [] → left = g) ∧
      (cs ≠ [] → ∃ c, left.cliffords.get? n = some c ∧ c.unitary.entries = LocalClifford.kept cs) := by
  induction cs using List.reverseRecOn with
  | nil => exact ⟨g, rfl, there, role, fun _ => rfl, fun some => absurd rfl some⟩
  | append_singleton cs c ih =>
    obtain ⟨mid, ran, there, role, start, waiting⟩ := ih
    have last {left : Graph ℝ} (ok : (applyClifford n c).apply mid = (.ok ⟨⟩, left)) :
        ((cs ++ [c]).forM (applyClifford n)).apply g = (.ok ⟨⟩, left) := by
      rw [List.forM_eq_forM, List.forM_append]
      exact Edit.bindOk.mpr ⟨⟨⟩, mid, ran, Edit.bindOk.mpr ⟨⟨⟩, left, ok, rfl⟩⟩
    by_cases some : cs = []
    · have same := start some
      subst same some
      exact ⟨_, last (applyCliffordFree there role free), there, role, by simp, fun _ =>
        ⟨c, by simp [storeClifford], rfl⟩⟩
    · obtain ⟨old, found, entries⟩ := waiting some
      obtain ⟨joined, product, mirrored⟩ := LocalClifford.afterMirrored c old
      refine ⟨_, last (applyCliffordJoins there role found product), there, role, by simp, fun _ =>
        ⟨joined, by simp [storeClifford], ?_⟩⟩
      rw [mirrored, entries, LocalClifford.keptSnoc some]

def Stores (g : Graph ℝ) (n : Int) (cs : List (LocalClifford ℝ)) : Prop :=
  ∃ left c m p, (cs.forM (applyClifford n)).apply g = (.ok ⟨⟩, left) ∧ left.cliffords.get? n = some c ∧
    c.matrix = .ok m ∧ LocalClifford.product cs = .ok p ∧ m.Alike p

section
variable (there : n ∈ g.nodes) (role : n ∈ g.inputs.keys ∨ n ∈ g.outputs.keys)
  (free : n ∉ g.cliffords.keys) (cs : List (LocalClifford ℝ)) (some : cs ≠ [])
include there role free some

theorem joinedMatrix : ∃ left c m p, (cs.forM (applyClifford n)).apply g = (.ok ⟨⟩, left) ∧
    left.cliffords.get? n = .some c ∧ c.matrix = .ok m ∧ LocalClifford.product cs = .ok p ∧
    m.Shows (LocalClifford.kept cs) ∧ p.Shows (LocalClifford.whole cs) := by
  obtain ⟨left, ran, _, _, _, waiting⟩ := joinedKept there role free cs
  obtain ⟨c, found, entries⟩ := waiting some
  obtain ⟨m, matrix, shown⟩ := LocalUnitary.matrixShows (u := c.unitary)
  obtain ⟨p, product, shown'⟩ := LocalClifford.productShows cs
  exact ⟨left, c, m, p, ran, found, matrix, product, entries ▸ shown, shown'⟩

theorem storesIff : Stores g n cs ↔ (LocalClifford.kept cs).Alike (LocalClifford.whole cs) := by
  obtain ⟨left, c, m, p, ran, found, matrix, product, kept, whole⟩ := joinedMatrix there role free cs some
  rw [← kept.alikeIff whole]
  constructor
  · rintro ⟨left', c', m', p', ran', found', matrix', product', alike⟩
    cases ran.symm.trans ran'
    cases found.symm.trans found'
    cases matrix.symm.trans matrix'
    cases product.symm.trans product'
    exact alike
  · exact fun alike => ⟨left, c, m, p, ran, found, matrix, product, alike⟩

end

/- Cliffords acting in turn on a node where none waits never fail. Each of them multiplies what is stored,
and the product is transposed if its diagonal is zero; so what is stored is always their product up to
phase if and only if no product of more than one is skew. -/
theorem cliffordsJoined (reach : g.Reachable) (role : n ∈ g.inputs.keys ∨ n ∈ g.outputs.keys)
    (free : n ∉ g.cliffords.keys) (cs : List (LocalClifford ℝ)) (some : cs ≠ []) :
    (∃ left c m, (cs.forM (applyClifford n)).apply g = (.ok ⟨⟩, left) ∧ left.cliffords.get? n = .some c ∧
      c.matrix = .ok m ∧ m.Shows (LocalClifford.kept cs)) ∧
      ((∀ pre, pre <+: cs → pre ≠ [] → Stores g n pre) ↔
        ∀ pre, pre <+: cs → 1 < pre.length → ∀ p, LocalClifford.product pre = .ok p → ¬ p.Skew) := by
  have sound := reachableSound reach
  have there := role.elim (sound.inputsThere n) (sound.outputsThere n)
  refine ⟨?_, ?_⟩
  · obtain ⟨left, c, m, _, ran, found, matrix, _, kept, _⟩ := joinedMatrix there role free cs some
    exact ⟨left, c, m, ran, found, matrix, kept⟩
  · have stored : (∀ pre, pre <+: cs → pre ≠ [] → Stores g n pre) ↔
        ∀ pre, pre <+: cs → pre ≠ [] → (LocalClifford.kept pre).Alike (LocalClifford.whole pre) :=
      forall_congr' fun pre => imp_congr_right fun _ => forall_congr' (storesIff there role free pre)
    rw [stored, LocalClifford.keptIff]
    refine forall_congr' fun pre => imp_congr_right fun _ => imp_congr_right fun _ => ?_
    obtain ⟨p, product, shown⟩ := LocalClifford.productShows pre
    rw [← shown.skewIff]
    constructor
    · intro even p' product'
      cases product.symm.trans product'
      exact even
    · exact fun even => even p product

end Graph

theorem LocalUnitary.entriesX {t : ℝ} :
    (⟨Scalar.zero, t, Scalar.zero⟩ : LocalUnitary ℝ).entries = Entries.rx t := by
  refine LocalUnitary.entriesSpecial.ext Entries.rxSpecial ?_ ?_
  · rw [LocalUnitary.entriesHigh]
    simp [Entries.rx]
  · rw [LocalUnitary.entriesLeft]
    simp [Entries.rx]

namespace LocalClifford

noncomputable def tilt : LocalClifford ℝ where
  unitary := ⟨Scalar.zero, Scalar.half Scalar.pi, Scalar.zero⟩
  clifford := ⟨Angle.zeroClifford, Angle.quarterClifford, Angle.zeroClifford⟩

noncomputable def swing : LocalClifford ℝ where
  unitary := ⟨Scalar.zero, Scalar.pi, Scalar.half Scalar.pi⟩
  clifford := ⟨Angle.zeroClifford, Angle.straightClifford, Angle.quarterClifford⟩

theorem tiltEven : ¬ (whole [tilt, tilt]).Skew := by
  have tilted : tilt.unitary.entries = Entries.rx (Scalar.half Scalar.pi) := LocalUnitary.entriesX
  have even : whole [tilt, tilt] false true = whole [tilt, tilt] true false := by
    simp [whole, tilted, Entries.after, Entries.rx, Entries.mono]
    ring
  exact fun skew => skew.2 (by rw [even])

theorem stillEntries : still.unitary.entries = .mono (fun _ => 1) false := by
  rw [← Entries.rxZero, ← Scalar.zeroReal]
  exact LocalUnitary.entriesX

theorem stillAfter {m : Entries} : still.unitary.entries.after m = m := by
  rw [stillEntries, Entries.monoOneAfter]

theorem swingSkew : (whole [swing, still]).Skew := by
  have same : whole [swing, still] = swing.unitary.entries := by
    have snoc : whole ([swing] ++ [still]) = still.unitary.entries.after (whole [swing]) := wholeSnoc
    rw [stillAfter, ← keptOne] at snoc
    exact snoc
  have special := LocalUnitary.entriesSpecial (u := swing.unitary)
  have square : swing.unitary.entries true false * swing.unitary.entries true false = -Complex.I := by
    have angle : (swing.unitary.gamma - swing.unitary.alpha) / 2 = Real.pi / 4 := by
      show ((Scalar.half Scalar.pi - Scalar.zero) / 2 : ℝ) = _
      rw [Scalar.halfReal, Scalar.zeroReal]
      show (Real.pi / 2 - 0) / 2 = _
      ring
    have half : Complex.exp ((Real.pi / 4 : ℝ) * Complex.I) * Complex.exp ((Real.pi / 4 : ℝ) * Complex.I) =
        Complex.I := by
      have sum : (Real.pi / 4 : ℝ) * Complex.I + (Real.pi / 4 : ℝ) * Complex.I = Real.pi / 2 * Complex.I := by
        push_cast
        ring
      rw [← Complex.exp_add, sum, Complex.exp_pi_div_two_mul_I]
    have straight : Complex.sin ((swing.unitary.beta / 2 : ℝ) : ℂ) = 1 := LocalUnitary.sinCrossed
    rw [LocalUnitary.entriesLeft, straight, angle]
    linear_combination Complex.I * Complex.I * half + Complex.I * Complex.I_mul_I
  rw [same]
  refine ⟨?_, ?_⟩
  · have straight : Complex.cos ((swing.unitary.beta / 2 : ℝ) : ℂ) = 0 := LocalUnitary.cosCrossed
    rw [LocalUnitary.entriesHigh, straight, mul_zero]
  · rw [special.beside, neg_mul_neg, ← map_mul, square, map_neg, Complex.conj_I, neg_neg]
    exact fun unit => Complex.I_ne_zero (self_eq_neg.mp unit)

end LocalClifford

namespace Graph

noncomputable def bulb : Graph ℝ := after [.addNode, .registerInput 0]

theorem bulbStores : bulb.Reachable ∧ (0 ∈ bulb.inputs.keys ∨ 0 ∈ bulb.outputs.keys) ∧
    0 ∉ bulb.cliffords.keys ∧ Stores bulb 0 [.tilt, .tilt] := by
  have reach : bulb.Reachable := ⟨_, rfl⟩
  have role : 0 ∈ bulb.inputs.keys ∨ 0 ∈ bulb.outputs.keys := .inl (by decide)
  have free : 0 ∉ bulb.cliffords.keys := by decide
  refine ⟨reach, role, free, ?_⟩
  refine (cliffordsJoined reach role free [.tilt, .tilt] (by simp)).2.mpr ?_ _ List.prefix_rfl (by simp)
  intro pre earlier long p product
  obtain rfl : pre = [.tilt, .tilt] := earlier.eq_of_length_le long
  obtain ⟨p', product', shown⟩ := LocalClifford.productShows [.tilt, .tilt]
  cases product.symm.trans product'
  rw [shown.skewIff]
  exact LocalClifford.tiltEven

theorem swingTransposed : bulb.Reachable ∧ 0 ∈ bulb.inputs.keys ∧ 0 ∉ bulb.cliffords.keys ∧
    ∃ left c m p, (List.forM [.swing, .still] (applyClifford 0)).apply bulb = (.ok ⟨⟩, left) ∧
      left.cliffords.get? 0 = some c ∧ c.matrix = .ok m ∧ LocalClifford.product [.swing, .still] = .ok p ∧
      ¬ m.Alike p := by
  refine ⟨⟨_, rfl⟩, by decide, by decide, ?_⟩
  obtain ⟨left, c, m, p, ran, found, matrix, product, kept, whole⟩ :=
    joinedMatrix (g := bulb) (n := 0) (by decide) (.inl (by decide)) (by decide) [.swing, .still] (by simp)
  refine ⟨left, c, m, p, ran, found, matrix, product, ?_⟩
  have one : [LocalClifford.swing] ≠ [] := by simp
  have step := LocalClifford.keptStep .still one (LocalClifford.keptOne ▸ .refl)
  rw [kept.alikeIff whole]
  exact fun alike => step.mp alike LocalClifford.swingSkew

end Graph
end OneWay
