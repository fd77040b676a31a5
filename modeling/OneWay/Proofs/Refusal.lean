import OneWay.Proofs.Angle
import OneWay.Proofs.Roles

/-! What a failed operation leaves. Every operation checks before it writes, except that a Clifford which
waits is taken away before the one it becomes part of is known. So a failure can lose a Clifford, in two
places: where two Cliffords have no product, and where one waits on an output that is to be expanded. -/
namespace OneWay
variable {R : Type} [Scalar R]

namespace Edit
variable {α β : Type} {g left : Graph R} {e : Edit R α} {f : α → Edit R β}

def Whole (e : Edit R α) (g : Graph R) : Prop := ∀ x left, e.apply g = (.error x, left) → left = g

theorem wholeOk {a : α} (ok : e.apply g = (.ok a, left)) : Whole e g := by
  intro x left' broke
  rw [ok] at broke
  cases broke

theorem wholeStep {f : Graph R → Except Fault (Graph R)} : Whole (step f) g := by
  intro x left broke
  rw [applyStep] at broke
  cases ran : f g with
  | ok next => simp [ran] at broke
  | error y => simpa [ran, eq_comm] using (congrArg Prod.snd broke)

theorem wholeStepWith {f : Graph R → Except Fault (α × Graph R)} : Whole (stepWith f) g := by
  intro x left broke
  rw [applyStepWith] at broke
  cases ran : f g with
  | ok out => simp [ran] at broke
  | error y => simpa [ran, eq_comm] using (congrArg Prod.snd broke)

theorem wholeLift {x : Except Fault α} (rest : ∀ a, x = .ok a → Whole (f a) g) : Whole (lift x >>= f) g := by
  cases x with
  | ok a =>
    intro y left broke
    rw [bindWent applyLift] at broke
    exact rest a rfl y left broke
  | error y =>
    intro z left broke
    rw [bindBroke applyLift] at broke
    cases broke
    rfl

theorem wholeGet {f : Graph R → Edit R β} (rest : Whole (f g) g) : Whole (get >>= f) g := by
  intro x left broke
  rw [bindWent applyGet] at broke
  exact rest x left broke

theorem wholeDiscard (whole : Whole e g) : Whole (discard e) g := by
  intro x left broke
  cases ran : e.apply g with
  | mk result mid =>
    cases result with
    | ok a =>
      have done : (discard e).apply g = (.ok (), mid) := bindWent ran
      rw [done] at broke
      cases broke
    | error y =>
      have done : (discard e).apply g = (.error y, mid) := bindBroke ran
      rw [done] at broke
      cases broke
      exact whole x left ran

end Edit

namespace Graph
variable {g : Graph R} {n : Int} {c old joined : LocalClifford R}

section
variable (there : n ∈ g.nodes) (role : n ∈ g.inputs.keys ∨ n ∈ g.outputs.keys)
include there role

theorem applyCliffordHeld : (applyClifford n c).apply g =
    (((g.cliffords.get? n).elim (pure c) fun old => Edit.lift (c.after old)) >>= fun joined =>
      modify fun g => g.storeClifford n joined : Edit R Unit).apply
        { g with cliffords := g.cliffords.erase n } := by
  have node : g.requireNode n = .ok () := requireNodeOk.mpr there
  have held : (g.inputs.contains n || g.outputs.contains n) = true := by simpa using role
  have taken : (takeClifford n).apply g =
      (.ok (g.cliffords.get? n), { g with cliffords := g.cliffords.erase n }) := rfl
  unfold applyClifford
  rw [Edit.bindWent Edit.applyGet, node, Edit.bindWent Edit.applyLift, if_pos held, Edit.bindWent taken]
  cases g.cliffords.get? n <;> rfl

theorem applyCliffordFree (free : n ∉ g.cliffords.keys) :
    (applyClifford n c).apply g = (.ok (), g.storeClifford n c) := by
  rw [applyCliffordHeld there role, Table.getNone.mpr free, Table.eraseAbsent free]
  rfl

theorem applyCliffordJoins (waiting : g.cliffords.get? n = some old) (product : c.after old = .ok joined) :
    (applyClifford n c).apply g =
      (.ok (), storeClifford { g with cliffords := g.cliffords.erase n } n joined) := by
  rw [applyCliffordHeld there role, waiting, Option.elim_some, product]
  rfl

theorem applyCliffordLoses {x : Fault} (waiting : g.cliffords.get? n = some old)
    (failed : c.after old = .error x) :
    (applyClifford n c).apply g = (.error x, { g with cliffords := g.cliffords.erase n }) := by
  rw [applyCliffordHeld there role, waiting, Option.elim_some, failed]
  rfl

end

theorem applyCliffordWhole
    (products : ∀ old, g.cliffords.get? n = some old → ∃ joined, c.after old = .ok joined) :
    Edit.Whole (applyClifford n c) g := by
  by_cases held : (g.inputs.contains n || g.outputs.contains n) = true
  · by_cases there : n ∈ g.nodes
    · have role : n ∈ g.inputs.keys ∨ n ∈ g.outputs.keys := by simpa using held
      cases waiting : g.cliffords.get? n with
      | none => exact Edit.wholeOk (applyCliffordFree there role (Table.getNone.mp waiting))
      | some old =>
        obtain ⟨joined, product⟩ := products old waiting
        exact Edit.wholeOk (applyCliffordJoins there role waiting product)
    · unfold applyClifford
      exact Edit.wholeGet (Edit.wholeLift fun _ node => absurd (requireNodeOk.mp node) there)
  · -- The basis of an inner node is written in the last step.
    unfold applyClifford
    refine Edit.wholeGet (Edit.wholeLift fun _ _ => ?_)
    rw [if_neg held]
    refine Edit.wholeLift fun _ _ => Edit.wholeLift fun back _ => ?_
    split
    · exact fun _ _ broke => (Prod.mk.inj broke).2.symm
    · exact Edit.wholeLift fun turned _ => Edit.wholeStep

theorem expandCliffordsTotal (reach : g.Reachable)
    (inner : ∀ n ∈ g.outputs.keys, n ∈ g.cliffords.keys → n ∈ g.inputs.keys) :
    ∃ out left, expandCliffords.apply g = (.ok out, left) := by
  have sound := reachableSound reach
  obtain ⟨chains, mid, first, roles, outputs, kept⟩ := expandInputsTotal sound (reachableRoles reach)
  have soundMid := (Edit.soundSteps.expandInputs).run sound first
  obtain ⟨more, registered, second, _⟩ := expandOutputsIdle soundMid roles fun n output waits => by
    obtain ⟨old, other⟩ := (kept n).mp waits
    exact other (inner n (outputs ▸ output) old)
  exact ⟨_, _, Edit.bindOk.mpr ⟨chains, mid, first, Edit.bindOk.mpr ⟨more, _, second, rfl⟩⟩⟩

theorem expandCliffordsRefused (reach : g.Reachable) (output : n ∈ g.outputs.keys)
    (waits : n ∈ g.cliffords.keys) (inner : n ∉ g.inputs.keys) :
    ∃ left, expandCliffords.apply g = (.error .basisOnOutput, left) ∧
      ∃ m ∈ g.cliffords.keys, m ∉ left.cliffords.keys := by
  have sound := reachableSound reach
  obtain ⟨chains, mid, first, _, outputs, kept⟩ := expandInputsTotal sound (reachableRoles reach)
  have soundMid := (Edit.soundSteps.expandInputs).run sound first
  obtain ⟨left, broke, _, _, m, old, lost⟩ :=
    expandOutputsBreaks soundMid (outputs ▸ output) ((kept n).mpr ⟨waits, inner⟩)
  refine ⟨left, ?_, m, ((kept m).mp old).1, lost⟩
  unfold expandCliffords
  rw [Edit.bindWent first]
  exact Edit.bindBroke broke

end Graph

def Operation.Harmless (g : Graph R) : Operation R → Prop
  | .applyClifford n c => ∀ old, g.cliffords.get? n = some old → ∃ joined, c.after old = .ok joined
  | .expandCliffords => ∀ n ∈ g.outputs.keys, n ∈ g.cliffords.keys → n ∈ g.inputs.keys
  | _ => True

theorem Operation.harmlessWhole {g : Graph R} (reach : g.Reachable) {op : Operation R}
    (harmless : op.Harmless g) : Edit.Whole op.edit g := by
  cases op with
  | addNode => exact Edit.wholeDiscard Edit.wholeStepWith
  | addEdge a b => exact Edit.wholeStep
  | removeNode n => exact Edit.wholeStep
  | removeEdge a b => exact Edit.wholeStep
  | registerInput n => exact Edit.wholeDiscard Edit.wholeStepWith
  | registerOutput n q => exact Edit.wholeStep
  | assignBasis n basis => exact Edit.wholeStep
  | applyClifford n c => exact Graph.applyCliffordWhole harmless
  | expandCliffords =>
    obtain ⟨out, left, ran⟩ := Graph.expandCliffordsTotal reach harmless
    exact Edit.wholeDiscard (Edit.wholeOk ran)

theorem Operation.harmfulLoses {g : Graph R} (reach : g.Reachable) {op : Operation R}
    (harmful : ¬ op.Harmless g) :
    ∃ x left, op.edit.apply g = (.error x, left) ∧ ∃ n ∈ g.cliffords.keys, n ∉ left.cliffords.keys := by
  have roles := Graph.reachableRoles reach
  have sound := Graph.reachableSound reach
  cases op with
  | applyClifford n c =>
    simp only [Harmless, not_forall, not_exists] at harmful
    obtain ⟨old, waiting, never⟩ := harmful
    have waits : n ∈ g.cliffords.keys := Table.memKeys.mpr ⟨old, waiting⟩
    have role := roles.cliffordsHeld n waits
    have there := role.elim (sound.inputsThere n) (sound.outputsThere n)
    cases failed : c.after old with
    | ok joined => exact absurd failed (never joined)
    | error x => exact ⟨x, _, Graph.applyCliffordLoses there role waiting failed, n, waits, by simp⟩
  | expandCliffords =>
    simp only [Harmless, not_forall] at harmful
    obtain ⟨n, output, waits, inner⟩ := harmful
    obtain ⟨left, broke, lost⟩ := Graph.expandCliffordsRefused reach output waits inner
    exact ⟨_, left, Edit.bindBroke broke, lost⟩
  | _ => exact absurd trivial harmful

/- A failed operation leaves the graph as it was if it is harmless, and only then. -/
theorem Graph.refusedUnchanged {g : Graph R} (reach : g.Reachable) (op : Operation R) :
    (op.Harmless g → ∀ x left, op.edit.apply g = (.error x, left) → left = g) ∧
      (¬ op.Harmless g → ∃ x left, op.edit.apply g = (.error x, left) ∧
        ∃ n ∈ g.cliffords.keys, n ∉ left.cliffords.keys) :=
  ⟨fun harmless => Operation.harmlessWhole reach harmless, fun harmful => Operation.harmfulLoses reach harmful⟩

noncomputable def LocalClifford.still : LocalClifford ℝ where
  unitary := ⟨Scalar.zero, Scalar.zero, Scalar.zero⟩
  clifford := ⟨Angle.zeroClifford, Angle.zeroClifford, Angle.zeroClifford⟩

namespace Graph

noncomputable def lamp : Graph ℝ :=
  after [.addNode, .addNode, .registerInput 0, .registerOutput 1 0, .applyClifford 1 .still]

theorem lampKept : (Operation.removeNode 0).edit.apply lamp = (.error .inputRemoved, lamp) ∧
    ∀ x left, (Operation.removeNode 0).edit.apply lamp = (.error x, left) → left = lamp :=
  ⟨rfl, (refusedUnchanged ⟨_, rfl⟩ (.removeNode 0)).1 trivial⟩

theorem lampLosesClifford : lamp.Reachable ∧ lamp.cliffords.keys = [1] ∧
    ∃ x left, Operation.expandCliffords.edit.apply lamp = (.error x, left) ∧ left.cliffords.keys ≠ [1] := by
  have reach : lamp.Reachable := ⟨_, rfl⟩
  have waiting : lamp.cliffords.keys = [1] := rfl
  refine ⟨reach, waiting, ?_⟩
  obtain ⟨left, broke, n, waits, lost⟩ :=
    expandCliffordsRefused (n := 1) reach (by decide) (by decide) (by decide)
  refine ⟨_, left, Edit.bindBroke broke, fun same => lost ?_⟩
  rw [same, ← waiting]
  exact waits

end Graph
end OneWay
