import Mathlib.Data.List.Induction
import Mathlib.Data.List.Perm.Subperm
import OneWay.Proofs.Pipeline
import OneWay.Proofs.Roles

/-! The logical qubits of outputs. The number of an output is one that it was registered with, and it is
below the number of inputs. Nothing else is asked of it, so it is the number of an input if it is not
negative, and only then. -/
namespace OneWay.Graph
variable {R : Type} [Scalar R] {g : Graph R} {q : Int}

theorem expandOutputsValues (sound : g.Sound) (roles : g.Roles)
    (mem : q ∈ (expandOutputs.apply g).2.outputs.values) : q ∈ g.outputs.values := by
  by_cases waiting : ∃ n, n ∈ g.outputs.keys ∧ n ∈ g.cliffords.keys
  · obtain ⟨n, output, waits⟩ := waiting
    obtain ⟨left, broke, so, _⟩ := expandOutputsBreaks sound output waits
    rw [broke] at mem
    exact so.outputs ▸ mem
  · obtain ⟨out, outputs, ran, entries⟩ :=
      expandOutputsIdle sound roles fun n output waits => waiting ⟨n, output, waits⟩
    have order := outputsOrder (g := g)
    rw [← entries] at order
    rw [ran] at mem
    exact (order.map Prod.snd).mem_iff.mp mem

theorem expandCliffordsValues (sound : g.Sound) (roles : g.Roles)
    (mem : q ∈ (g.perform .expandCliffords).outputs.values) : q ∈ g.outputs.values := by
  have inputs : Edit.Keeps (fun h : Graph R => (h.Sound ∧ h.Roles) ∧
      ∀ q ∈ h.outputs.values, q ∈ g.outputs.values) expandInputs := by
    intro h now
    obtain ⟨_, left, ran, roles, same, _⟩ := expandInputsTotal now.1.1 now.1.2
    refine ⟨⟨Edit.soundSteps.expandInputs h now.1.1, by rwa [ran]⟩, ?_⟩
    rw [ran, same]
    exact now.2
  have outputs : Edit.Keeps (fun h : Graph R => (h.Sound ∧ h.Roles) ∧
      ∀ q ∈ h.outputs.values, q ∈ g.outputs.values) expandOutputs := fun h now =>
    ⟨⟨Edit.soundSteps.expandOutputs h now.1.1, expandOutputsRoles now.1.1 now.1.2⟩,
      fun q mem => now.2 q (expandOutputsValues now.1.1 now.1.2 mem)⟩
  exact (Edit.keepsDiscard (Edit.keepsBind inputs fun _ => Edit.keepsBind outputs fun _ => Edit.keepsPure) g
    ⟨⟨sound, roles⟩, fun _ mem => mem⟩).2 q mem

theorem performValues (sound : g.Sound) (roles : g.Roles) {op : Operation R}
    (mem : q ∈ (g.perform op).outputs.values) : q ∈ g.outputs.values ∨ ∃ n, op = .registerOutput n q := by
  have fixed (same : (g.perform op).outputs = g.outputs) : q ∈ g.outputs.values := same ▸ mem
  cases op with
  | addNode => exact .inl (fixed (Edit.keepsDiscard (extendsSteps g).addNode g (.refl g)).outputs)
  | addEdge a b => exact .inl (fixed ((extendsSteps g).addEdge a b g (.refl g)).outputs)
  | assignBasis n basis => exact .inl (fixed ((extendsSteps g).assignBasis n basis g (.refl g)).outputs)
  | removeNode n =>
    have keeps : Edit.Keeps (fun h : Graph R => ∀ q ∈ h.outputs.values, q ∈ g.outputs.values)
        (Edit.step fun g => g.removeNode n) := Edit.keepsStep fun h next so ok => by
      obtain ⟨_, _, _, rfl⟩ := removeNodeRest ok
      exact fun q mem => so q (Table.valuesErase.subset mem)
    exact .inl (keeps g (fun _ mem => mem) q mem)
  | removeEdge a b =>
    have keeps : Edit.Keeps (fun h : Graph R => h.outputs = g.outputs) (Edit.step fun g => g.removeEdge a b) :=
      Edit.keepsStep fun h next so ok => by
        obtain ⟨_, _, rfl⟩ := removeEdgeDone ok
        exact so
    exact .inl (fixed (keeps g rfl))
  | registerInput n =>
    have keeps : Edit.Keeps (fun h : Graph R => h.outputs = g.outputs) (Edit.registerInput n) :=
      Edit.keepsStepWith fun h a next so ok => by
        obtain ⟨_, _, _, rfl⟩ := registerInputOk.mp ok
        exact so
    exact .inl (fixed (Edit.keepsDiscard keeps g rfl))
  | registerOutput n p =>
    have keeps : Edit.Keeps (fun h : Graph R => ∀ q ∈ h.outputs.values, q ∈ g.outputs.values ∨ q = p)
        (Edit.registerOutput n p) := Edit.keepsStep fun h next so ok => by
      obtain ⟨_, fresh, _, _, _, rfl⟩ := registerOutputOk.mp ok
      rw [(Table.valuesSet fresh).1]
      exact List.forall_mem_append.mpr ⟨so, List.forall_mem_singleton.mpr (.inr rfl)⟩
    exact (keeps g (fun _ => .inl) q mem).imp_right fun new => ⟨n, by rw [new]⟩
  | applyClifford n c =>
    have keeps : Edit.Keeps (fun h : Graph R => h.outputs = g.outputs) (applyClifford n c) := by
      refine Edit.keepsApplyClifford (fun m => ?_) (fun m d => ?_) (fun m basis => ?_) n c
      · refine Edit.keepsStepWith fun h a next so ok => ?_
        cases ok
        exact so
      · exact Edit.keepsModify fun h so => so
      · refine Edit.keepsStep fun h next so ok => ?_
        obtain ⟨_, _, rfl⟩ := assignBasisOk.mp ok
        exact so
    exact .inl (fixed (keeps g rfl))
  | expandCliffords => exact .inl (expandCliffordsValues sound roles mem)

theorem outputsRegistered (ops : List (Operation R)) (mem : q ∈ (after ops).outputs.values) :
    ∃ n, .registerOutput n q ∈ ops := by
  induction ops using List.reverseRecOn with
  | nil => exact absurd mem List.not_mem_nil
  | append_singleton ops op ih =>
    have reach : (after ops).Reachable := ⟨ops, rfl⟩
    have last : after (ops ++ [op]) = (after ops).perform op := by simp [after]
    rw [last] at mem
    rcases performValues (reachableSound reach) (reachableRoles reach) mem with old | ⟨n, rfl⟩
    · obtain ⟨n, earlier⟩ := ih old
      exact ⟨n, List.mem_append_left _ earlier⟩
    · exact ⟨n, by simp⟩

theorem Roles.memInputs (roles : g.Roles) : q ∈ g.inputs.values ↔ 0 ≤ q ∧ q < g.inputs.size := by
  rw [roles.counted, List.mem_map]
  constructor
  · rintro ⟨k, mem, rfl⟩
    exact ⟨Int.natCast_nonneg k, Int.ofNat_lt.mpr (List.mem_range.mp mem)⟩
  · rintro ⟨nonneg, below⟩
    exact ⟨q.toNat, List.mem_range.mpr (by omega), Int.toNat_of_nonneg nonneg⟩

theorem Roles.outputsAll (roles : g.Roles) (size : g.inputs.size = g.outputs.size)
    (within : ∀ q ∈ g.outputs.values, q ∈ g.inputs.values) : q ∈ g.outputs.values ↔ q ∈ g.inputs.values := by
  have lengths : g.inputs.values.length ≤ g.outputs.values.length := by
    simpa [Table.values, Table.size] using Nat.le_of_eq size
  exact ((roles.outputsOnce.subperm within).perm_of_length_le lengths).mem_iff

/- An output has the number of an input unless it was registered with a negative one, and a canonical graph
has outputs for exactly its inputs unless this was done. -/
theorem outputsLogical (ops : List (Operation R)) :
    (∀ q ∈ (after ops).outputs.values, (∃ n, .registerOutput n q ∈ ops) ∧
      (q ∈ (after ops).inputs.values ↔ 0 ≤ q)) ∧
    ((after ops).isCanonical = true →
      ((∀ q, q ∈ (after ops).outputs.values ↔ q ∈ (after ops).inputs.values) ↔
        ∀ q ∈ (after ops).outputs.values, 0 ≤ q)) := by
  have roles : (after ops).Roles := reachableRoles ⟨ops, rfl⟩
  have number : ∀ q ∈ (after ops).outputs.values, q ∈ (after ops).inputs.values ↔ 0 ≤ q := fun q mem => by
    rw [roles.memInputs]
    exact and_iff_left (roles.outputsBelow q mem)
  refine ⟨fun q mem => ⟨outputsRegistered ops mem, number q mem⟩, fun canonical => ⟨?_, ?_⟩⟩
  · exact fun same q mem => (number q mem).mp ((same q).mp mem)
  · exact fun nonneg q => roles.outputsAll (canonicalIff.mp canonical).1 fun q mem =>
      (number q mem).mpr (nonneg q mem)

def swapped : List (Operation Float) :=
  [.addNode, .addNode, .registerInput 0, .registerInput 1, .registerOutput 0 1, .registerOutput 1 0]

theorem swappedLogical : (after swapped).isCanonical = true ∧ (after swapped).outputs.values = [1, 0] ∧
    ∀ q, q ∈ (after swapped).outputs.values ↔ q ∈ (after swapped).inputs.values :=
  ⟨by decide, by decide, ((outputsLogical swapped).2 (by decide)).mpr (by decide)⟩

def stray : List (Operation Float) := [.addNode, .registerInput 0, .registerOutput 0 (-1)]

theorem strayOutput : (after stray).isCanonical = true ∧ (after stray).outputs.values = [-1] ∧
    (after stray).inputs.values = [0] := by
  decide

end OneWay.Graph
