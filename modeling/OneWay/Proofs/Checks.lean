import OneWay.Proofs.Liveness
import OneWay.Proofs.Resource

/-! What the checks for dependants and for measured nodes decide. The first reads a pattern from its end: it
wants dependants to be measured before the node that they depend on. The second wants the prepared
outputs among the measured nodes, which are not to be measured. -/
namespace OneWay

namespace Pattern
open Command
variable {R : Type} {s : NodeSet} {frame : Frame} {commands before : List (Command R)} {v : Violation R}
  {n m : Int} {p : Pattern R}

theorem dependantsStepwise : Stepwise (R := R) (dependantsMeasured frame) noteMeasured where
  nil _ := rfl
  cons s c rest := by
    cases c with
    | measure n basis =>
      simp only [dependantsMeasured]
      split <;> rfl
    | _ => rfl

def IsMeasured (p : Pattern R) (n : Int) : Prop := ∃ basis, .measure n basis ∈ p.commands

def MeasuredOnce (p : Pattern R) : Prop := ((p.commands.filterMap measured?).map Prod.fst).Nodup

instance : Decidable p.MeasuredOnce := inferInstanceAs (Decidable (List.Nodup _))

def Precedes (p : Pattern R) (n m : Int) : Prop :=
  ∃ a b, List.Sublist [.measure n a, .measure m b] p.commands

def Acausal (p : Pattern R) : Prop := ∃ n, ∃ m ∈ p.frame.children n, p.Precedes m n

def reversed (p : Pattern R) : Pattern R := { p with commands := p.commands.reverse }

theorem Precedes.earlier (order : p.Precedes n m) : p.IsMeasured n := by
  obtain ⟨a, b, sub⟩ := order
  exact ⟨a, sub.subset (by simp)⟩

theorem Precedes.later (order : p.Precedes n m) : p.IsMeasured m := by
  obtain ⟨a, b, sub⟩ := order
  exact ⟨b, sub.subset (by simp)⟩

theorem precedesReversed : p.reversed.Precedes n m ↔ p.Precedes m n := by
  have turn (c d : Command R) :
      List.Sublist [c, d] p.commands.reverse ↔ List.Sublist [d, c] p.commands := by
    rw [← List.reverse_sublist, List.reverse_reverse]
    rfl
  constructor
  · rintro ⟨a, b, sub⟩
    exact ⟨b, a, (turn _ _).mp sub⟩
  · rintro ⟨b, a, sub⟩
    exact ⟨a, b, (turn _ _).mpr sub⟩

section Once
variable {after : List (Command R)} {basis : Basis R} (once : p.MeasuredOnce)
include once

theorem MeasuredOnce.elsewhere (split : p.commands = before ++ .measure n basis :: after) (b : Basis R) :
    .measure n b ∉ before ++ after := by
  have nodes : (p.commands.filterMap measured?).map Prod.fst =
      (before.filterMap measured?).map Prod.fst ++ n :: (after.filterMap measured?).map Prod.fst := by
    rw [split]
    simp [measured?]
  rw [MeasuredOnce, nodes, List.nodup_middle, ← List.map_append, ← List.filterMap_append] at once
  exact fun mem => (List.nodup_cons.mp once).1 (List.mem_map_of_mem (memMeasured.mpr mem))

theorem MeasuredOnce.precedes (split : p.commands = before ++ .measure n basis :: after) :
    p.Precedes m n ↔ ∃ a, .measure m a ∈ before := by
  constructor
  · rintro ⟨a, b, sub⟩
    rw [split] at sub
    obtain ⟨front, back, parts, inFront, inBack⟩ := List.sublist_append_iff.mp sub
    cases front with
    | nil =>
      cases parts
      have late : .measure n b ∈ after := inBack.tail.subset (by simp)
      exact absurd (List.mem_append_right before late) (once.elsewhere split b)
    | cons c front =>
      cases (List.cons.inj parts).1
      exact ⟨a, inFront.subset (by simp)⟩
  · rintro ⟨a, mem⟩
    refine ⟨a, basis, ?_⟩
    rw [split]
    exact (List.singleton_sublist.mpr mem).append (List.singleton_sublist.mpr (by simp))

theorem MeasuredOnce.asymm (order : p.Precedes n m) : ¬ p.Precedes m n := by
  intro back
  obtain ⟨basis, mem⟩ := order.later
  obtain ⟨before, after, split⟩ := List.append_of_mem mem
  obtain ⟨a, early⟩ := (once.precedes split).mp order
  obtain ⟨front, middle, rfl⟩ := List.append_of_mem early
  have there : p.commands = front ++ .measure n a :: (middle ++ .measure m basis :: after) := by
    rw [split]
    simp
  obtain ⟨b, twice⟩ := (once.precedes there).mp back
  exact once.elsewhere split b (by simp [twice])

end Once

def waiting (frame : Frame) (before : List (Command R)) (n : Int) : NodeSet :=
  (frame.children n).diff ((before.foldl noteMeasured ∅).insert n)

theorem memWaiting : m ∈ waiting frame before n ↔
    m ∈ frame.children n ∧ ¬ ∃ basis, Command.measure m basis ∈ before := by
  have other : m ∈ frame.children n → m ≠ n := fun child => (NodeSet.memErase.mp child).2
  rw [waiting, NodeSet.memDiff, NodeSet.memInsert, memNoteMeasured]
  simp only [NodeSet.notMemEmpty, false_or, not_or]
  exact and_congr_right fun child => and_iff_right (other child)

theorem waitingEmpty : (waiting frame before n).isEmpty = true ↔
    ∀ m ∈ frame.children n, ∃ basis, Command.measure m basis ∈ before := by
  rw [NodeSet.isEmptyIff]
  simp only [memWaiting, not_and, not_not]

theorem dependantsOne {basis : Basis R} :
    dependantsMeasured frame (before.foldl noteMeasured ∅) [.measure n basis] =
      if (waiting frame before n).isEmpty then .ok ()
      else .error (.unmeasuredDependants (waiting frame before n)) := rfl

theorem dependantsOneOk {basis : Basis R} :
    dependantsMeasured frame (before.foldl noteMeasured ∅) [.measure n basis] = .ok () ↔
      ∀ m ∈ frame.children n, ∃ a, Command.measure m a ∈ before := by
  rw [dependantsOne, ← waitingEmpty]
  split <;> simp_all

theorem checkDependantsOk : p.checkDependants = .ok () ↔
    ∀ before n basis after, p.commands = before ++ .measure n basis :: after →
      ∀ m ∈ p.frame.children n, ∃ a, .measure m a ∈ before := by
  refine dependantsStepwise.accepted.trans ⟨fun all before n basis after split => ?_, ?_⟩
  · exact dependantsOneOk.mp (all before _ after split)
  · intro all before c after split
    cases c with
    | measure n basis => exact dependantsOneOk.mpr (all before n basis after split)
    | _ => rfl

theorem checkDependantsRefused (no : p.checkDependants = .error v) :
    ∃ before n basis after, p.commands = before ++ .measure n basis :: after ∧
      v = .unmeasuredDependants (waiting p.frame before n) ∧
      ∃ m, m ∈ waiting p.frame before n := by
  obtain ⟨before, c, after, split, _, found⟩ := dependantsStepwise.refused no
  cases c with
  | measure n basis =>
    rw [dependantsOne] at found
    split at found
    · cases found
    · rename_i some
      rw [NodeSet.isEmptyIff] at some
      exact ⟨before, n, basis, after, split, (Except.error.inj found).symm, not_forall_not.mp some⟩
  | _ => cases found

def DependantsFirst (p : Pattern R) : Prop :=
  ∀ n, p.IsMeasured n → ∀ m ∈ p.frame.children n, p.Precedes m n

theorem MeasuredOnce.dependantsFirst (once : p.MeasuredOnce) :
    p.checkDependants = .ok () ↔ p.DependantsFirst := by
  rw [checkDependantsOk]
  constructor
  · rintro all n ⟨basis, mem⟩ m child
    obtain ⟨before, after, split⟩ := List.append_of_mem mem
    exact (once.precedes split).mpr (all before n basis after split m child)
  · intro all before n basis after split m child
    exact (once.precedes split).mp (all n ⟨basis, by simp [split]⟩ m child)

theorem MeasuredOnce.firstIff (once : p.MeasuredOnce) : p.DependantsFirst ↔
    (∀ n, p.IsMeasured n → ∀ m ∈ p.frame.children n, p.IsMeasured m) ∧ ¬ p.reversed.Acausal := by
  constructor
  · intro all
    refine ⟨fun n here m child => (all n here m child).earlier, ?_⟩
    rintro ⟨n, m, child, turned⟩
    have order := precedesReversed.mp turned
    exact once.asymm order (all n order.earlier m child)
  · rintro ⟨all, causal⟩ n ⟨b, here⟩ m child
    obtain ⟨a, there⟩ := all n ⟨b, here⟩ m child
    have other : m ≠ n := (NodeSet.memErase.mp child).2
    have apart : Command.measure m a ≠ .measure n b := fun same => other (Command.measure.inj same).1
    rcases eitherOrder there here apart with order | order
    · exact ⟨a, b, order⟩
    · exact absurd ⟨n, m, child, precedesReversed.mpr ⟨b, a, order⟩⟩ causal

theorem DependantsFirst.acausal (all : p.DependantsFirst) :
    p.Acausal ↔ ¬ ∀ n, p.IsMeasured n → p.frame.children n = ∅ := by
  simp only [NodeSet.eqEmptyIff]
  constructor
  · rintro ⟨n, m, child, order⟩ none
    exact none n order.later m child
  · intro some
    by_contra causal
    exact some fun n here m child => causal ⟨n, m, child, all n here m child⟩

/- A pattern in which no node is measured twice passes just when the dependants of measured nodes all come
before them: that is, when they are all measured and nothing is acausal about the pattern read from its
end. The dependants that are named are those of one node that do not come before it. The check is right
about a pattern just when its measured nodes have no dependants, or some of these come before their node
and some do not. -/
theorem dependantsFromEnd (once : p.MeasuredOnce) :
    (p.checkDependants = .ok () ↔ p.DependantsFirst) ∧
    (p.checkDependants = .ok () ↔
      (∀ n, p.IsMeasured n → ∀ m ∈ p.frame.children n, p.IsMeasured m) ∧ ¬ p.reversed.Acausal) ∧
    (∀ v, p.checkDependants = .error v → ∃ n s, p.IsMeasured n ∧ v = .unmeasuredDependants s ∧
      (∃ m, m ∈ s) ∧ ∀ m, m ∈ s ↔ m ∈ p.frame.children n ∧ ¬ p.Precedes m n) ∧
    (((∃ v, p.checkDependants = .error v) ↔ p.Acausal) ↔
      (∀ n, p.IsMeasured n → p.frame.children n = ∅) ∨ p.Acausal ∧ ¬ p.DependantsFirst) := by
  have first := once.dependantsFirst
  refine ⟨first, first.trans once.firstIff, fun v no => ?_, ?_⟩
  · obtain ⟨before, n, basis, after, split, rfl, some⟩ := checkDependantsRefused no
    refine ⟨n, _, ⟨basis, by simp [split]⟩, rfl, some, fun m => ?_⟩
    rw [memWaiting, once.precedes split]
  · have refused : (∃ v, p.checkDependants = .error v) ↔ ¬ p.DependantsFirst := by
      rw [← first]
      cases p.checkDependants <;> simp
    rw [refused]
    by_cases all : p.DependantsFirst
    · have acausal := all.acausal
      tauto
    · have some : ¬ ∀ n, p.IsMeasured n → p.frame.children n = ∅ := by
        simp only [NodeSet.eqEmptyIff]
        exact fun none => all fun n here m child => absurd child (none n here m)
      tauto

def strand (order : List Int) : Pattern Float where
  inputs := .ofList [(0, 0), (1, 1), (2, 2)]
  outputs := ∅
  commands := order.map fun n => .measure n (.axial .x .plus)
  frame := .ofSets (.ofList [0, 1, 2]) (.ofList [(0, .singleton 1), (1, .singleton 2)]) ∅

theorem strandNodes {order : List Int} :
    ((strand order).commands.filterMap measured?).map Prod.fst = order := by
  simp [strand, List.filterMap_map, Function.comp_def, measured?]

theorem strandPrecedes {order : List Int} : (strand order).Precedes n m ↔ List.Sublist [n, m] order := by
  constructor
  · rintro ⟨a, b, sub⟩
    have nodes := (sub.filterMap measured?).map Prod.fst
    rwa [strandNodes] at nodes
  · exact fun sub => ⟨_, _, sub.map fun n => Command.measure n (.axial .x .plus)⟩

theorem strandAcausal {order : List Int} : (strand order).Acausal ↔
    ∃ n ∈ order, ∃ m ∈ order, m ∈ (strand []).frame.children n ∧ List.Sublist [m, n] order := by
  constructor
  · rintro ⟨n, m, child, before⟩
    have sub := strandPrecedes.mp before
    exact ⟨n, sub.subset (by simp), m, sub.subset (by simp), child, sub⟩
  · rintro ⟨n, _, m, _, child, sub⟩
    exact ⟨n, m, child, strandPrecedes.mpr sub⟩

theorem strandMixed : (strand [1, 0, 2]).MeasuredOnce ∧ ¬ (strand [1, 0, 2]).DependantsFirst ∧
    (strand [1, 0, 2]).Acausal ∧
    ((∃ v, (strand [1, 0, 2]).checkDependants = .error v) ↔ (strand [1, 0, 2]).Acausal) := by
  have once : (strand [1, 0, 2]).MeasuredOnce := by decide
  have refused : (strand [1, 0, 2]).checkDependants = .error (.unmeasuredDependants (.singleton 2)) := rfl
  have acausal : (strand [1, 0, 2]).Acausal := strandAcausal.mpr (by decide)
  obtain ⟨passes, _, _, right⟩ := dependantsFromEnd once
  have late : ¬ (strand [1, 0, 2]).DependantsFirst := by
    intro all
    rw [passes.mpr all] at refused
    cases refused
  exact ⟨once, late, acausal, right.mpr (.inr ⟨acausal, late⟩)⟩

theorem strandBackwards : (strand [0, 1, 2]).MeasuredOnce ∧ ¬ (strand [0, 1, 2]).Acausal ∧
    (strand [0, 1, 2]).checkDependants = .error (.unmeasuredDependants (.singleton 1)) ∧
    (strand [2, 1, 0]).MeasuredOnce ∧ (strand [2, 1, 0]).Acausal ∧
    (strand [2, 1, 0]).checkDependants = .ok () :=
  ⟨by decide, strandAcausal.not.mpr (by decide), rfl, by decide, strandAcausal.mpr (by decide), rfl⟩

def Consistent (p : Pattern R) : Prop :=
  ∀ n, p.IsMeasured n ↔ (.prepare n ∈ p.commands ∨ n ∈ p.inputs.keys) ∧ n ∉ p.outputs.keys

def preparedOutputs (p : Pattern R) : NodeSet := (preparedNodes p.commands).inter (.ofList p.outputs.keys)

theorem memPreparedOutputs :
    n ∈ p.preparedOutputs ↔ .prepare n ∈ p.commands ∧ n ∈ p.outputs.keys := by
  simp [preparedOutputs, memPreparedNodes]

theorem measuredNodesOk {outputs t : NodeSet} : measuredNodes outputs s commands = .ok t ↔
    (∀ n basis, .measure n basis ∈ commands → n ∉ outputs) ∧ t = commands.foldl noteMeasured s := by
  induction commands generalizing s with
  | nil => simp [measuredNodes, eq_comm]
  | cons c rest ih =>
    cases c with
    | measure k b =>
      by_cases output : k ∈ outputs
      · exact iff_of_false (by simp [measuredNodes, output]) fun none => none.1 k b (by simp) output
      · rw [measuredNodes, if_neg output, ih]
        refine and_congr_left fun _ => ⟨fun all n basis mem => ?_, fun all n basis mem => ?_⟩
        · rcases List.mem_cons.mp mem with same | mem
          · rwa [(Command.measure.inj same).1]
          · exact all n basis mem
        · exact all n basis (List.mem_cons_of_mem _ mem)
    | _ => simpa [measuredNodes, noteMeasured] using ih

theorem memMeasuredNodes : n ∈ p.commands.foldl noteMeasured ∅ ↔ p.IsMeasured n := by
  rw [memNoteMeasured, IsMeasured]
  simp

def required (p : Pattern R) : NodeSet :=
  (preparedNodes p.commands).union ((NodeSet.ofList p.inputs.keys).diff (.ofList p.outputs.keys))

theorem memRequired : n ∈ p.required ↔
    .prepare n ∈ p.commands ∨ n ∈ p.inputs.keys ∧ n ∉ p.outputs.keys := by
  simp [required, memPreparedNodes]

theorem checkConsistentIff : p.checkConsistent = .ok () ↔
    p.Consistent ∧ ∀ n, ¬ (.prepare n ∈ p.commands ∧ n ∈ p.outputs.keys) := by
  have inner : (∀ n basis, .measure n basis ∈ p.commands → n ∉ NodeSet.ofList p.outputs.keys) ↔
      ∀ n, p.IsMeasured n → n ∉ p.outputs.keys := by
    simp [IsMeasured]
  have found : p.checkConsistent = .ok () ↔
      (∀ n, p.IsMeasured n → n ∉ p.outputs.keys) ∧ p.required = p.commands.foldl noteMeasured ∅ := by
    rw [← inner]
    exact checkConsistentOk.trans measuredNodesOk
  rw [found, NodeSet.eqIff, Consistent, ← forall_and, ← forall_and]
  refine forall_congr' fun n => ?_
  rw [memRequired, memMeasuredNodes]
  by_cases output : n ∈ p.outputs.keys
  · simp only [output, not_true_eq_false, imp_false, and_false, or_false, iff_false, and_true]
    exact and_congr_right fun gone => by simp [gone]
  · simp only [output, not_false_eq_true, implies_true, true_and, and_true, and_false]
    exact iff_comm

theorem checkConsistentMisses (inner : ∀ n, p.IsMeasured n → n ∉ p.outputs.keys)
    (no : p.checkConsistent ≠ .ok ()) : p.checkConsistent =
      .error (.measurementsMissing (p.required.diff (p.commands.foldl noteMeasured ∅))) := by
  have ran : measuredNodes (.ofList p.outputs.keys) ∅ p.commands =
      .ok (p.commands.foldl noteMeasured ∅) := by
    refine measuredNodesOk.mpr ⟨fun n basis mem => ?_, rfl⟩
    simpa using inner n ⟨basis, mem⟩
  have differ : p.commands.foldl noteMeasured ∅ ≠ p.required := by
    intro same
    exact no (checkConsistentOk.mpr (ran.trans (congrArg _ same)))
  exact Result.bindError.mpr (.inr ⟨_, ran, if_pos differ⟩)

/- The check lets through just the consistent patterns without prepared outputs. In a consistent pattern
it takes those for nodes whose measurement is missing. -/
theorem consistentUnlessPrepared (p : Pattern R) :
    (p.checkConsistent = .ok () ↔ p.Consistent ∧ p.preparedOutputs = ∅) ∧
    (p.Consistent → p.preparedOutputs ≠ ∅ →
      p.checkConsistent = .error (.measurementsMissing p.preparedOutputs)) ∧
    ((p.checkConsistent = .ok () ↔ p.Consistent) ↔ (p.Consistent → p.preparedOutputs = ∅)) := by
  have passes : p.checkConsistent = .ok () ↔ p.Consistent ∧ p.preparedOutputs = ∅ := by
    rw [checkConsistentIff, NodeSet.eqEmptyIff]
    simp only [memPreparedOutputs]
  refine ⟨passes, fun consistent some => ?_, by rw [passes, and_iff_left_iff_imp]⟩
  have missing : p.required.diff (p.commands.foldl noteMeasured ∅) = p.preparedOutputs := by
    refine NodeSet.eqOfMem fun n => ?_
    have measured := consistent n
    rw [NodeSet.memDiff, memRequired, memMeasuredNodes, memPreparedOutputs]
    tauto
  rw [← missing]
  exact checkConsistentMisses (fun n here => ((consistent n).mp here).2) fun ok => some (passes.mp ok).2

theorem ferryConsistent : ferry.Consistent := by
  intro n
  have inputs : ferry.inputs.keys = [0] := rfl
  have outputs : ferry.outputs.keys = [2] := rfl
  rw [inputs, outputs]
  simp only [IsMeasured, ferry, List.mem_cons, List.not_mem_nil, or_false, reduceCtorEq, false_or,
    Command.measure.injEq, Command.prepare.injEq, exists_or, exists_and_left, exists_eq, and_true]
  omega

theorem ferryAsksOutput : ferry.Consistent ∧ ferry.preparedOutputs = .singleton 2 ∧
    ferry.checkConsistent = .error (.measurementsMissing (.singleton 2)) := by
  have some : ferry.preparedOutputs ≠ ∅ := by decide
  exact ⟨ferryConsistent, rfl, (consistentUnlessPrepared ferry).2.1 ferryConsistent some⟩

theorem ferryOutputMissing : ferry.Consistent ∧ ferry.checkConsistent ≠ .ok () := by
  refine ⟨ferryConsistent, fun passed => ?_⟩
  have refused : ferry.checkConsistent = .error (.measurementsMissing (.singleton 2)) := rfl
  cases refused.symm.trans passed

end Pattern
end OneWay
