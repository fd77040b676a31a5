import OneWay.Proofs.Contents

/-! Live nodes. A preparation makes a node live and a measurement ends it. The two checks that look for
measured and for unprepared nodes keep sets that only grow; together they accept just the patterns whose
commands act on nodes that are live at that point. -/
namespace OneWay

namespace Command
variable {R : Type}

def noteMeasured (s : NodeSet) : Command R → NodeSet
  | .measure n _ => s.insert n
  | _ => s

def notePrepared (s : NodeSet) : Command R → NodeSet
  | .prepare n => s.insert n
  | _ => s

def onLive (live : NodeSet) : Command R → NodeSet
  | .prepare n => live.insert n
  | .measure n _ => live.erase n
  | _ => live

end Command

def Violation.command? {R : Type} : Violation R → Option (Command R)
  | .measuredTwice c | .entanglesMeasured c | .actsOnMeasured c | .entanglesUnprepared c
  | .actsOnUnprepared c | .measuresOutput c => some c
  | .unknownCommand => some .unknown
  | .unmeasuredDependants _ | .measurementsMissing _ => none

namespace Pattern
open Command
variable {R : Type} {P Q : List (Command R) → Command R → Prop} {s inputs : NodeSet}
  {c : Command R} {commands first rest before : List (Command R)} {v : Violation R} {n : Int}
  {check : NodeSet → List (Command R) → Except (Violation R) Unit}
  {note : NodeSet → Command R → NodeSet}

theorem memNoteMeasured :
    n ∈ before.foldl noteMeasured s ↔ n ∈ s ∨ ∃ basis, Command.measure n basis ∈ before := by
  induction before generalizing s with
  | nil => simp
  | cons c before ih =>
    rw [List.foldl_cons, ih]
    cases c <;> simp [noteMeasured, or_assoc, or_left_comm, exists_or]

theorem memNotePrepared : n ∈ before.foldl notePrepared s ↔ n ∈ s ∨ Command.prepare n ∈ before := by
  induction before generalizing s with
  | nil => simp
  | cons c before ih =>
    rw [List.foldl_cons, ih]
    cases c <;> simp [notePrepared, or_assoc, or_left_comm]

theorem Along.imp (all : Along P commands) (weaker : ∀ before c, P before c → Q before c) :
    Along Q commands :=
  fun before c after split => weaker before c (all before c after split)

theorem Along.front (all : Along P (first ++ rest)) : Along P first := by
  rintro before c after rfl
  exact all before c (after ++ rest) (by simp)

theorem alongAnd : Along (fun before c => P before c ∧ Q before c) commands ↔
    Along P commands ∧ Along Q commands := by
  simp only [Along, forall_and]

theorem Along.last (all : Along P (first ++ [c])) : P first c := all first c [] rfl

structure Stepwise (check : NodeSet → List (Command R) → Except (Violation R) Unit)
    (note : NodeSet → Command R → NodeSet) : Prop where
  nil (s : NodeSet) : check s [] = .ok ()
  cons (s : NodeSet) (c : Command R) (rest : List (Command R)) :
    check s (c :: rest) = check s [c] >>= fun _ => check (note s c) rest

namespace Stepwise

theorem accepted (walk : Stepwise check note) : check s commands = .ok () ↔
    Along (fun before c => check (before.foldl note s) [c] = .ok ()) commands := by
  induction commands generalizing s with
  | nil => simp [walk.nil, alongNil]
  | cons c rest ih =>
    rw [walk.cons, Result.bindOk, alongCons]
    constructor
    · rintro ⟨_, head, tail⟩
      exact ⟨head, ih.mp tail⟩
    · rintro ⟨head, tail⟩
      exact ⟨(), head, ih.mpr tail⟩

theorem refused (walk : Stepwise check note) (no : check s commands = .error v) :
    ∃ before c after, commands = before ++ c :: after ∧ check s before = .ok () ∧
      check (before.foldl note s) [c] = .error v := by
  induction commands generalizing s with
  | nil =>
    rw [walk.nil] at no
    cases no
  | cons c rest ih =>
    rw [walk.cons, Result.bindError] at no
    rcases no with now | ⟨_, passed, later⟩
    · exact ⟨[], c, rest, rfl, walk.nil s, now⟩
    · obtain ⟨before, d, after, rfl, front, found⟩ := ih later
      refine ⟨c :: before, d, after, rfl, ?_, found⟩
      rw [walk.cons, Result.bindOk]
      exact ⟨(), passed, front⟩

end Stepwise

theorem measuredStepwise : Stepwise (R := R) measuredUntouched noteMeasured where
  nil _ := rfl
  cons s c rest := by
    cases c with
    | unknown => rfl
    | entangle a b =>
      simp only [measuredUntouched]
      split <;> rfl
    | measure n _ | prepare n | correctX n | correctZ n =>
      simp only [measuredUntouched]
      split <;> rfl

theorem preparedStepwise : Stepwise (R := R) unpreparedUntouched notePrepared where
  nil _ := rfl
  cons s c rest := by
    cases c with
    | unknown => rfl
    | prepare n => rfl
    | entangle a b =>
      simp only [unpreparedUntouched]
      split <;> rfl
    | measure n _ | correctX n | correctZ n =>
      simp only [unpreparedUntouched]
      split <;> rfl

theorem measuredNames (no : measuredUntouched s [c] = .error v) : v.command? = some c := by
  cases c with
  | unknown =>
    cases no
    rfl
  | entangle a b =>
    simp only [measuredUntouched] at no
    split at no <;> cases no
    rfl
  | measure n _ | prepare n | correctX n | correctZ n =>
    simp only [measuredUntouched] at no
    split at no <;> cases no
    rfl

theorem preparedNames (no : unpreparedUntouched s [c] = .error v) : v.command? = some c := by
  cases c with
  | unknown | prepare n => cases no
  | entangle a b =>
    simp only [unpreparedUntouched] at no
    split at no <;> cases no
    rfl
  | measure n _ | correctX n | correctZ n =>
    simp only [unpreparedUntouched] at no
    split at no <;> cases no
    rfl

def live (inputs : NodeSet) (before : List (Command R)) : NodeSet := before.foldl onLive inputs

theorem liveSnoc : live inputs (before ++ [c]) = onLive (live inputs before) c := by
  simp [live, List.foldl_append]

def Allowed (inputs : NodeSet) (before : List (Command R)) : Command R → Prop
  | .prepare n => ∀ basis, .measure n basis ∉ before
  | .entangle a b => a ∈ live inputs before ∧ b ∈ live inputs before
  | .measure n _ | .correctX n | .correctZ n => n ∈ live inputs before
  | .unknown => False

def Safe (p : Pattern R) : Prop := Along (Allowed (.ofList p.inputs.keys)) p.commands

def Final (commands : List (Command R)) : Prop :=
  Along (fun before c => ∀ n, c = .prepare n → ∀ basis, .measure n basis ∉ before) commands

theorem liveReady (here : n ∈ live inputs before) : n ∈ inputs ∨ .prepare n ∈ before := by
  induction before using List.reverseRecOn with
  | nil => exact .inl here
  | append_singleton before c ih =>
    rw [liveSnoc] at here
    have step : n ∈ live inputs before ∨ c = .prepare n := by
      cases c with
      | prepare k => simpa [onLive, or_comm, eq_comm] using here
      | measure k _ => exact .inl (NodeSet.memErase.mp here).1
      | _ => exact .inl here
    rcases step with old | rfl
    · exact (ih old).imp_right (List.mem_append_left _)
    · simp

/- While no measured node is prepared again, the live nodes are those that the two growing sets tell
apart. -/
theorem memLive (final : Final before) : n ∈ live inputs before ↔
    (n ∈ inputs ∨ .prepare n ∈ before) ∧ ∀ basis, .measure n basis ∉ before := by
  induction before using List.reverseRecOn with
  | nil => simp [live]
  | append_singleton before c ih =>
    have last := final.last
    rw [liveSnoc]
    cases c with
    | prepare k =>
      have fresh := last k rfl
      by_cases same : n = k
      · subst same
        simp [onLive, fresh]
      · simp [onLive, ih final.front, same]
    | measure k basis =>
      by_cases same : n = k
      · subst same
        exact iff_of_false (by simp [onLive]) fun free => free.2 basis (by simp)
      · simp [onLive, ih final.front, same]
    | _ => simp [onLive, ih final.front]

theorem allowedIff (final : Final before) : Allowed inputs before c ↔
    (c ≠ .unknown ∧ ∀ n ∈ c.targets, ∀ basis, .measure n basis ∉ before) ∧
      (c.prepared? = none → ∀ n ∈ c.targets, n ∈ inputs ∨ .prepare n ∈ before) := by
  cases c with
  | unknown => simp [Allowed]
  | prepare n => simp [Allowed, targets, prepared?]
  | entangle a b =>
    simp only [Allowed, memLive final, targets, prepared?, List.forall_mem_cons, List.not_mem_nil, ne_eq,
      reduceCtorEq, not_false_eq_true, false_implies, implies_true, true_and, and_true, forall_const]
    exact and_and_and_comm.trans and_comm
  | measure n _ | correctX n | correctZ n => simp [Allowed, memLive final, targets, prepared?, and_comm]

theorem finalOfFree
    (free : Along (fun before c => ∀ n ∈ c.targets, ∀ basis, .measure n basis ∉ before) commands) :
    Final commands := by
  refine free.imp ?_
  rintro before c free n rfl
  exact free n (by simp [targets])

theorem finalOfAllowed (all : Along (Allowed inputs) commands) : Final commands := by
  refine all.imp ?_
  rintro before c allowed n rfl
  exact allowed

theorem touchedIff : measuredUntouched ∅ commands = .ok () ∧
    unpreparedUntouched inputs commands = .ok () ↔ Along (Allowed inputs) commands := by
  rw [measuredUntouchedOk, unpreparedUntouchedOk, ← alongAnd]
  simp only [NodeSet.notMemEmpty, not_false_eq_true, true_and]
  constructor
  · intro all before c after split
    have final : Final before := finalOfFree ((split ▸ all).front.imp fun _ _ both => both.1.2)
    exact (allowedIff final).mpr (all before c after split)
  · intro all before c after split
    exact (allowedIff (finalOfAllowed (split ▸ all).front)).mp (all before c after split)

theorem measuredRefusesRightly (front : measuredUntouched ∅ before = .ok ())
    (no : measuredUntouched (before.foldl noteMeasured ∅) [c] = .error v) : ¬ Allowed inputs before c := by
  intro allowed
  have final : Final before := finalOfFree ((measuredUntouchedOk.mp front).imp
    fun _ _ each n mem => (each.2 n mem).2)
  obtain ⟨⟨known, free⟩, _⟩ := (allowedIff final).mp allowed
  have passed : measuredUntouched (before.foldl noteMeasured ∅) [c] = .ok () := by
    refine untouchedCons.mpr ⟨known, fun n mem => ?_, rfl⟩
    simpa [memNoteMeasured] using free n mem
  rw [passed] at no
  cases no

theorem allowedReady (allowed : Allowed inputs before c) (other : c.prepared? = none) :
    ∀ n ∈ c.targets, n ∈ inputs ∨ .prepare n ∈ before := by
  cases c with
  | prepare n => cases other
  | unknown => cases allowed
  | entangle a b => simpa [targets] using ⟨liveReady allowed.1, liveReady allowed.2⟩
  | measure n _ | correctX n | correctZ n => simpa [targets] using liveReady allowed

theorem preparedRefusesRightly
    (no : unpreparedUntouched (before.foldl notePrepared inputs) [c] = .error v) :
    ¬ Allowed inputs before c := by
  intro allowed
  have passed : unpreparedUntouched (before.foldl notePrepared inputs) [c] = .ok () := by
    cases kind : c.prepared? with
    | none =>
      refine (unpreparedCons kind).mpr ⟨fun n mem => ?_, rfl⟩
      exact memNotePrepared.mpr (allowedReady allowed kind n mem)
    | some n =>
      cases c <;> cases kind
      rfl
  rw [passed] at no
  cases no

/- The two checks for touched nodes accept just the patterns that can be carried out from the first
command to the last, and a command that one of them names cannot be carried out at its place. -/
theorem touchedOnlyLive (p : Pattern R) :
    (p.checkMeasured = .ok () ∧ p.checkPrepared = .ok () ↔ p.Safe) ∧
    ∀ v, p.checkMeasured = .error v ∨ p.checkPrepared = .error v → ∃ before c after,
      p.commands = before ++ c :: after ∧ v.command? = some c ∧
        ¬ Allowed (.ofList p.inputs.keys) before c := by
  refine ⟨touchedIff, fun v no => ?_⟩
  rcases no with no | no
  · obtain ⟨before, c, after, split, front, found⟩ := measuredStepwise.refused no
    exact ⟨before, c, after, split, measuredNames found, measuredRefusesRightly front found⟩
  · obtain ⟨before, c, after, split, _, found⟩ := preparedStepwise.refused no
    exact ⟨before, c, after, split, preparedNames found, preparedRefusesRightly found⟩

def ferry : Pattern Float where
  inputs := .ofList [(0, 0)]
  outputs := .ofList [(2, 0)]
  commands := [.prepare 1, .entangle 0 1, .measure 0 (.axial .x .plus), .prepare 2, .entangle 1 2,
    .measure 1 (.axial .x .minus), .correctX 2, .correctZ 2]
  frame := .ofSets (.ofList [0, 1, 2]) ∅ ∅

def ferryAgain : Pattern Float := { ferry with commands := ferry.commands ++ [.prepare 0] }

theorem ferrySafe : ferry.Safe ∧ ¬ ferryAgain.Safe ∧ ∃ before c after,
    ferryAgain.commands = before ++ c :: after ∧ c = .prepare 0 ∧
      ¬ Allowed (.ofList ferryAgain.inputs.keys) before c := by
  have again : ferryAgain.checkMeasured = .error (.actsOnMeasured (.prepare 0)) := rfl
  obtain ⟨safe, names⟩ := touchedOnlyLive ferryAgain
  obtain ⟨before, c, after, split, named, wrong⟩ := names _ (.inl again)
  refine ⟨(touchedOnlyLive ferry).1.mp ⟨rfl, rfl⟩, fun all => ?_, before, c, after, split,
    (Option.some.inj named).symm, wrong⟩
  rw [(safe.mpr all).1] at again
  cases again

end Pattern
end OneWay
