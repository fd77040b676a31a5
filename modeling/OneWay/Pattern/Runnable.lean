import OneWay.Pattern.Basic

/-! Whether a pattern can be run: four checks, each with the violation it looks for. -/
namespace OneWay

inductive Violation (R : Type) where
  | unmeasuredDependants (nodes : NodeSet)
  | measuredTwice (c : Command R)
  | entanglesMeasured (c : Command R)
  | actsOnMeasured (c : Command R)
  | unknownCommand
  | entanglesUnprepared (c : Command R)
  | actsOnUnprepared (c : Command R)
  | measuresOutput (c : Command R)
  | measurementsMissing (nodes : NodeSet)
  deriving DecidableEq, Repr

namespace Violation

def listText (s : NodeSet) : String :=
  "[" ++ ", ".intercalate (s.toList.map Int.repr) ++ "]"

def about (what : String) (c : Command Float) : Except Fault String := do
  return what ++ (← c.text)

/-- The wording of a violation. It fails where a command has no text. -/
def message : Violation Float → Except Fault String
  | .unmeasuredDependants s =>
      .ok ("These nodes depend on a unmeasured output: " ++ listText s)
  | .measuredTwice c => about "A measurement is repeated on the same qubit: " c
  | .entanglesMeasured c => about "Entanglement operation targets a measured qubit: " c
  | .actsOnMeasured c => about "Operation on a measured qubit: " c
  | .unknownCommand => .ok "Unknown command kind: <class 'str'>"
  | .entanglesUnprepared c =>
      about "Entanglement operation targets a qubit that hasn't been prepared yet: " c
  | .actsOnUnprepared c => about "Operation on a qubit that hasn't been prepared yet: " c
  | .measuresOutput c => about "The command measures an output qubit: " c
  | .measurementsMissing s => .ok ("Missing measurements on qubit(s): " ++ listText s)

end Violation

namespace Pattern
variable {R : Type}

def dependantsMeasured (frame : Frame) : NodeSet → List (Command R) → Except (Violation R) Unit
  | _, [] => .ok ()
  | measured, .measure n _ :: rest =>
      let measured := measured.insert n
      let waiting := (frame.children n).diff measured
      if waiting.isEmpty then dependantsMeasured frame measured rest
      else .error (.unmeasuredDependants waiting)
  | measured, _ :: rest => dependantsMeasured frame measured rest

def measuredUntouched : NodeSet → List (Command R) → Except (Violation R) Unit
  | _, [] => .ok ()
  | measured, c@(.measure n _) :: rest =>
      if n ∈ measured then .error (.measuredTwice c) else measuredUntouched (measured.insert n) rest
  | measured, c@(.entangle a b) :: rest =>
      if a ∈ measured ∨ b ∈ measured then .error (.entanglesMeasured c)
      else measuredUntouched measured rest
  | measured, c@(.prepare n) :: rest | measured, c@(.correctX n) :: rest
  | measured, c@(.correctZ n) :: rest =>
      if n ∈ measured then .error (.actsOnMeasured c) else measuredUntouched measured rest
  | _, .unknown :: _ => .error .unknownCommand

def unpreparedUntouched : NodeSet → List (Command R) → Except (Violation R) Unit
  | _, [] => .ok ()
  | prepared, .prepare n :: rest => unpreparedUntouched (prepared.insert n) rest
  | prepared, c@(.entangle a b) :: rest =>
      if a ∉ prepared ∨ b ∉ prepared then .error (.entanglesUnprepared c)
      else unpreparedUntouched prepared rest
  | prepared, c@(.measure n _) :: rest | prepared, c@(.correctX n) :: rest
  | prepared, c@(.correctZ n) :: rest =>
      if n ∉ prepared then .error (.actsOnUnprepared c) else unpreparedUntouched prepared rest
  | prepared, .unknown :: rest => unpreparedUntouched prepared rest

def measuredNodes (outputs : NodeSet) : NodeSet → List (Command R) → Except (Violation R) NodeSet
  | measured, [] => .ok measured
  | measured, c@(.measure n _) :: rest =>
      if n ∈ outputs then .error (.measuresOutput c)
      else measuredNodes outputs (measured.insert n) rest
  | measured, _ :: rest => measuredNodes outputs measured rest

def preparedNodes (commands : List (Command R)) : NodeSet :=
  .ofList (commands.filterMap fun c => match c with
    | .prepare n => some n
    | _ => none)

def checkDependants (p : Pattern R) : Except (Violation R) Unit :=
  dependantsMeasured p.frame ∅ p.commands

def checkMeasured (p : Pattern R) : Except (Violation R) Unit := measuredUntouched ∅ p.commands

def checkPrepared (p : Pattern R) : Except (Violation R) Unit :=
  unpreparedUntouched (.ofList p.inputs.keys) p.commands

def checkConsistent (p : Pattern R) : Except (Violation R) Unit := do
  let outputs := NodeSet.ofList p.outputs.keys
  let required := (preparedNodes p.commands).union ((NodeSet.ofList p.inputs.keys).diff outputs)
  let measured ← measuredNodes outputs ∅ p.commands
  if measured ≠ required then throw (.measurementsMissing (required.diff measured))

def checkRunnable (p : Pattern R) : Except (Violation R) Unit := do
  p.checkDependants
  p.checkMeasured
  p.checkPrepared
  p.checkConsistent

end Pattern
end OneWay
