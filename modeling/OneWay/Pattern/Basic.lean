import OneWay.Command
import OneWay.Frame

/-! Measurement patterns: commands in the order in which they are carried out, the nodes that hold the
logical qubits before and after, and the frame that tracks corrections. -/
namespace OneWay

structure Pattern (R : Type) where
  inputs : Table Int
  outputs : Table Int
  commands : List (Command R)
  frame : Frame

namespace Pattern
variable {R : Type}

def spaceFrom (live : Int) : List (Command R) → List Int
  | [] => [live]
  | .prepare _ :: rest => live :: spaceFrom (live + 1) rest
  | .measure _ _ :: rest => live :: spaceFrom (live - 1) rest
  | _ :: rest => spaceFrom live rest

def space (p : Pattern R) : List Int := spaceFrom p.inputs.size p.commands

def maxSpace (p : Pattern R) : Int := p.space.foldl max p.inputs.size

/-- The text of each command that `keep` keeps, cut off when `limit` commands, or as many as there
are, have been written; then a line says how many were not looked at. -/
def linesFrom (keep : Command Float → Bool) (limit : Int) :
    Int → List (Command Float) → Except Fault (List String)
  | _, [] => .ok []
  | written, c :: rest =>
      if keep c then do
        let line ← c.text
        if limit ≤ written + 1 then
          return [line, s!"{rest.length} more commands truncated. " ++
            "Change lim argument of print_pattern() to show more"]
        else return line :: (← linesFrom keep limit (written + 1) rest)
      else linesFrom keep limit written rest

def lines (p : Pattern Float) (limit : Int) (keep : Command Float → Bool) :
    Except Fault (List String) :=
  linesFrom keep (min limit p.commands.length) 0 p.commands

def defaultLimit : Int := 40

def known : Command Float → Bool
  | .unknown => false
  | _ => true

end Pattern
end OneWay
