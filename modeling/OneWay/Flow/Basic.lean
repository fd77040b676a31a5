import OneWay.Fault
import OneWay.NodeSet
import OneWay.Table

/-! Correction flows: to each measured node the node, or the set of nodes, that its outcome corrects.
A table may mix the two, or hold something that is neither; what reads it says which it takes. -/
namespace OneWay

inductive Correction where
  | node (n : Int)
  | nodes (s : NodeSet)
  | neither
  deriving DecidableEq, Repr

abbrev Flow := Table Correction

namespace Correction

def toSet : Correction → NodeSet
  | .node n => .singleton n
  | .nodes s => s
  | .neither => ∅

def asSet : Correction → Except Fault NodeSet
  | .nodes s => .ok s
  | _ => .error .notASet

end Correction

namespace Flow

def isCausal (f : Flow) : Bool := f.values.all fun c => match c with
  | .node _ => true
  | _ => false

def isGeneral (f : Flow) : Bool := f.values.all fun c => match c with
  | .nodes _ => true
  | _ => false

def ofSets (t : Table NodeSet) : Flow := t.mapValues fun _ s => .nodes s

def toSets (f : Flow) (fault : Fault) : Except Fault (Table NodeSet) :=
  if f.isCausal || f.isGeneral then .ok (f.mapValues fun _ c => c.toSet) else .error fault

def sets (f : Flow) : Except Fault (Table NodeSet) :=
  f.entries.foldlM (fun t e => do return t.set e.1 (← e.2.asSet)) ∅

end Flow
end OneWay
