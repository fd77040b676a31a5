import OneWay.Circuit.Basic
import OneWay.Graph.Edit

/-! Graphs from circuits. Every J measures the node its qubit is on and moves the qubit to a new one; a
controlled Z joins two nodes; a phase gadget hangs a measured node on those of its qubits. The flow
comes with the graph. -/
namespace OneWay.Circuit
variable {R : Type} [Scalar R]

inductive Refusal (R : Type) where
  | fault (f : Fault)
  | notElementary (gate : Gate R)
  deriving DecidableEq, Repr

structure Growth (R : Type) [Scalar R] where
  graph : Graph R
  front : Table Int
  flow : Table NodeSet

namespace Growth

def frontOf (s : Growth R) (q : Int) : Except Fault Int :=
  match s.front.get? q with
  | some n => .ok n
  | none => .error .keyAbsent

def start (qubits : Nat) : Except Fault (Growth R) :=
  (List.range qubits).foldlM (fun (s : Growth R) (_ : Nat) => do
    let (n, g) := s.graph.addNode
    let (q, g) ← g.registerInput n
    return { s with graph := g, front := s.front.set q n }) ⟨Graph.empty, ∅, ∅⟩

def addJ (s : Growth R) (q : Int) (angle : R) : Except Fault (Growth R) := do
  let (fresh, g) := s.graph.addNode
  let n ← s.frontOf q
  let g ← g.addEdge n fresh
  let g ← g.assignBasis n (.planar .xy (-angle))
  return ⟨g, s.front.set q fresh, s.flow.set n (.singleton fresh)⟩

def operand (qubits : List Int) (i : Nat) : Except Fault Int :=
  match qubits[i]? with
  | some q => .ok q
  | none => .error .indexOutOfRange

def addCz (s : Growth R) (qubits : List Int) : Except Fault (Growth R) := do
  let a ← s.frontOf (← operand qubits 0)
  let b ← s.frontOf (← operand qubits 1)
  return { s with graph := ← s.graph.addEdge a b }

def addGadget (s : Growth R) (qubits : List Int) (angle : R) : Except Fault (Growth R) := do
  let (fresh, g) := s.graph.addNode
  let g ← g.assignBasis fresh (.planar .yz angle)
  let g ← qubits.foldlM (fun (g : Graph R) q => do g.addEdge (← s.frontOf q) fresh) g
  return { s with graph := g, flow := s.flow.set fresh (.singleton fresh) }

def finish (s : Growth R) : Except Fault (Graph R) :=
  s.front.entries.foldlM (fun g e => g.registerOutput e.2 e.1) s.graph

end Growth

def refuse {α : Type} : Except Fault α → Except (Refusal R) α
  | .ok a => .ok a
  | .error f => .error (.fault f)

def addInstruction (s : Growth R) : Gate R → Except (Refusal R) (Growth R)
  | .j q angle => refuse (s.addJ q angle)
  | .cz qubits => refuse (s.addCz qubits)
  | .phaseGadget qubits angle => refuse (s.addGadget qubits angle)
  | gate => .error (.notElementary gate)

def graphOf (qubits : Nat) (instructions : List (Gate R)) :
    Except (Refusal R) (Graph R × Table NodeSet) := do
  let s ← refuse (Growth.start qubits)
  let s ← instructions.foldlM addInstruction s
  return (← refuse s.finish, s.flow)

/-- The graph and flow of a circuit. A negative number of qubits counts as none. -/
def toGraph (c : Circuit R) : Except (Refusal R) (Graph R × Table NodeSet) := do
  graphOf c.qubits.toNat (← refuse c.instructions)

end OneWay.Circuit
