import OneWay.Gate.Expansion

/-! Circuits: gates in the order in which they act. A gate is taken apart into elementary ones when the
instructions are read, unless it is entered to be passed on as it is. -/
namespace OneWay

inductive Entry (R : Type) where
  | expanded (gate : Gate R)
  | verbatim (gate : Gate R)
  deriving DecidableEq, Repr

def Entry.gate {R : Type} : Entry R → Gate R
  | .expanded g | .verbatim g => g

def Entry.instructions {R : Type} [Scalar R] : Entry R → Except Fault (List (Gate R))
  | .expanded g => g.expand
  | .verbatim g => .ok [g]

structure Circuit (R : Type) where
  qubits : Int
  entries : List (Entry R)
  deriving DecidableEq, Repr

namespace Circuit
variable {R : Type} [Scalar R]

def empty (qubits : Int) : Circuit R := ⟨qubits, []⟩

def add (c : Circuit R) (e : Entry R) : Circuit R := { c with entries := c.entries ++ [e] }

def gates (c : Circuit R) : List (Gate R) := c.entries.map Entry.gate

def instructions (c : Circuit R) : Except Fault (List (Gate R)) := do
  return (← c.entries.mapM Entry.instructions).flatten

end Circuit
end OneWay
