import OneWay.Fault
import OneWay.Number.Decimal
import OneWay.Number.Shortest

/-! Gates of circuits. The elementary ones are J, the controlled Z and the phase gadget; the others are
abbreviations. Operands of gates on several qubits are listed as written, controls first; their number
is checked where a gate is taken apart. -/
namespace OneWay

inductive Gate (R : Type) where
  | j (qubit : Int) (angle : R)
  | cz (qubits : List Int)
  | phaseGadget (qubits : List Int) (angle : R)
  | identity (qubit : Int)
  | x (qubit : Int)
  | y (qubit : Int)
  | z (qubit : Int)
  | h (qubit : Int)
  | s (qubit : Int)
  | t (qubit : Int)
  | tdg (qubit : Int)
  | rx (qubit : Int) (angle : R)
  | ry (qubit : Int) (angle : R)
  | rz (qubit : Int) (angle : R)
  | u3 (qubit : Int) (theta phi lambda : R)
  | cnot (qubits : List Int)
  | swap (qubits : List Int)
  | crz (qubits : List Int) (angle : R)
  | crx (qubits : List Int) (angle : R)
  | cu3 (qubits : List Int) (theta phi lambda : R)
  | toffoli (qubits : List Int)
  | ccz (qubits : List Int)
  deriving DecidableEq, Repr

namespace Gate

def name {R : Type} : Gate R → String
  | j _ _ => "J"
  | cz _ => "CZ"
  | phaseGadget _ _ => "PhaseGadget"
  | identity _ => "Identity"
  | x _ => "X"
  | y _ => "Y"
  | z _ => "Z"
  | h _ => "H"
  | s _ => "S"
  | t _ => "T"
  | tdg _ => "Tdg"
  | rx _ _ => "Rx"
  | ry _ _ => "Ry"
  | rz _ _ => "Rz"
  | u3 _ _ _ _ => "U3"
  | cnot _ => "CNOT"
  | swap _ => "SWAP"
  | crz _ _ => "CRz"
  | crx _ _ => "CRx"
  | cu3 _ _ _ _ => "CU3"
  | toffoli _ => "Toffoli"
  | ccz _ => "CCZ"

def qubit? {R : Type} : Gate R → Option Int
  | j q _ | identity q | x q | y q | z q | h q | s q | t q | tdg q | rx q _ | ry q _ | rz q _
  | u3 q _ _ _ => some q
  | _ => none

def qubits {R : Type} : Gate R → List Int
  | cz qs | phaseGadget qs _ | cnot qs | swap qs | crz qs _ | crx qs _ | cu3 qs _ _ _ | toffoli qs
  | ccz qs => qs
  | g => g.qubit?.toList

def angles {R : Type} : Gate R → List R
  | j _ a | phaseGadget _ a | rx _ a | ry _ a | rz _ a | crz _ a | crx _ a => [a]
  | u3 _ a b c | cu3 _ a b c => [a, b, c]
  | _ => []

def single? {R : Type} (name : String) (q : Int) (angles : List R) : Option (Gate R) :=
  match name, angles with
  | "J", [a] => some (j q a)
  | "Identity", [] => some (identity q)
  | "X", [] => some (x q)
  | "Y", [] => some (y q)
  | "Z", [] => some (z q)
  | "H", [] => some (h q)
  | "S", [] => some (s q)
  | "T", [] => some (t q)
  | "Tdg", [] => some (tdg q)
  | "Rx", [a] => some (rx q a)
  | "Ry", [a] => some (ry q a)
  | "Rz", [a] => some (rz q a)
  | "U3", [a, b, c] => some (u3 q a b c)
  | _, _ => none

def several? {R : Type} (name : String) (qs : List Int) (angles : List R) : Option (Gate R) :=
  match name, angles with
  | "CZ", [] => some (cz qs)
  | "PhaseGadget", [a] => some (phaseGadget qs a)
  | "CNOT", [] => some (cnot qs)
  | "SWAP", [] => some (swap qs)
  | "CRz", [a] => some (crz qs a)
  | "CRx", [a] => some (crx qs a)
  | "CU3", [a, b, c] => some (cu3 qs a b c)
  | "Toffoli", [] => some (toffoli qs)
  | "CCZ", [] => some (ccz qs)
  | _, _ => none

def items (xs : List Int) : String := ", ".intercalate (xs.map Int.repr)

def pair (qubits : List Int) : String :=
  match qubits with
  | [q] => "(" ++ q.repr ++ ",)"
  | _ => "(" ++ items qubits ++ ")"

def threeAngles (a b c : Float) : List (String × String) :=
  [("angle1", Decimal.shortest a), ("angle2", Decimal.shortest b), ("angle3", Decimal.shortest c)]

def fields : Gate Float → List (String × String)
  | identity q | x q | y q | z q | h q | s q | t q | tdg q => [("qubit", q.repr)]
  | j q a | rx q a | ry q a | rz q a => [("qubit", q.repr), ("angle", Decimal.fixed 10 a)]
  | u3 q a b c => ("qubit", q.repr) :: threeAngles a b c
  | cz qs | cnot qs | swap qs => [("qubits", pair qs)]
  | crz qs a | crx qs a => [("qubits", pair qs), ("angle", Decimal.fixed 10 a)]
  | cu3 qs a b c => ("qubits", pair qs) :: threeAngles a b c
  | toffoli qs | ccz qs => [("qubits", "[" ++ items qs ++ "]")]
  | phaseGadget qs a => [("qubits", "[" ++ items qs ++ "]"), ("angle", Decimal.fixed 10 a)]

def text (g : Gate Float) : String :=
  g.name ++ "(" ++ ", ".intercalate (g.fields.map fun f => f.1 ++ "=" ++ f.2) ++ ")"

end Gate
end OneWay
