import OneWay.Schedule.Basic

/-! Scheduling as a problem in integers: variables with bounds, constraints between them, and a quantity
to make small. -/
namespace OneWay

inductive Variable where
  | prepare (node : Int)
  | measure (node : Int)
  | prepared (node : Int) (time : Nat)
  | measured (node : Int) (time : Nat)
  | alive (node : Int) (time : Nat)
  | maxSpace
  | makespan
  deriving DecidableEq, Repr

def Variable.name : Variable → String
  | .prepare n => s!"prep_{n}"
  | .measure n => s!"meas_{n}"
  | .prepared n t => s!"alive_pre_{n}_{t}"
  | .measured n t => s!"alive_meas_{n}_{t}"
  | .alive n t => s!"alive_{n}_{t}"
  | .maxSpace => "max_space"
  | .makespan => "makespan"

structure Literal where
  var : Variable
  positive : Bool
  deriving DecidableEq, Repr

structure Linear where
  terms : List (Int × Variable)
  constant : Int
  deriving DecidableEq, Repr

inductive Comparison where
  | lt
  | le
  | gt
  | ge
  | eq
  deriving DecidableEq, Repr

inductive Constraint where
  | compare (left : Linear) (op : Comparison) (right : Linear)
  | compareIf (condition : Literal) (left : Linear) (op : Comparison) (right : Linear)
  | implies (a : Variable) (b : Literal)
  | isMax (target : Variable) (among : List Variable)
  | settled (holds : Bool)
  deriving DecidableEq, Repr

structure Bounded where
  var : Variable
  lower : Int
  upper : Int
  deriving DecidableEq, Repr

structure Model where
  bounds : List Bounded
  constraints : List Constraint
  objective : Linear
  deriving DecidableEq, Repr

abbrev Assignment := Variable → Int

namespace Linear

def ofVariable (v : Variable) : Linear := ⟨[(1, v)], 0⟩
def ofInt (n : Int) : Linear := ⟨[], n⟩
def sum (vs : List Variable) : Linear := ⟨vs.map fun v => (1, v), 0⟩

def value (a : Assignment) (l : Linear) : Int :=
  l.terms.foldr (fun t total => t.1 * a t.2 + total) l.constant

def text (l : Linear) : String :=
  let named := l.terms.map fun t => (t.2.name, t.1)
  let shown := (named.mergeSort fun a b => a.1 ≤ b.1).map fun t => t.2.repr ++ "*" ++ t.1
  let constant := if l.constant = 0 ∧ shown ≠ [] then [] else [l.constant.repr]
  " + ".intercalate (shown ++ constant)

end Linear

namespace Literal

def holds (a : Assignment) (l : Literal) : Bool := (a l.var != 0) == l.positive

def text (l : Literal) : String := (if l.positive then "" else "!") ++ l.var.name

end Literal

namespace Comparison

def holds (op : Comparison) (x y : Int) : Bool :=
  match op with
  | .lt => x < y
  | .le => x ≤ y
  | .gt => x > y
  | .ge => x ≥ y
  | .eq => x == y

def text : Comparison → String
  | .lt => "<"
  | .le => "<="
  | .gt => ">"
  | .ge => ">="
  | .eq => "=="

end Comparison

namespace Constraint

def holds (a : Assignment) : Constraint → Bool
  | .compare left op right => op.holds (left.value a) (right.value a)
  | .compareIf condition left op right =>
      !condition.holds a || op.holds (left.value a) (right.value a)
  | .implies v b => a v == 0 || b.holds a
  | .isMax target among =>
      among.all (fun v => a v ≤ a target) && among.any fun v => a v == a target
  | .settled b => b

def text : Constraint → String
  | .compare left op right => left.text ++ " " ++ op.text ++ " " ++ right.text
  | .compareIf condition left op right =>
      left.text ++ " " ++ op.text ++ " " ++ right.text ++ " if " ++ condition.text
  | .implies v b => v.name ++ " => " ++ b.text
  | .isMax target among =>
      let names := (among.map Variable.name).mergeSort fun a b => a ≤ b
      target.name ++ " = max(" ++ ", ".intercalate names ++ ")"
  | .settled b => if b then "true" else "false"

end Constraint

namespace Model

def holds (m : Model) (a : Assignment) : Bool :=
  m.bounds.all (fun b => b.lower ≤ a b.var && a b.var ≤ b.upper) &&
    m.constraints.all fun c => c.holds a

end Model
end OneWay
