import OneWay.Graph.Basic

/-! Changes of a graph made of several steps. One that fails leaves the graph as the steps before the
failure made it. -/
namespace OneWay

abbrev Edit (R : Type) [Scalar R] := ExceptT Fault (StateM (Graph R))

namespace Edit
variable {R α : Type} [Scalar R]

def apply (e : Edit R α) (g : Graph R) : Except Fault α × Graph R := StateT.run (ExceptT.run e) g

def lift (x : Except Fault α) : Edit R α := ExceptT.mk (pure x)

/-- One step: all of it or nothing. -/
def step (f : Graph R → Except Fault (Graph R)) : Edit R Unit := do
  set (← lift (f (← get)))

def stepWith (f : Graph R → Except Fault (α × Graph R)) : Edit R α := do
  let (a, g) ← lift (f (← get))
  set g
  return a

def addNode : Edit R Int := stepWith fun g => .ok g.addNode
def addEdge (a b : Int) : Edit R Unit := step fun g => g.addEdge a b
def assignBasis (n : Int) (basis : Basis R) : Edit R Unit := step fun g => g.assignBasis n basis
def registerInput (n : Int) : Edit R Int := stepWith fun g => g.registerInput n
def registerOutput (n q : Int) : Edit R Unit := step fun g => g.registerOutput n q

end Edit
end OneWay
