import OneWay.Flow.Order

/-! Focused flows: no correction disturbs a measured node other than its own. Focusing adds, over and
over, the corrections of the first node still disturbed. -/
namespace OneWay.Graph
variable {R : Type} [Scalar R]

def basisAt (g : Graph R) (n : Int) : Except Fault (Basis R) :=
  match g.bases.get? n with
  | some basis => .ok basis
  | none => .error .keyAbsent

def planeAt (g : Graph R) (n : Int) : Except Fault Plane := do (← g.basisAt n).plane

def causalFocused (g : Graph R) (n correction : Int) : Except Fault Bool := do
  let touched := (← g.neighbors correction).diff g.outputNodes
  return touched.toList.all (· == n)

def allElsewhere (g : Graph R) (n : Int) (equator : Bool) (touched : NodeSet) :
    Except Fault Bool :=
  (touched.diff g.outputNodes).toList.foldlM (fun focused child => do
    let plane ← g.planeAt child
    return focused && ((decide (plane = .xy)) != equator || child == n)) true

def generalFocused (g : Graph R) (n : Int) (correction : NodeSet) : Except Fault Bool := do
  let direct ← g.allElsewhere n false correction
  let odd ← g.allElsewhere n true (← g.oddNeighbors correction)
  return direct && odd

def isFocused (g : Graph R) (f : Flow) : Except Fault Bool :=
  let keys := (NodeSet.ofList f.keys).diff g.outputNodes
  keys.toList.foldlM (fun focused n => do
    let here ← match f.get? n with
      | some (.node m) => if f.isCausal then g.causalFocused n m else .error .notFlow
      | some (.nodes s) => if f.isGeneral then g.generalFocused n s else .error .notFlow
      | _ => .error .notFlow
    return focused && here) true

def measuredIn (g : Graph R) (pick : Plane → Bool) (s : NodeSet) : Except Fault NodeSet := do
  let kept ← s.toList.filterM fun n => do return pick (← g.planeAt n)
  return .ofList kept

def unfocused (g : Graph R) (f : Table NodeSet) (target : Int) : Except Fault NodeSet := do
  match f.get? target with
  | none => throw .keyAbsent
  | some correction =>
      let others := ((NodeSet.ofList f.keys).diff g.outputNodes).erase target
      let odd := (← g.oddNeighbors correction).inter others
      let direct := correction.inter others
      let xy ← g.measuredIn (· == .xy) odd
      let xz ← g.measuredIn (· == .xz) direct
      let yz ← g.measuredIn (· == .yz) direct
      return (xy.union xz).union yz

def unfocusedOf (g : Graph R) (flow : Flow) (target : Int) : Except Fault NodeSet := do
  match flow.get? target with
  | none => throw .keyAbsent
  | some correction =>
      let _ ← correction.asSet
      g.unfocused (flow.mapValues fun _ c => c.toSet) target

end OneWay.Graph

namespace OneWay.Flow

def earliest (order candidates : List Int) : Except Fault Int := do
  let placed ← candidates.mapM fun n => match order.idxOf? n with
    | some i => .ok (n, i)
    | none => .error .notInOrder
  match placed with
  | [] => throw .nothingToChoose
  | first :: rest =>
      return (rest.foldl (fun best next => if next.2 < best.2 then next else best) first).1

def absorb (f : Table NodeSet) (target : Int) (candidates order : List Int) :
    Except Fault (Table NodeSet) := do
  let n ← earliest order candidates
  match f.get? target, f.get? n with
  | some mine, some other => return f.set target (mine.symmDiff other)
  | _, _ => throw .keyAbsent

end OneWay.Flow

namespace OneWay.Graph
variable {R : Type} [Scalar R]

def focusNode (g : Graph R) (order : List Int) (target : Int) :
    Nat → Table NodeSet → Except Fault (Table NodeSet)
  | 0, _ => .error .stillUnfocused
  | limit + 1, f => do
      let disturbed ← g.unfocused f target
      if disturbed.isEmpty then return f
      g.focusNode order target limit (← Flow.absorb f target disturbed.toList order)

/-- Focuses the corrections of some nodes in turn. The correction of a node is always its first one with
those of some others added, so there are fewer than `2 ^ size` of them: if that many steps do not focus it,
none will. -/
def focusEach (g : Graph R) (order targets : List Int) (f : Table NodeSet) : Except Fault (Table NodeSet) :=
  targets.foldlM (fun f target => g.focusNode order target (Nat.pow 2 f.size) f) f

def focusAll (g : Graph R) (order : List Int) (f : Table NodeSet) : Except Fault (Table NodeSet) :=
  g.focusEach order order f

def without (order dropped : List Int) : Except Fault (List Int) :=
  dropped.foldlM (fun order n =>
    if n ∈ order then .ok (order.erase n) else .error .notInOrder) order

def focus (g : Graph R) (flow : Flow) : Except Fault (Table NodeSet) := do
  let f ← flow.toSets .notFlow
  let d ← g.dependenciesOf (.ofSets f) none
  d.check
  let order ← without (← d.order).reverse (g.nodes.diff (.ofList f.keys)).toList
  g.focusAll order f

end OneWay.Graph
