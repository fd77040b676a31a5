import Mathlib.Algebra.Ring.Parity
import OneWay.Proofs.Frame
import OneWay.Proofs.Sequence

/-! A frame counts modulo two. Whatever calls flip its corrections, a node owes X when X was flipped there an
odd number of times, and so for Z. So the order of the calls does not matter, nor does a call that is made
an even number of times. The frame of a compiled pattern has all the entries that its measurements flip. -/
namespace OneWay
open OneWay.Graph (setAt)

namespace Frame
variable {f : Frame} {flow xflow zflow : Table NodeSet} {nodes : NodeSet} {n v : Int}

inductive Flip where
  | x (n : Int)
  | z (n : Int)
  | measured (n : Int)
  deriving DecidableEq

namespace Flip

def update : Flip → Update Unit
  | .x n => flipX n
  | .z n => flipZ n
  | .measured n => flipMeasured n

def corrects (flow : Table NodeSet) (v : Int) : Flip → Bool
  | .measured n => decide (v ∈ setAt flow n)
  | _ => false

end Flip

def run (f : Frame) (calls : List Flip) : Except Fault Unit × Frame := f.update (calls.forM Flip.update)

def flips (direct : Int → Flip) (flow : Table NodeSet) (calls : List Flip) (v : Int) : Nat :=
  calls.count (direct v) + calls.countP (Flip.corrects flow v)

variable {direct : Int → Flip} {call : Flip} {calls others : List Flip}

theorem flipsAppend : flips direct flow (calls ++ others) v =
    flips direct flow calls v + flips direct flow others v := by
  rw [flips, flips, flips, List.count_append, List.countP_append]
  omega

theorem flipsPerm (same : calls.Perm others) : flips direct flow calls v = flips direct flow others v := by
  rw [flips, flips, same.count_eq, same.countP_eq]

theorem flipsReplicate {k : Nat} :
    flips direct flow (List.replicate k call) v = k * flips direct flow [call] v := by
  induction k with
  | zero => simp [flips]
  | succ k ih =>
    rw [List.replicate_succ, ← List.singleton_append, flipsAppend, ih, Nat.succ_mul, Nat.add_comm]

theorem flipsDropped (even : Even (calls.count call)) :
    Odd (flips direct flow (calls.filter (· ≠ call)) v) ↔ Odd (flips direct flow calls v) := by
  have split := List.filter_append_perm (fun other => decide (other ≠ call)) calls
  have made : (calls.filter fun other => !decide (other ≠ call)) = List.replicate (calls.count call) call := by
    simpa using List.filter_eq (l := calls) call
  rw [← flipsPerm split, flipsAppend, made, flipsReplicate]
  exact (Nat.odd_add.trans (iff_true_right (even.mul_right _))).symm

structure Turned (direct : Int → Flip) (flow : Table NodeSet) (calls : List Flip)
    (t u : Table Bool) : Prop where
  keys : u.keys = t.keys
  bit : ∀ v, u.get? v = (t.get? v).map fun b => xor b (decide (Odd (flips direct flow calls v)))

namespace Turned
variable {t u w : Table Bool} {ns : List Int}

theorem ofFlipped (keys : u.keys = t.keys) (flipped : Flipped t u ns)
    (odd : ∀ v, Odd (flips direct flow calls v) ↔ v ∈ ns) : Turned direct flow calls t u :=
  ⟨keys, fun v => by rw [flipped v]; simp only [odd v]⟩

theorem idle (none : ∀ v, flips direct flow calls v = 0) : Turned direct flow calls t t :=
  ⟨rfl, fun v => by simp [none v]⟩

theorem append (first : Turned direct flow calls t u) (later : Turned direct flow others u w) :
    Turned direct flow (calls ++ others) t w := by
  refine ⟨later.keys.trans first.keys, fun v => ?_⟩
  rw [later.bit v, first.bit v, Option.map_map, flipsAppend]
  congr 1
  funext b
  simp only [Function.comp_apply, Bool.xor_assoc, Nat.odd_add, ← Nat.not_odd_iff_even]
  by_cases one : Odd (flips direct flow calls v) <;> by_cases two : Odd (flips direct flow others v) <;>
    simp [one, two]

theorem clear (turned : Turned direct flow calls t u) (owes : t.get? v = some false) :
    u.get? v = some (decide (Odd (flips direct flow calls v))) := by
  rw [turned.bit v, owes, Option.map_some, Bool.false_xor]

/- Tables are the same when they have the same keys in one order, so a table is known from the parities. -/
theorem unique (one : Turned direct flow calls t u) (two : Turned direct flow others t w)
    (same : ∀ v, Odd (flips direct flow others v) ↔ Odd (flips direct flow calls v)) : u = w := by
  refine Table.eqOfGet (one.keys.trans two.keys.symm) fun v => ?_
  rw [one.bit v, two.bit v]
  simp only [same v]

end Turned

def Within (f : Frame) : Flip → Prop
  | .x n => n ∈ f.x.keys
  | .z n => n ∈ f.z.keys
  | .measured n => (∀ m ∈ setAt f.xflow n, m ∈ f.x.keys) ∧ ∀ m ∈ setAt f.zflow n, m ∈ f.z.keys

theorem flippedOne {t : Table Bool} {b : Bool} (found : t.get? n = some b) :
    (t.set n !b).keys = t.keys ∧ Flipped t (t.set n !b) [n] := by
  refine ⟨Table.keysSetOld (Table.memKeys.mpr ⟨b, found⟩), fun v => ?_⟩
  rw [Table.getSet]
  by_cases here : v = n
  · simp [here, found]
  · simp [here]

theorem flipsDirect (own : ∀ v, direct n = direct v ↔ v = n) (plain : (direct n).corrects flow v = false) :
    Odd (flips direct flow [direct n] v) ↔ v ∈ [n] := by
  by_cases here : v = n
  · subst here
    simp [flips, plain]
  · have other : direct n ≠ direct v := fun same => here ((own v).mp same)
    simp [flips, plain, here, other]

theorem stepOk (within : f.Within call) :
    ∃ x z, f.update call.update = (.ok (), { f with x := x, z := z }) ∧
      Turned .x f.xflow [call] f.x x ∧ Turned .z f.zflow [call] f.z z := by
  cases call with
  | x n =>
    obtain ⟨b, found⟩ := Table.memKeys.mp within
    obtain ⟨keys, flipped⟩ := flippedOne found
    refine ⟨_, _, flipXOk found, .ofFlipped keys flipped fun v => ?_, .idle fun v => ?_⟩
    · exact flipsDirect (fun m => by simp [eq_comm]) rfl
    · simp [flips, Flip.corrects]
  | z n =>
    obtain ⟨b, found⟩ := Table.memKeys.mp within
    obtain ⟨keys, flipped⟩ := flippedOne found
    refine ⟨_, _, flipZOk found, .idle fun v => ?_, .ofFlipped keys flipped fun v => ?_⟩
    · simp [flips, Flip.corrects]
    · exact flipsDirect (fun m => by simp [eq_comm]) rfl
  | measured n =>
    have odd (direct : Int → Flip) (flow : Table NodeSet) (v : Int) (other : direct v ≠ .measured n) :
        Odd (flips direct flow [.measured n] v) ↔ v ∈ (setAt flow n).toList := by
      rw [← NodeSet.memDef]
      by_cases mem : v ∈ setAt flow n <;> simp [flips, Flip.corrects, mem, other.symm]
    obtain ⟨x, z, ran, keysX, keysZ, flippedX, flippedZ⟩ := flipMeasuredOk within.1 within.2
    exact ⟨x, z, ran, .ofFlipped keysX flippedX fun v => odd _ _ _ (by simp),
      .ofFlipped keysZ flippedZ fun v => odd _ _ _ (by simp)⟩

theorem Within.after {x z : Table Bool} (keysX : x.keys = f.x.keys) (keysZ : z.keys = f.z.keys)
    (within : f.Within call) : Within { f with x := x, z := z } call := by
  cases call with
  | x n => exact (congrArg (n ∈ ·) keysX).mpr within
  | z n => exact (congrArg (n ∈ ·) keysZ).mpr within
  | measured n => exact ⟨keysX ▸ within.1, keysZ ▸ within.2⟩

theorem runOk (within : ∀ call ∈ calls, f.Within call) :
    ∃ x z, f.run calls = (.ok (), { f with x := x, z := z }) ∧
      Turned .x f.xflow calls f.x x ∧ Turned .z f.zflow calls f.z z := by
  induction calls generalizing f with
  | nil => exact ⟨f.x, f.z, rfl, .idle fun _ => rfl, .idle fun _ => rfl⟩
  | cons call rest ih =>
    obtain ⟨x, z, first, turnedX, turnedZ⟩ := stepOk (within call (by simp))
    obtain ⟨x', z', later, restX, restZ⟩ := ih (f := { f with x := x, z := z }) fun other mem =>
      (within other (by simp [mem])).after turnedX.keys turnedZ.keys
    exact ⟨x', z', (updateThen first).trans later, turnedX.append restX, turnedZ.append restZ⟩

theorem runSame (withinOne : ∀ call ∈ calls, f.Within call) (withinTwo : ∀ call ∈ others, f.Within call)
    (sameX : ∀ v, Odd (flips .x f.xflow others v) ↔ Odd (flips .x f.xflow calls v))
    (sameZ : ∀ v, Odd (flips .z f.zflow others v) ↔ Odd (flips .z f.zflow calls v)) :
    f.run others = f.run calls := by
  obtain ⟨x, z, ran, turnedX, turnedZ⟩ := runOk withinOne
  obtain ⟨x', z', ran', turnedX', turnedZ'⟩ := runOk withinTwo
  rw [ran, ran', turnedX.unique turnedX' sameX, turnedZ.unique turnedZ' sameZ]

theorem freshKeys : n ∈ (Table.ofList (nodes.toList.map fun n => (n, false))).keys ↔ n ∈ nodes := by
  rw [Table.memKeys]
  simp [freshGet]

theorem freshWithin (direct : ∀ n, .x n ∈ calls ∨ .z n ∈ calls → n ∈ nodes)
    (recorded : ∀ n, .measured n ∈ calls → (ofSets nodes xflow zflow).Within (.measured n)) :
    ∀ call ∈ calls, (ofSets nodes xflow zflow).Within call := by
  intro call mem
  cases call with
  | x n => exact freshKeys.mpr (direct n (.inl mem))
  | z n => exact freshKeys.mpr (direct n (.inr mem))
  | measured n => exact recorded n mem

end Frame

namespace Graph
open Command
variable {R : Type} [Scalar R] {g : Graph R} {xflow : Flow} {zflow : Option Flow}
  {schedule : Option Schedule} {correct : Bool} {p : Pattern R}

theorem compileFrame (sound : g.Sound) (ok : g.compile xflow zflow schedule correct = .ok p) :
    ∃ x z order measured, Compiled g x z order measured ∧ p.frame = .ofSets g.nodes x z ∧
      ∀ n basis, Command.measure n basis ∈ p.commands → n ∈ g.innerNodes := by
  have inner : ∀ {n basis}, g.bases.get? n = some basis → n ∈ g.innerNodes := by
    intro n basis found
    have based := Table.memKeys.mpr ⟨basis, found⟩
    exact memInnerNodes.mpr ⟨sound.basesThere n based, fun output => sound.outputsFree n output based⟩
  cases schedule with
  | none =>
    obtain ⟨_, x, z, order, measured, _, _, _, parts, rfl⟩ := compileOk.mp ok
    exact ⟨x, z, order, measured, parts, rfl, fun n basis mem => inner (parts.bases (memMeasured.mpr mem))⟩
  | some s =>
    obtain ⟨_, x, z, order, measured, commands, _, _, _, parts, listed, rfl⟩ := (compileTimedOk sound).mp ok
    refine ⟨x, z, order, measured, parts, rfl, fun n basis mem => ?_⟩
    have early := (List.mem_append.mp mem).resolve_right fun last => closingQuiet last n basis rfl
    exact inner ((slotsOfScheduled listed).bases (memMeasured.mpr early))

theorem Compiled.within {x z : Table NodeSet} {order : List Int} {measured : List (Command R)} {n : Int}
    (parts : Compiled g x z order measured) (sound : g.Sound) (inner : n ∈ g.innerNodes) :
    (Frame.ofSets g.nodes x z).Within (.measured n) := by
  have there : ∀ m, m ∈ setAt x n ∨ m ∈ setAt z n ∧ m ≠ n → m ∈ g.nodes := fun m mem =>
    parts.memberThere sound (dependencyMember.mpr ⟨inner, mem⟩)
  refine ⟨fun m mem => Frame.freshKeys.mpr (there m (.inl mem)), fun m mem => Frame.freshKeys.mpr ?_⟩
  by_cases own : m = n
  · exact own ▸ (memInnerNodes.mp inner).1
  · exact there m (.inr ⟨mem, own⟩)

end Graph

namespace Frame

/- A new frame counts the calls made on its nodes, when the nodes that it corrects are its own: afterwards
the bits of a node are the parities of the flips there, in whatever order the calls are made and without
those that are made an even number of times. The frame of a compiled pattern never refuses to record an
outcome of a node that the pattern measures. -/
theorem countsParity (R : Type) [Scalar R] :
    (∀ (nodes : NodeSet) (xflow zflow : Table NodeSet) (calls : List Flip),
      (∀ u, ∀ v ∈ setAt xflow u, v ∈ nodes) → (∀ u, ∀ v ∈ setAt zflow u, v ∈ nodes) →
      (∀ n, .x n ∈ calls ∨ .z n ∈ calls → n ∈ nodes) →
      ∃ f, (ofSets nodes xflow zflow).run calls = (.ok (), f) ∧
        f.nodes = nodes ∧ f.xflow = xflow ∧ f.zflow = zflow ∧
        (∀ v ∈ nodes, f.x.get? v = some (decide (Odd (flips .x xflow calls v))) ∧
          f.z.get? v = some (decide (Odd (flips .z zflow calls v)))) ∧
        (∀ others, calls.Perm others → (ofSets nodes xflow zflow).run others = (.ok (), f)) ∧
        ∀ call, Even (calls.count call) →
          (ofSets nodes xflow zflow).run (calls.filter (· ≠ call)) = (.ok (), f)) ∧
    ∀ (g : Graph R) xflow zflow schedule correct p, g.Reachable →
      g.compile xflow zflow schedule correct = .ok p → ∀ calls : List Flip,
        (∀ n, .x n ∈ calls ∨ .z n ∈ calls → n ∈ g.nodes) →
        (∀ n, .measured n ∈ calls → ∃ basis, Command.measure n basis ∈ p.commands) →
        ∃ f, p.frame.run calls = (.ok (), f) := by
  refine ⟨fun nodes xflow zflow calls closedX closedZ direct => ?_,
    fun g xflow zflow schedule correct p reach ok calls direct commanded => ?_⟩
  · have made : ∀ call ∈ calls, (ofSets nodes xflow zflow).Within call :=
      freshWithin direct fun n _ =>
        ⟨fun m mem => freshKeys.mpr (closedX n m mem), fun m mem => freshKeys.mpr (closedZ n m mem)⟩
    obtain ⟨x, z, ran, turnedX, turnedZ⟩ := runOk made
    refine ⟨_, ran, rfl, rfl, rfl, fun v mem => ?_, fun others same => ?_, fun call even => ?_⟩
    · exact ⟨turnedX.clear (freshGet.mpr ⟨mem, rfl⟩), turnedZ.clear (freshGet.mpr ⟨mem, rfl⟩)⟩
    · have madeToo := fun call mem => made call (same.mem_iff.mpr mem)
      exact (runSame made madeToo (fun v => by rw [flipsPerm same]) fun v => by rw [flipsPerm same]).trans ran
    · have left : ∀ other ∈ calls.filter (· ≠ call), (ofSets nodes xflow zflow).Within other :=
        fun other mem => made other (List.mem_of_mem_filter mem)
      exact (runSame made left (fun v => flipsDropped even) fun v => flipsDropped even).trans ran
  · have sound := Graph.reachableSound reach
    obtain ⟨x, z, order, measured, parts, framed, inner⟩ := Graph.compileFrame sound ok
    have within : ∀ call ∈ calls, p.frame.Within call := by
      rw [framed]
      refine freshWithin direct fun n recorded => ?_
      obtain ⟨basis, command⟩ := commanded n recorded
      exact parts.within sound (inner n basis command)
    obtain ⟨_, _, ran, _⟩ := runOk within
    exact ⟨_, ran⟩

def lineX : Table NodeSet := .ofList [(0, .singleton 1), (1, .singleton 2)]

def lineZ : Table NodeSet := .ofList [(0, .ofList [0, 2]), (1, .singleton 1)]

def lineCalls : List Flip := [.measured 0, .x 1, .measured 1, .measured 0, .z 2]

set_option maxRecDepth 1024

theorem lineCountsParity : (∃ f, (ofSets (.ofList [0, 1, 2]) lineX lineZ).run lineCalls = (.ok (), f) ∧
      f.x.get? 1 = some true ∧ f.x.get? 2 = some true ∧ f.z.get? 0 = some false ∧ f.z.get? 2 = some true ∧
      (ofSets (.ofList [0, 1, 2]) lineX lineZ).run lineCalls.reverse = (.ok (), f) ∧
      (ofSets (.ofList [0, 1, 2]) lineX lineZ).run [.x 1, .measured 1, .z 2] = (.ok (), f)) ∧
    Graph.twig.Reachable ∧ ∃ p f, Graph.twig.compile Graph.twigFlow none none true = .ok p ∧
      p.frame.run [.measured 1, .z 2, .measured 3] = (.ok (), f) := by
  obtain ⟨counts, records⟩ := countsParity Float
  have closedX : ∀ u, ∀ v ∈ setAt lineX u, v ∈ NodeSet.ofList [0, 1, 2] := fun u v mem =>
    (by decide : ∀ e ∈ lineX.entries, ∀ v ∈ e.2.toList, v ∈ NodeSet.ofList [0, 1, 2]) _
      (Dependency.entryOfMember mem) v mem
  have closedZ : ∀ u, ∀ v ∈ setAt lineZ u, v ∈ NodeSet.ofList [0, 1, 2] := fun u v mem =>
    (by decide : ∀ e ∈ lineZ.entries, ∀ v ∈ e.2.toList, v ∈ NodeSet.ofList [0, 1, 2]) _
      (Dependency.entryOfMember mem) v mem
  refine ⟨?_, ?_⟩
  · obtain ⟨f, ran, _, _, _, bits, sorted, dropped⟩ := counts _ _ _ lineCalls closedX closedZ
      (by simp [lineCalls])
    refine ⟨f, ran, ?_, ?_, ?_, ?_, sorted _ (List.reverse_perm _).symm, dropped (.measured 0) (by decide)⟩
    · exact (bits 1 (by decide)).1.trans (by decide)
    · exact (bits 2 (by decide)).1.trans (by decide)
    · exact (bits 0 (by decide)).2.trans (by decide)
    · exact (bits 2 (by decide)).2.trans (by decide)
  · have reach : Graph.twig.Reachable := ⟨_, rfl⟩
    obtain ⟨p, ok, measured⟩ : ∃ p, Graph.twig.compile Graph.twigFlow none none true = .ok p ∧
        (∃ basis, Command.measure 1 basis ∈ p.commands) ∧ ∃ basis, Command.measure 3 basis ∈ p.commands :=
      ⟨_, rfl, ⟨.axial .x .minus, by decide⟩, ⟨.axial .z .plus, by decide⟩⟩
    have there : (2 : Int) ∈ Graph.twig.nodes := by decide
    obtain ⟨f, ran⟩ := records _ _ _ _ _ p reach ok [.measured 1, .z 2, .measured 3]
      (by simpa using there) (by simpa using measured)
    exact ⟨reach, p, f, ok, ran⟩

end Frame
end OneWay
