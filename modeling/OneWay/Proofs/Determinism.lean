import Mathlib.Tactic.Choose
import OneWay.Flow.Focus
import OneWay.Proofs.Frame
import OneWay.Proofs.Runnable
import OneWay.Proofs.Stabilizer

/-! Patterns carried out with given outcomes. A node is measured in its basis with the corrections owed
to it, and an outcome one flips what its flow says. With a flow on a graph measured in the equator, all
outcomes leave the same linear map, up to a factor. -/
namespace OneWay
open ComplexConjugate

namespace Basis

theorem equatorAngle {basis : Basis ℝ} (plane : basis.plane = .ok .xy) : ∃ a b,
    basis.vector = vectorAt .xy a ∧ basis.flip.vector = vectorAt .xy b ∧
      Complex.exp (b * Complex.I) = -Complex.exp (a * Complex.I) := by
  have half : Complex.exp (Real.pi * Complex.I) = -1 := Complex.exp_pi_mul_I
  cases basis with
  | planar plane' angle =>
    cases plane
    refine ⟨angle, angle + Real.pi, rfl, rfl, ?_⟩
    push_cast
    rw [add_mul, Complex.exp_add, half, mul_neg_one]
  | axial axis sign =>
    cases axis with
    | x =>
      cases sign with
      | plus =>
        refine ⟨Scalar.zero, Real.pi, rfl, rfl, ?_⟩
        rw [half]
        simp
      | minus =>
        refine ⟨Real.pi, Scalar.zero, rfl, rfl, ?_⟩
        rw [half]
        simp
      | other label =>
        refine ⟨Real.pi, Scalar.zero, rfl, rfl, ?_⟩
        rw [half]
        simp
    | y => cases plane
    | z => cases plane
    | other label => cases plane

theorem equatorVector {basis : Basis ℝ} (plane : basis.plane = .ok .xy) :
    ∃ k, basis.vector = .ok k ∧ basis.flip.vector = .ok (k.pauli false true) := by
  obtain ⟨a, b, here, flipped, opposite⟩ := equatorAngle plane
  obtain ⟨k, vector, low, high⟩ : ∃ k, vectorAt .xy a = .ok k ∧ k.zero.toComplex = (√2 : ℂ)⁻¹ ∧
      k.one.toComplex = Complex.exp (a * Complex.I) * (√2 : ℂ)⁻¹ := vectorAtXy
  obtain ⟨l, vector', low', high'⟩ : ∃ k, vectorAt .xy b = .ok k ∧ k.zero.toComplex = (√2 : ℂ)⁻¹ ∧
      k.one.toComplex = Complex.exp (b * Complex.I) * (√2 : ℂ)⁻¹ := vectorAtXy
  have zero : l.zero = k.zero := Amplitude.toComplexInj (low'.trans low.symm)
  have one : l.one = -k.one := by
    apply Amplitude.toComplexInj
    rw [high', opposite, Amplitude.toComplexNeg, high, neg_mul]
  refine ⟨k, here.trans vector, flipped.trans (vector'.trans ?_)⟩
  obtain ⟨_, _⟩ := l
  cases zero
  cases one
  rfl

end Basis

namespace Frame

def owed (t : Table Bool) (n : Int) : Except Fault Bool :=
  match t.get? n with
  | some b => .ok b
  | none => .error .keyAbsent

def record (f : Frame) (n : Int) (outcome : Bool) : Except Fault Frame :=
  if outcome then
    match f.update (flipMeasured n) with
    | (.ok _, next) => .ok next
    | (.error fault, _) => .error fault
  else .ok f

end Frame

namespace Pattern
open Operator

structure Stage where
  carried : Operator
  frame : Frame

/- Corrections are left to the end, so the commands that ask for them do nothing here. -/
noncomputable def carryOut (outcome : Int → Bool) (stage : Stage) : Command ℝ → Except Fault Stage
  | .prepare n => .ok { stage with carried := prepare n * stage.carried }
  | .entangle a b => .ok { stage with carried := entangle a b * stage.carried }
  | .measure n basis => do
      let k ← (if outcome n then basis.flip else basis).vector
      let x ← Frame.owed stage.frame.x n
      let z ← Frame.owed stage.frame.z n
      let frame ← stage.frame.record n (outcome n)
      return ⟨project n (k.pauli x z) * stage.carried, frame⟩
  | _ => .ok stage

noncomputable def correct (frame : Frame) (carried : Operator) (n : Int) : Except Fault Operator := do
  return pauli n (← Frame.owed frame.x n) (← Frame.owed frame.z n) * carried

noncomputable def carry (p : Pattern ℝ) (outcome : Int → Bool) : Except Fault Operator := do
  let stage ← p.commands.foldlM (carryOut outcome) ⟨load p.inputs, p.frame⟩
  let carried ← p.outputs.keys.foldlM (correct stage.frame) stage.carried
  return read p.outputs * carried

end Pattern

namespace Frame
open Labelling
variable {t t' : Table Bool} {n : Int} {pending : List Int}

theorem owedOk {b : Bool} : owed t n = .ok b ↔ t.get? n = some b := by
  unfold owed
  cases t.get? n <;> simp

def owedTo (t : Table Bool) (pending : List Int) : Labelling := fun n =>
  (t.get? n).getD false && decide (n ∈ pending)

theorem owedHere {b : Bool} (found : t.get? n = some b) : owedTo t (n :: pending) n = b := by
  simp [owedTo, found]

theorem owedClear (new : n ∉ pending) :
    Function.update (owedTo t (n :: pending)) n false = owedTo t pending := by
  funext m
  by_cases here : m = n
  · simp [owedTo, here, new]
  · simp [owedTo, here]

theorem owedFlipped {a : NodeSet} (flipped : Flipped t t' a.toList) (new : n ∉ pending)
    (reach : ∀ m ∈ a, m ∈ n :: pending) (there : ∀ m ∈ a, m ∈ t.keys) :
    turn (Function.update (of a) n false) (Function.update (owedTo t (n :: pending)) n false) =
      owedTo t' pending := by
  rw [owedClear new]
  funext m
  by_cases here : m = n
  · simp [turn, owedTo, here, new]
  · rw [turn, Function.update_of_ne here, owedTo, owedTo, flipped m]
    by_cases mem : m ∈ a
    · obtain ⟨b, found⟩ := Table.memKeys.mp (there m mem)
      have later : m ∈ pending := by
        rcases List.mem_cons.mp (reach m mem) with same | later
        · exact absurd same here
        · exact later
      have mem' : m ∈ a.toList := mem
      simp [of, mem, mem', found, later, Bool.xor_comm]
    · have mem' : m ∉ a.toList := mem
      cases t.get? m <;> simp [of, mem, mem']

end Frame

namespace Pattern
open Operator

theorem measureOk {outcome : Int → Bool} {stage : Stage} {n : Int} {basis : Basis ℝ} {k : Ket ℝ}
    {x z : Bool} {frame : Frame} (vector : (if outcome n then basis.flip else basis).vector = .ok k)
    (foundX : stage.frame.x.get? n = some x) (foundZ : stage.frame.z.get? n = some z)
    (recorded : stage.frame.record n (outcome n) = .ok frame) :
    carryOut outcome stage (.measure n basis) =
      .ok ⟨project n (k.pauli x z) * stage.carried, frame⟩ := by
  unfold carryOut
  dsimp only
  rw [vector, Frame.owedOk.mpr foundX, Frame.owedOk.mpr foundZ, recorded]
  rfl

end Pattern

namespace Graph
open Labelling Operator Pattern
variable {g : Graph ℝ} {x z : Table NodeSet} {rest : List Int} {u : Operator} {stage : Stage} {n : Int}

structure Forward (g : Graph ℝ) (x z : Table NodeSet) (rest : List Int) : Prop where
  once : (rest ++ g.outputs.keys).Nodup
  there : ∀ n ∈ rest, n ∈ g.nodes
  own : ∀ n ∈ rest, n ∉ setAt x n ∧ n ∈ setAt z n
  into : ∀ n ∈ rest, ∀ m, m ∈ setAt x n ∨ m ∈ setAt z n → m ∈ g.nodes
  reach : ∀ n ∈ rest, ∀ m, m ∈ setAt x n ∨ m ∈ setAt z n → m ∈ rest ++ g.outputs.keys
  order : rest.Pairwise fun a b => ¬ (a ∈ setAt x b ∨ a ∈ setAt z b)

theorem Forward.tail (forward : Forward g x z (n :: rest)) : Forward g x z rest := by
  obtain ⟨ahead, order⟩ := List.pairwise_cons.mp forward.order
  refine ⟨(List.nodup_cons.mp forward.once).2, ?_, ?_, ?_, ?_, order⟩
  · exact fun m mem => forward.there m (by simp [mem])
  · exact fun m mem => forward.own m (by simp [mem])
  · exact fun m mem => forward.into m (by simp [mem])
  · intro m mem k corrected
    rcases List.mem_cons.mp (forward.reach m (by simp [mem]) k corrected) with same | later
    · exact absurd (same ▸ corrected) (ahead m mem)
    · exact later

/- How a run with outcomes stands to the run without: it differs by what the frame owes to the nodes
still to come. -/
structure Tracked (g : Graph ℝ) (x z : Table NodeSet) (rest : List Int) (u : Operator)
    (stage : Stage) : Prop where
  xflow : stage.frame.xflow = x
  zflow : stage.frame.zflow = z
  framed : ∀ m ∈ g.nodes, m ∈ stage.frame.x.keys ∧ m ∈ stage.frame.z.keys
  related : Related g.support (Frame.owedTo stage.frame.x (rest ++ g.outputs.keys))
    (Frame.owedTo stage.frame.z (rest ++ g.outputs.keys)) u stage.carried
  stable : ∀ m ∈ rest, Related g.support (of (setAt x m)) (of (setAt z m)) u u

theorem stableAfter (forward : Forward g x z (n :: rest)) {k : Ket ℝ}
    (stable : ∀ m ∈ n :: rest, Related g.support (of (setAt x m)) (of (setAt z m)) u u) :
    ∀ m ∈ rest, Related g.support (of (setAt x m)) (of (setAt z m)) (project n k * u)
      (project n k * u) := by
  intro m mem
  have away := (List.pairwise_cons.mp forward.order).1 m mem
  rw [not_or] at away
  have bitX : of (setAt x m) n = false := by simp [of, away.1]
  have bitZ : of (setAt z m) n = false := by simp [of, away.2]
  have after := (stable m (by simp [mem])).project (k := k)
    (memSupport.mpr (forward.there n (by simp)))
  have keepX : Function.update (of (setAt x m)) n false = of (setAt x m) := by
    rw [← bitX, Function.update_eq_self]
  have keepZ : Function.update (of (setAt z m)) n false = of (setAt z m) := by
    rw [← bitZ, Function.update_eq_self]
  rw [keepX, keepZ, bitX, bitZ] at after
  exact after

theorem Tracked.measureZero (tracked : Tracked g x z (n :: rest) u stage)
    (forward : Forward g x z (n :: rest)) {basis : Basis ℝ} {k : Ket ℝ} {outcome : Int → Bool}
    (vector : basis.vector = .ok k) (zero : outcome n = false) :
    ∃ next, carryOut outcome stage (.measure n basis) = .ok next ∧
      Tracked g x z rest (project n k * u) next := by
  have there := forward.there n (by simp)
  have new : n ∉ rest ++ g.outputs.keys := (List.nodup_cons.mp forward.once).1
  obtain ⟨bx, foundX⟩ := Table.memKeys.mp (tracked.framed n there).1
  obtain ⟨bz, foundZ⟩ := Table.memKeys.mp (tracked.framed n there).2
  refine ⟨⟨project n (k.pauli bx bz) * stage.carried, stage.frame⟩, ?_, tracked.xflow, tracked.zflow,
    tracked.framed, ?_, stableAfter forward tracked.stable⟩
  · refine measureOk ?_ foundX foundZ ?_
    · rw [zero]
      exact vector
    · rw [zero]
      rfl
  · have after := tracked.related.project (k := k) (memSupport.mpr there)
    rw [List.cons_append, Frame.owedClear new, Frame.owedClear new, Frame.owedHere foundX,
      Frame.owedHere foundZ] at after
    exact after

/- Outcome one: the vector is turned by a Z, which by the node's stabilizer is as good as its
corrections. -/
theorem Tracked.measureOne (tracked : Tracked g x z (n :: rest) u stage)
    (forward : Forward g x z (n :: rest)) {basis : Basis ℝ} {k : Ket ℝ} {outcome : Int → Bool}
    (flipped : basis.flip.vector = .ok (k.pauli false true)) (one : outcome n = true) :
    ∃ next, carryOut outcome stage (.measure n basis) = .ok next ∧
      Tracked g x z rest (project n k * u) next := by
  have there := forward.there n (by simp)
  have new : n ∉ rest ++ g.outputs.keys := (List.nodup_cons.mp forward.once).1
  obtain ⟨own, odd⟩ := forward.own n (by simp)
  obtain ⟨bx, foundX⟩ := Table.memKeys.mp (tracked.framed n there).1
  obtain ⟨bz, foundZ⟩ := Table.memKeys.mp (tracked.framed n there).2
  have framedX : ∀ m ∈ setAt x n, m ∈ stage.frame.x.keys := fun m mem =>
    (tracked.framed m (forward.into n (by simp) m (.inl mem))).1
  have framedZ : ∀ m ∈ setAt z n, m ∈ stage.frame.z.keys := fun m mem =>
    (tracked.framed m (forward.into n (by simp) m (.inr mem))).2
  obtain ⟨x', z', recorded, _, _, turnedX, turnedZ⟩ := Frame.flipMeasuredOk
    (f := stage.frame) (n := n) (tracked.xflow ▸ framedX) (tracked.zflow ▸ framedZ)
  rw [tracked.xflow] at turnedX
  rw [tracked.zflow] at turnedZ
  refine ⟨⟨project n ((k.pauli false true).pauli bx bz) * stage.carried,
    { stage.frame with x := x', z := z' }⟩, ?_, tracked.xflow, tracked.zflow, ?_, ?_,
    stableAfter forward tracked.stable⟩
  · refine measureOk ?_ foundX foundZ ?_
    · rw [one]
      exact flipped
    · rw [one, Frame.record, recorded]
      rfl
  · intro m here
    exact ⟨turnedX.keys.mpr (tracked.framed m here).1, turnedZ.keys.mpr (tracked.framed m here).2⟩
  · have bitX : of (setAt x n) n = false := by simp [of, own]
    have bitZ : of (setAt z n) n = true := by simp [of, odd]
    have turned := (tracked.stable n (by simp)).project (k := k) (memSupport.mpr there)
    have after := tracked.related.project (k := k.pauli false true) (memSupport.mpr there)
    rw [bitX, bitZ] at turned
    rw [List.cons_append, Frame.owedHere foundX, Frame.owedHere foundZ] at after
    have both := turned.trans after
    rw [Frame.owedFlipped turnedX new (fun m mem => forward.reach n (by simp) m (.inl mem)) framedX,
      Frame.owedFlipped turnedZ new (fun m mem => forward.reach n (by simp) m (.inr mem)) framedZ] at both
    exact both

theorem Tracked.measures {commands : List (Command ℝ)} (tracked : Tracked g x z rest u stage)
    (forward : Forward g x z rest) (κ : Int → Ket ℝ) (outcome : Int → Bool)
    (each : List.Forall₂ (fun n c => ∃ basis, c = .measure n basis ∧ basis.vector = .ok (κ n) ∧
      basis.flip.vector = .ok ((κ n).pauli false true)) rest commands) :
    ∃ next, commands.foldlM (carryOut outcome) stage = .ok next ∧
      Tracked g x z [] (projectAll (rest.map fun n => (n, κ n)) * u) next := by
  induction each generalizing u stage with
  | nil => exact ⟨stage, rfl, tracked⟩
  | @cons n c rest commands here _ ih =>
    obtain ⟨basis, rfl, vector, flipped⟩ := here
    obtain ⟨middle, first, after⟩ : ∃ next, carryOut outcome stage (.measure n basis) = .ok next ∧
        Tracked g x z rest (project n (κ n) * u) next := by
      cases bit : outcome n with
      | false => exact tracked.measureZero forward vector bit
      | true => exact tracked.measureOne forward flipped bit
    obtain ⟨next, later, done⟩ := ih after forward.tail
    refine ⟨next, ?_, ?_⟩
    · rw [List.foldlM_cons, Result.bindOk]
      exact ⟨middle, first, later⟩
    · rw [List.map_cons, projectAllCons, mul_assoc]
      exact done

theorem correctOutputs {outs : List Int} {frame : Frame} {v : Operator} (once : outs.Nodup)
    (there : ∀ n ∈ outs, n ∈ g.nodes)
    (framed : ∀ n ∈ outs, n ∈ frame.x.keys ∧ n ∈ frame.z.keys)
    (related : Related g.support (Frame.owedTo frame.x outs) (Frame.owedTo frame.z outs) u v) :
    ∃ last, outs.foldlM (correct frame) v = .ok last ∧ Related g.support blank blank u last := by
  induction outs generalizing v with
  | nil =>
    have none : ∀ t, Frame.owedTo t [] = blank := by
      intro t
      funext n
      simp [Frame.owedTo, blank]
    rw [none, none] at related
    exact ⟨v, rfl, related⟩
  | cons n rest ih =>
    obtain ⟨new, once⟩ := List.nodup_cons.mp once
    obtain ⟨bx, foundX⟩ := Table.memKeys.mp (framed n (by simp)).1
    obtain ⟨bz, foundZ⟩ := Table.memKeys.mp (framed n (by simp)).2
    have paid := related.correct (memSupport.mpr (there n (by simp)))
    rw [Frame.owedClear new, Frame.owedClear new, Frame.owedHere foundX, Frame.owedHere foundZ] at paid
    obtain ⟨last, later, done⟩ := ih once (fun m mem => there m (by simp [mem]))
      (fun m mem => framed m (by simp [mem])) paid
    refine ⟨last, ?_, done⟩
    rw [List.foldlM_cons, Result.bindOk]
    refine ⟨_, ?_, later⟩
    unfold correct
    rw [Frame.owedOk.mpr foundX, Frame.owedOk.mpr foundZ]
    rfl

theorem carryEach {α : Type} {xs : List α} {command : α → Command ℝ} {op : α → Operator}
    {outcome : Int → Bool} {frame : Frame}
    (one : ∀ a v, carryOut outcome ⟨v, frame⟩ (command a) = .ok ⟨op a * v, frame⟩) (v : Operator) :
    (xs.map command).foldlM (carryOut outcome) ⟨v, frame⟩ = .ok ⟨inTurn (xs.map op) * v, frame⟩ := by
  induction xs generalizing v with
  | nil => rfl
  | cons a rest ih =>
    rw [List.map_cons, List.map_cons, inTurnCons, mul_assoc, List.foldlM_cons, one, Result.bindOk]
    exact ⟨_, rfl, ih (op a * v)⟩

theorem carryOpening {outcome : Int → Bool} {frame : Frame} :
    g.opening.foldlM (carryOut outcome) ⟨load g.inputs, frame⟩ = .ok ⟨g.resource, frame⟩ := by
  rw [opening, List.foldlM_append, carryEach fun _ _ => rfl, Result.bindOk]
  exact ⟨_, rfl, carryEach (fun _ _ => rfl) _⟩

theorem carryClosing {outcome : Int → Bool} {asked : Bool} :
    (g.closing asked).foldlM (carryOut outcome) stage = .ok stage := by
  have idle : ∀ c ∈ g.closing asked, carryOut outcome stage c = .ok stage := by
    intro c mem
    obtain ⟨_, _, rfl | rfl⟩ := memClosing mem <;> rfl
  generalize g.closing asked = commands at idle ⊢
  induction commands with
  | nil => rfl
  | cons c rest ih =>
    rw [List.foldlM_cons, Result.bindOk]
    exact ⟨stage, idle c (by simp), ih fun d mem => idle d (by simp [mem])⟩

theorem trackedStart (stable : ∀ m ∈ rest,
    Related g.support (of (setAt x m)) (of (setAt z m)) g.resource g.resource) :
    Tracked g x z rest g.resource ⟨g.resource, .ofSets g.nodes x z⟩ := by
  have framed : ∀ m ∈ g.nodes,
      m ∈ (Table.ofList (g.nodes.toList.map fun n => (n, false))).keys := fun m there =>
    Table.memKeys.mpr ⟨false, Frame.freshGet.mpr ⟨there, rfl⟩⟩
  have nothing : Frame.owedTo (Table.ofList (g.nodes.toList.map fun n => (n, false)))
      (rest ++ g.outputs.keys) = blank := by
    funext m
    unfold Frame.owedTo
    cases found : (Table.ofList (g.nodes.toList.map fun n => (n, false))).get? m with
    | none => rfl
    | some b =>
      rw [(Frame.freshGet.mp found).2]
      rfl
  refine ⟨rfl, rfl, fun m there => ⟨framed m there, framed m there⟩, ?_, stable⟩
  have start : Related g.support blank blank g.resource g.resource := relatedSelf
  rw [← nothing] at start
  exact start

variable {order : List Int} {measured : List (Command ℝ)}

theorem Compiled.forward (parts : Compiled g x z order measured) (sound : g.Sound)
    (odd : ∀ n ∈ g.innerNodes, n ∈ setAt z n) : Forward g x z (g.measuredOrder order) := by
  have inner : ∀ n ∈ g.measuredOrder order, n ∈ g.innerNodes := fun n => (parts.measuredMem sound).mp
  have into : ∀ n ∈ g.measuredOrder order, ∀ m, m ∈ setAt x n ∨ m ∈ setAt z n →
      m ∈ g.nodes := by
    intro n mem m corrected
    by_cases same : m = n
    · exact same ▸ (memInnerNodes.mp (inner n mem)).1
    · exact parts.memberThere sound (dependencyMember.mpr
        ⟨inner n mem, corrected.imp_right fun here => ⟨here, same⟩⟩)
  refine ⟨?_, ?_, ?_, into, ?_, ?_⟩
  · refine List.nodup_append.mpr ⟨parts.measuredNodup, g.outputs.distinct, ?_⟩
    intro n mem m output same
    exact (memInnerNodes.mp (inner n mem)).2 (same ▸ output)
  · exact fun n mem => (memInnerNodes.mp (inner n mem)).1
  · exact fun n mem => ⟨parts.notOwn (inner n mem), odd n (inner n mem)⟩
  · intro n mem m corrected
    rw [List.mem_append, parts.measuredMem sound, memInnerNodes]
    by_cases output : m ∈ g.outputs.keys
    · exact .inr output
    · exact .inl ⟨into n mem m corrected, output⟩
  · refine (parts.measuredLater.and parts.measuredNodup).imp_of_mem ?_
    intro a b _ memB given corrected
    obtain ⟨later, apart⟩ := given
    exact later (dependencyMember.mpr ⟨inner b memB, corrected.imp_right fun here => ⟨here, apart⟩⟩)

def Equator (g : Graph ℝ) (κ : Int → Ket ℝ) : Prop :=
  ∀ n ∈ g.innerNodes, ∃ basis, g.bases.get? n = some basis ∧ basis.vector = .ok (κ n) ∧
    basis.flip.vector = .ok ((κ n).pauli false true)

theorem equatorKets (planes : ∀ n ∈ g.innerNodes, g.planeAt n = .ok .xy) : ∃ κ, Equator g κ := by
  have each : ∀ n, ∃ k, n ∈ g.innerNodes → ∃ basis, g.bases.get? n = some basis ∧
      basis.vector = .ok k ∧ basis.flip.vector = .ok (k.pauli false true) := by
    intro n
    by_cases inner : n ∈ g.innerNodes
    · obtain ⟨basis, based, plane⟩ := Result.bindOk.mp (planes n inner)
      obtain ⟨k, vector, flipped⟩ := Basis.equatorVector plane
      refine ⟨k, fun _ => ⟨basis, ?_, vector, flipped⟩⟩
      unfold basisAt at based
      cases found : g.bases.get? n <;> rw [found] at based <;> cases based
      rfl
    · exact ⟨⟨0, 0⟩, fun mem => absurd mem inner⟩
  choose κ vectors using each
  exact ⟨κ, vectors⟩

theorem Equator.carry {κ : Int → Ket ℝ} (equator : Equator g κ) : g.carry =
    .ok (read g.outputs * (projectAll (g.innerNodes.toList.map fun n => (n, κ n)) * g.resource)) := by
  have kets : g.kets = .ok (g.innerNodes.toList.map fun n => (n, κ n)) := by
    rw [ketsOk, List.forall₂_map_right_iff, List.forall₂_same]
    intro n inner
    obtain ⟨basis, found, vector, _⟩ := equator n inner
    exact ⟨rfl, basis, found, vector⟩
  rw [Graph.carry, kets]
  rfl

theorem Compiled.carries {κ : Int → Ket ℝ} {asked : Bool} (parts : Compiled g x z order measured)
    (sound : g.Sound) (odd : ∀ n ∈ g.innerNodes, n ∈ setAt z n)
    (stable : ∀ n ∈ g.innerNodes,
      Related g.support (of (setAt x n)) (of (setAt z n)) g.resource g.resource)
    (equator : Equator g κ) (outcome : Int → Bool) : ∃ c : ℂ, c ≠ 0 ∧
      (g.assemble x z measured asked).carry outcome = .ok (c • (read g.outputs *
        (projectAll (g.innerNodes.toList.map fun n => (n, κ n)) * g.resource))) := by
  have forward := parts.forward sound odd
  have inner : ∀ n ∈ g.measuredOrder order, n ∈ g.innerNodes := fun n => (parts.measuredMem sound).mp
  have each : List.Forall₂ (fun n c => ∃ basis, c = .measure n basis ∧ basis.vector = .ok (κ n) ∧
      basis.flip.vector = .ok ((κ n).pauli false true)) (g.measuredOrder order) measured := by
    refine ((List.forall₂_and_left _ _).mpr ⟨inner, parts.measureEach⟩).imp ?_
    intro n c given
    obtain ⟨mem, basis, found, command⟩ := given
    obtain ⟨basis', found', vectors⟩ := equator n mem
    rw [found] at found'
    cases found'
    exact ⟨basis, command, vectors⟩
  have start : Tracked g x z (g.measuredOrder order) g.resource ⟨g.resource, .ofSets g.nodes x z⟩ :=
    trackedStart fun m mem => stable m (inner m mem)
  obtain ⟨last, ran, tracked⟩ := start.measures forward κ outcome each
  obtain ⟨paid, corrected, same⟩ := correctOutputs g.outputs.distinct sound.outputsThere
    (fun n output => tracked.framed n (sound.outputsThere n output)) tracked.related
  have perm : (g.measuredOrder order).Perm g.innerNodes.toList :=
    (List.perm_ext_iff_of_nodup parts.measuredNodup g.innerNodes.nodup).mpr fun n =>
      parts.measuredMem sound
  have sorted : projectAll ((g.measuredOrder order).map fun n => (n, κ n)) =
      projectAll (g.innerNodes.toList.map fun n => (n, κ n)) := by
    refine projectAllPerm (perm.map _) ?_
    rw [List.map_map]
    exact (List.map_id _).symm ▸ parts.measuredNodup
  rw [sorted] at same
  obtain ⟨c, nonzero, factor⟩ := same.scalar
  refine ⟨c, nonzero, ?_⟩
  unfold Pattern.carry
  rw [assembleCommands]
  simp only [List.foldlM_append, Result.bindOk, Result.pureOk]
  refine ⟨last, ⟨_, carryOpening, last, ran, carryClosing⟩, paid, corrected, ?_⟩
  rw [factor, mul_smul_comm]
  rfl

theorem setAtNone (none : x.get? n = .none) : setAt x n = ∅ := by
  rw [setAt, none]
  rfl

theorem zCorrectionsOdd {xflow zflow : Flow} (ok : g.zCorrections xflow none = .ok zflow)
    (setsX : xflow.sets = .ok x) (setsZ : zflow.sets = .ok z) {odd : NodeSet}
    (found : g.oddNeighbors (setAt x n) = .ok odd) (mem : n ∈ odd) : setAt z n = odd := by
  cases given : x.get? n with
  | none =>
    rw [setAtNone given] at found
    cases found
    exact absurd mem NodeSet.notMemEmpty
  | some s =>
    obtain ⟨odd', found', here⟩ := zCorrectionsDefault ok setsX setsZ given
    rw [setAt, given] at found
    cases found'.symm.trans found
    rw [setAt, here]
    rfl

variable {p : Pattern ℝ} {asked : Bool}

theorem compiledCarries (reach : g.Reachable) (planes : ∀ n ∈ g.innerNodes, g.planeAt n = .ok .xy)
    (free : ∀ n ∈ g.innerNodes, ∀ m ∈ setAt x n, m ∉ g.inputNodes)
    (odd : ∀ n ∈ g.innerNodes, ∃ odd, g.oddNeighbors (setAt x n) = .ok odd ∧ n ∈ odd)
    (ok : g.compile (.ofSets x) none none asked = .ok p) :
    ∃ u, g.carry = .ok u ∧ ∀ outcome, ∃ c : ℂ, c ≠ 0 ∧ p.carry outcome = .ok (c • u) := by
  have sound := reachableSound reach
  obtain ⟨κ, equator⟩ := equatorKets planes
  obtain ⟨zflow, x', z, order, measured, corrections, setsX, setsZ, parts, rfl⟩ := compileOk.mp ok
  have given : ∀ n, setAt x' n = setAt x n := fun n => by rw [setAt, setAt, Flow.getOfSets setsX]
  have neighbours : ∀ n ∈ g.innerNodes, g.oddNeighbors (setAt x' n) = .ok (setAt z n) ∧
      n ∈ setAt z n := by
    intro n inner
    obtain ⟨set, found, mem⟩ := odd n inner
    rw [← given] at found
    rw [zCorrectionsOdd corrections setsX setsZ found mem]
    exact ⟨found, mem⟩
  have stable : ∀ n ∈ g.innerNodes,
      Related g.support (of (setAt x' n)) (of (setAt z n)) g.resource g.resource := by
    intro n inner
    refine sound.relatedOdd (neighbours n inner).1 fun m mem input => ?_
    exact free n inner m (given n ▸ mem) (memInputNodes.mpr input)
  exact ⟨_, equator.carry, parts.carries sound (fun n inner => (neighbours n inner).2) stable equator⟩

/- Whatever the measurements yield, the pattern carries what the graph carries, up to a factor. A node that is
in its own correction, or whose corrections are not all of nodes, has made the compilation fail. -/
theorem outcomesAgree (reach : g.Reachable) (planes : ∀ n ∈ g.innerNodes, g.planeAt n = .ok .xy)
    (free : ∀ n ∈ g.innerNodes, ∀ m ∈ setAt x n, m ∉ g.inputNodes)
    (odd : ∀ n ∈ g.innerNodes, ∃ odd, g.oddNeighbors (setAt x n) = .ok odd ∧ n ∈ odd)
    (ok : g.compile (.ofSets x) none none asked = .ok p) :
    ∃ u, ∃ a : ℂ, a ≠ 0 ∧ g.carry = .ok u ∧ p.carry (fun _ => false) = .ok (a • u) ∧
      ∀ outcome, ∃ c : ℂ, c ≠ 0 ∧ p.carry outcome = .ok (c • a • u) := by
  obtain ⟨u, carried, all⟩ := compiledCarries reach planes free odd ok
  obtain ⟨a, nonzero, zeros⟩ := all fun _ => false
  refine ⟨u, a, nonzero, carried, zeros, fun outcome => ?_⟩
  obtain ⟨c, some, here⟩ := all outcome
  refine ⟨c / a, div_ne_zero some nonzero, ?_⟩
  rw [here, smul_smul, div_mul_cancel₀ c nonzero]

set_option maxRecDepth 1024

noncomputable def fork : Graph ℝ := after [.addNode, .addNode, .addNode, .addNode, .addEdge 0 2,
  .addEdge 1 2, .addEdge 1 3, .registerInput 0, .registerInput 1, .registerOutput 2 0,
  .registerOutput 3 1, .assignBasis 0 (.planar .xy Real.pi), .assignBasis 1 (.axial .x .minus)]

def forkFlow : Table NodeSet := .ofList [(0, .ofList [2, 3]), (1, .singleton 3)]

theorem forkOutcomesAgree : fork.Reachable ∧
    ∃ p, fork.compile (.ofSets forkFlow) none none true = .ok p ∧
      .measure 0 (.planar .xy Real.pi) ∈ p.commands ∧ .measure 1 (.axial .x .minus) ∈ p.commands ∧
      ∃ u, ∃ a : ℂ, a ≠ 0 ∧ fork.carry = .ok u ∧ p.carry (fun _ => false) = .ok (a • u) ∧
        ∀ outcome, ∃ c : ℂ, c ≠ 0 ∧ p.carry outcome = .ok (c • a • u) := by
  have reach : fork.Reachable := ⟨_, rfl⟩
  obtain ⟨p, ok, first, second⟩ : ∃ p, fork.compile (.ofSets forkFlow) none none true = .ok p ∧
      p.commands[5]? = some (.measure 1 (.axial .x .minus)) ∧
      p.commands[6]? = some (.measure 0 (.planar .xy Real.pi)) := ⟨_, rfl, rfl, rfl⟩
  have measured : ∀ n ∈ fork.innerNodes, n = 0 ∨ n = 1 := by
    have inner : fork.innerNodes = .ofList [0, 1] := rfl
    rw [inner]
    intro n mem
    simpa using mem
  have planes : ∀ n ∈ fork.innerNodes, fork.planeAt n = .ok .xy := by
    intro n mem
    rcases measured n mem with rfl | rfl <;> rfl
  have free : ∀ n ∈ fork.innerNodes, ∀ m ∈ setAt forkFlow n, m ∉ fork.inputNodes := by
    have inputs : fork.inputNodes = .ofList [0, 1] := rfl
    rw [inputs]
    intro n mem
    rcases measured n mem with rfl | rfl <;> decide
  have odd : ∀ n ∈ fork.innerNodes, ∃ odd, fork.oddNeighbors (setAt forkFlow n) = .ok odd ∧ n ∈ odd := by
    intro n mem
    rcases measured n mem with rfl | rfl
    · exact ⟨.singleton 0, rfl, by decide⟩
    · exact ⟨.singleton 1, rfl, by decide⟩
  exact ⟨reach, p, ok, List.mem_of_getElem? second, List.mem_of_getElem? first,
    outcomesAgree reach planes free odd ok⟩

end Graph
end OneWay
