import OneWay.Proofs.Axes
import OneWay.Proofs.Contraction
import OneWay.Proofs.Exact

/-! The qubits that a register shows and those that it acts on. The amplitudes are shown with what is on
axis `a` at the place of the qubit that the order gives for `a`, while an operator on qubit `q` acts on
the axis that the order gives for `q`: seen from outside, it acts where the order leads in two steps. -/
namespace OneWay

namespace Register
variable {R : Type} {r next : Register R}

def Proper (r : Register R) : Prop := r.order.Proper r.size

theorem startProper {amps : List (Amplitude R)} (run : ofAmps amps = .ok r) : r.Proper := by
  simp only [ofAmps, Result.bindOk, Result.pureOk] at run
  obtain ⟨t, _, rfl⟩ := run
  exact QubitOrder.properIdentity t.axes

theorem Proper.reorder (proper : r.Proper) {permutation : List Int}
    (perm : permutation.Perm (QubitOrder.identity r.size).axes)
    (run : r.reorder permutation = .ok next) : next.Proper := by
  simp only [Register.reorder, Result.bindOk, Result.pureOk] at run
  obtain ⟨order, run, rfl⟩ := run
  obtain ⟨same, kept⟩ := QubitOrder.Proper.reorder proper perm
  exact Except.ok.inj (same.symm.trans run) ▸ kept

theorem Proper.reorderTotal (proper : r.Proper) {permutation : List Int}
    (perm : permutation.Perm (QubitOrder.identity r.size).axes) : r.reorder permutation =
      .ok { r with order := ⟨permutation.map fun p => (r.order.axisAt p.toNat : Int)⟩ } := by
  simp only [Register.reorder, Result.bindOk, Result.pureOk]
  exact ⟨_, (QubitOrder.Proper.reorder proper perm).1, rfl⟩

structure Fits (r : Register R) (op : Matrix R) (qubits : List Int) : Prop where
  valid : ∀ q ∈ qubits, 0 ≤ q ∧ q < r.size
  once : qubits.Nodup
  entries : op.entries.size = Nat.pow 4 qubits.length

variable {op : Matrix R} {qubits : List Int}

theorem Fits.lt (fits : r.Fits op qubits) {q : Int} (mem : q ∈ qubits) : q.toNat < r.size := by
  have := fits.valid q mem
  omega

namespace Proper

theorem axesOf (proper : r.Proper) (fits : r.Fits op qubits) :
    r.axesOf qubits = .ok (qubits.map fun q => r.order.axisAt q.toNat) := by
  rw [Register.axesOf, QubitOrder.Proper.toAxes proper fits.valid]
  simp only [Result.bindOk, Result.pureOk]
  exact ⟨_, rfl, by simp [Function.comp_def]⟩

theorem axesLt (proper : r.Proper) (fits : r.Fits op qubits) :
    ∀ axis ∈ qubits.map fun q => r.order.axisAt q.toNat, axis < r.tensor.axes :=
  List.forall_mem_map.mpr fun _ mem => QubitOrder.Proper.axisLt proper (fits.lt mem)

theorem axesOnce (proper : r.Proper) (fits : r.Fits op qubits) :
    (qubits.map fun q => r.order.axisAt q.toNat).Nodup := by
  refine fits.once.map_on fun p hp q hq same => ?_
  have places := (QubitOrder.Proper.axisInj proper (fits.lt hp) (fits.lt hq)).mp same
  have hp := fits.valid p hp
  have hq := fits.valid q hq
  omega

end Proper

variable [Scalar R]

theorem evolveOk : r.evolve op qubits = .ok next ↔
    ∃ axes, r.axesOf qubits = .ok axes ∧ (op.entries.size = Nat.pow 4 axes.length ∧ axes.Nodup) ∧
      ∃ t, (r.tensor.contract op axes).transpose
        ((Tensor.placesByValue (Tensor.forward r.size axes)).map Int.ofNat) = .ok t ∧
        next = { r with tensor := t } := by
  simp only [evolve, requireFit, Result.bindOk, Result.pureOk, ite_eq_left_iff, reduceCtorEq, imp_false,
    not_not, exists_const, eq_comm (b := next)]

namespace Proper

theorem add (proper : r.Proper) {count : Int} (run : r.add count = .ok next) : next.Proper := by
  unfold Register.add at run
  split at run
  · cases run
  · cases run
    exact QubitOrder.Proper.add proper count

theorem evolve (proper : r.Proper) (run : r.evolve op qubits = .ok next) : next.Proper := by
  obtain ⟨axes, _, _, t, back, rfl⟩ := evolveOk.mp run
  have kept : t.axes = (r.tensor.contract op axes).axes := Tensor.transposeAxes back
  exact (congrArg (r.order.Proper ·) kept).mpr proper

theorem measure (proper : r.Proper) {qubit : Int} {basis : Basis R} {one : Bool}
    (run : r.measure qubit basis one = .ok next) : next.Proper := by
  simp only [Register.measure, Result.bindOk, Result.pureOk] at run
  obtain ⟨axis, found, v, _, rfl⟩ := run
  exact QubitOrder.Proper.remove proper (Position.getMem found)

theorem stateOk (proper : r.Proper) : r.state = .ok (r.tensor.relabel r.order.axisAt) := by
  unfold state
  split
  · rename_i own
    have fixed : ∀ i < r.tensor.axes, r.order.axisAt i = i := fun i inside => by
      rw [own, QubitOrder.axisIdentity inside]
    rw [Tensor.relabelSame fixed]
    rfl
  · obtain ⟨qubits, run, whole, places⟩ := QubitOrder.Proper.inverse proper
    have places : ∀ x : Tensor.Label, r.tensor.get (fun axis => x (qubits.idxOf (axis : Int))) =
        r.tensor.get (x ∘ r.order.axisAt) := fun x =>
      Tensor.getCongr fun axis inside => congrArg x (places axis inside)
    rw [size] at whole
    rw [run]
    show r.tensor.transpose qubits = _
    rw [Tensor.transpose, if_pos whole, Tensor.relabel, funext places]

theorem evolveTotal (proper : r.Proper) (fits : r.Fits op qubits) : r.evolve op qubits =
    .ok { r with tensor := r.tensor.act op (qubits.map fun q => r.order.axisAt q.toNat) } := by
  refine evolveOk.mpr ⟨_, proper.axesOf fits, ⟨?_, proper.axesOnce fits⟩, _, ?_, rfl⟩
  · rw [List.length_map, fits.entries]
  · exact Tensor.contractBack (proper.axesLt fits) (proper.axesOnce fits)

theorem shown (proper : r.Proper) (fits : r.Fits op qubits) : ∃ next, r.evolve op qubits = .ok next ∧
    next.state = .ok ((r.tensor.relabel r.order.axisAt).act op
      (qubits.map fun q => r.order.axisAt (r.order.axisAt q.toNat))) := by
  have run := proper.evolveTotal fits
  refine ⟨_, run, ?_⟩
  rw [(proper.evolve run).stateOk, Tensor.relabelAct (fun i => QubitOrder.Proper.axisLt proper)
    (fun i first j second => (QubitOrder.Proper.axisInj proper first second).mp)
    (proper.axesLt fits), List.map_map]
  rfl

end Proper

inductive Reached : Register R → Prop
  | start {r : Register R} {amps : List (Amplitude R)} : ofAmps amps = .ok r → Reached r
  | reorder {r next : Register R} {permutation : List Int} : Reached r →
      permutation.Perm (QubitOrder.identity r.size).axes → r.reorder permutation = .ok next → Reached next
  | add {r next : Register R} {count : Int} : Reached r → r.add count = .ok next → Reached next
  | evolve {r next : Register R} {op : Matrix R} {qubits : List Int} : Reached r →
      r.evolve op qubits = .ok next → Reached next
  | entangle {r next : Register R} {a b : Int} : Reached r → r.entangle a b = .ok next → Reached next
  | measure {r next : Register R} {qubit : Int} {basis : Basis R} {one : Bool} : Reached r →
      r.measure qubit basis one = .ok next → Reached next

theorem Reached.proper (reached : Reached r) : r.Proper := by
  induction reached with
  | start run => exact startProper run
  | reorder _ perm run proper => exact proper.reorder perm run
  | add _ run proper => exact proper.add run
  | evolve _ run proper => exact proper.evolve run
  | entangle _ run proper => exact proper.evolve run
  | measure _ run proper => exact proper.measure run

def ActsAsShown (r : Register R) : Prop :=
  ∀ op qubits, r.Fits op qubits → ∃ before next after, r.state = .ok before ∧
    r.evolve op qubits = .ok next ∧ next.state = .ok after ∧ after = before.act op (qubits.map Int.toNat)

theorem Proper.actsAsShown (proper : r.Proper) : r.ActsAsShown ↔ ∀ op qubits, r.Fits op qubits →
    (r.tensor.relabel r.order.axisAt).act op
        (qubits.map fun q => r.order.axisAt (r.order.axisAt q.toNat)) =
      (r.tensor.relabel r.order.axisAt).act op (qubits.map Int.toNat) := by
  constructor
  · intro acts op qubits fits
    obtain ⟨before, next, after, state, run, shown, same⟩ := acts op qubits fits
    obtain ⟨next', run', shown'⟩ := proper.shown fits
    cases run'.symm.trans run
    cases proper.stateOk.symm.trans state
    exact (Except.ok.inj (shown'.symm.trans shown)).trans same
  · intro agree op qubits fits
    obtain ⟨next, run, shown⟩ := proper.shown fits
    exact ⟨_, next, _, proper.stateOk, run, shown, agree op qubits fits⟩

end Register

namespace Tensor
variable {n p q : Nat} {x : Label} {o : QubitOrder}

noncomputable def ground (n : Nat) : Tensor ℝ :=
  ofFn n fun x => if ∀ axis < n, x axis = false then 1 else 0

theorem getGround : (ground n).get x = if ∀ axis < n, x axis = false then 1 else 0 := by
  refine getOfFn fun y same => if_congr ?_ rfl rfl
  constructor
  · exact fun zero axis inside => (same axis inside).symm.trans (zero axis inside)
  · exact fun zero axis inside => (same axis inside).trans (zero axis inside)

theorem relabelGround (proper : o.Proper n) : (ground n).relabel o.axisAt = ground n := by
  refine eqOfGet rfl fun x => ?_
  rw [getRelabel (t := ground n) fun i => proper.axisLt, getGround, getGround]
  refine if_congr ⟨fun zero axis inside => ?_, fun zero axis inside => ?_⟩ rfl rfl
  · obtain ⟨i, below, rfl⟩ := proper.axisOnto inside
    exact zero i below
  · exact zero _ (proper.axisLt inside)

theorem getFlip {t : Tensor ℝ} (inside : p < t.axes) : ((t.act Gate.xMatrix [p]).get x).toComplex =
    (t.get (Function.update x p (!x p))).toComplex := by
  have low : withBits [p] 0 x = Function.update x p false := withBitsOne (b := false)
  have high : withBits [p] 1 x = Function.update x p true := withBitsOne (b := true)
  have width : List.range (Nat.pow 2 [p].length) = [0, 1] := rfl
  rw [getAct (by simpa using inside), width, placeOnOne]
  cases x p <;> simp [Matrix.sum, low, high, Gate.xMatrix, Matrix.ofRows]

theorem flipsApart (first : p < n) (second : q < n) (other : p ≠ q) :
    (ground n).act Gate.xMatrix [p] ≠ (ground n).act Gate.xMatrix [q] := by
  intro same
  -- the label with a one for `q` alone is reached by the flip of `q` and no other
  have flips := congrArg (fun t => (t.get (Function.update (fun _ => false) q true)).toComplex) same
  simp only [getFlip (t := ground n) first, getFlip (t := ground n) second, getGround] at flips
  rw [if_neg, if_pos] at flips
  · simp at flips
  · intro axis _
    simp
  · intro zero
    have := zero q second
    simp [Function.update_of_ne (Ne.symm other)] at this

end Tensor

namespace Register
variable {n q : Nat} {o : QubitOrder}

theorem groundReached (proper : o.Proper n) : Reached ⟨Tensor.ground n, o⟩ := by
  have start : ofAmps (Tensor.ground n).toList = .ok (ofTensor (Tensor.ground n)) := by
    simp only [ofAmps, Result.bindOk, Result.pureOk]
    exact ⟨_, Tensor.ofToList, rfl⟩
  have axes : o.axes.map (fun p => ((QubitOrder.identity n).axisAt p.toNat : Int)) = o.axes := by
    refine (List.map_congr_left fun p mem => ?_).trans (List.map_id _)
    have inside := proper.mem.mp mem
    rw [QubitOrder.axisIdentity (by omega), Int.toNat_of_nonneg inside.1, id]
  refine .reorder (.start start) proper ?_
  simp only [Register.reorder, Result.bindOk, Result.pureOk]
  exact ⟨_, ((QubitOrder.properIdentity n).reorder proper).1, by rw [axes]; rfl⟩

theorem fitsFlip {t : Tensor ℝ} (inside : q < t.axes) : Fits ⟨t, o⟩ Gate.xMatrix [(q : Int)] where
  valid := by simpa [size] using inside
  once := List.nodup_singleton _
  entries := rfl

theorem groundTells (proper : o.Proper n) (inside : q < n)
    (acts : ActsAsShown ⟨Tensor.ground n, o⟩) : o.axisAt (o.axisAt q) = q := by
  have whole : Register.Proper ⟨Tensor.ground n, o⟩ := proper
  have same := whole.actsAsShown.mp acts Gate.xMatrix [(q : Int)] (fitsFlip inside)
  rw [Tensor.relabelGround proper] at same
  by_contra other
  exact Tensor.flipsApart (proper.axisLt (proper.axisLt inside)) inside other same

/- What a register shows after acting is what it showed before, acted on where the order leads in two
steps. Qubits are acted on as they are shown in every register with a given order if and only if the
order is its own inverse. -/
theorem shownThroughOrder {r : Register ℝ} (reached : Reached r) :
    (∀ op qubits, r.Fits op qubits → ∃ before next after once twice,
      r.state = .ok before ∧ r.evolve op qubits = .ok next ∧ next.state = .ok after ∧
      r.order.toAxes qubits = .ok once ∧ r.order.toAxes once = .ok twice ∧
      after = before.act op (twice.map Int.toNat)) ∧
    ((∀ s : Register ℝ, Reached s → s.order = r.order → s.ActsAsShown) ↔
      ∀ q < r.size, ∃ axis, r.order.toAxis q = .ok axis ∧ r.order.toAxis axis = .ok (q : Int)) := by
  have proper : r.order.Proper r.size := reached.proper
  refine ⟨fun op qubits fits => ?_, fun acts q inside => ?_, fun back s other same => ?_⟩
  · obtain ⟨next, run, shown⟩ := reached.proper.shown fits
    have first : ∀ a ∈ qubits.map (fun q => (r.order.axisAt q.toNat : Int)), 0 ≤ a ∧ a < r.size := by
      refine List.forall_mem_map.mpr fun q mem => ?_
      have := proper.axisLt (fits.lt mem)
      omega
    refine ⟨_, next, _, _, _, reached.proper.stateOk, run, shown, proper.toAxes fits.valid,
      proper.toAxes first, ?_⟩
    simp [Function.comp_def]
  · have acts : ActsAsShown ⟨Tensor.ground r.size, r.order⟩ := acts _ (groundReached proper) rfl
    have back := groundTells proper inside acts
    refine ⟨_, proper.toAxis inside, ?_⟩
    rw [proper.toAxis (proper.axisLt inside), back]
  · have size : s.size = r.size := by
      rw [← proper.length, ← same]
      exact (QubitOrder.Proper.length other.proper).symm
    refine other.proper.actsAsShown.mpr fun op qubits fits => ?_
    refine congrArg _ (List.map_congr_left fun q mem => ?_)
    have inside : q.toNat < r.size := size ▸ fits.lt mem
    obtain ⟨axis, there, home⟩ := back q.toNat inside
    rw [proper.toAxis inside] at there
    cases there
    rw [proper.toAxis (proper.axisLt inside)] at home
    rw [same]
    exact Int.ofNat.inj (Except.ok.inj home)

noncomputable def cycled : Register ℝ := ⟨Tensor.ground 3, ⟨[2, 0, 1]⟩⟩

theorem cycledReached : Reached cycled := groundReached (by decide)

theorem cycledFits : cycled.Fits Gate.xMatrix [0] := fitsFlip (q := 0) (by decide)

theorem cycledShows : Reached cycled ∧
    (∃ before next after once twice, cycled.state = .ok before ∧
      cycled.evolve Gate.xMatrix [0] = .ok next ∧ next.state = .ok after ∧
      cycled.order.toAxes [0] = .ok once ∧ cycled.order.toAxes once = .ok twice ∧
      after = before.act Gate.xMatrix (twice.map Int.toNat)) ∧
    ¬ ∀ s : Register ℝ, Reached s → s.order = cycled.order → s.ActsAsShown := by
  obtain ⟨through, selfInverse⟩ := shownThroughOrder cycledReached
  refine ⟨cycledReached, through Gate.xMatrix [0] cycledFits, fun acts => ?_⟩
  obtain ⟨axis, there, home⟩ := selfInverse.mp acts 0 (by decide)
  cases there
  exact absurd home (by decide)

theorem cycledFlips : Reached cycled ∧ ∃ before next after, cycled.state = .ok before ∧
    cycled.evolve Gate.xMatrix [0] = .ok next ∧ next.state = .ok after ∧
    after = before.act Gate.xMatrix [1] ∧ after ≠ before.act Gate.xMatrix [0] := by
  have proper : cycled.Proper := cycledReached.proper
  have ground : cycled.tensor.relabel cycled.order.axisAt = Tensor.ground 3 := Tensor.relabelGround proper
  obtain ⟨next, run, shown⟩ := proper.shown cycledFits
  refine ⟨cycledReached, _, next, _, proper.stateOk, run, shown, rfl, ?_⟩
  rw [ground]
  exact Tensor.flipsApart (p := 1) (by decide) (by decide) (by decide)

end Register
end OneWay
