import OneWay.Proofs.Normalization
import OneWay.Proofs.Scheduled

/-! Entangling along a list of pairs. On whatever axes two qubits are, entangling them changes the sign of
the amplitudes in which both are one and nothing else. So only how often each pair is listed counts, and
of that only the parity: neither the order of the list nor which end of a pair is named first. -/
namespace OneWay
open Pattern (bonds)

namespace Operator
variable {edges others : List (Int × Int)} {z : Labelling}

def bondSign (z : Labelling) : Sym2 Int → ℂ :=
  Sym2.lift ⟨fun a b => sign (z a && z b), fun a b => congrArg sign (Bool.and_comm (z a) (z b))⟩

theorem phaseOfBonds : phase edges z = ((bonds edges).map (bondSign z)).prod := by
  rw [phase, bonds, List.map_map]
  rfl

theorem phaseBonds (same : (bonds edges).Perm (bonds others)) : phase edges z = phase others z := by
  rw [phaseOfBonds, phaseOfBonds, (same.map _).prod_eq]

theorem phaseTwice {e : Int × Int} : phase (e :: e :: edges) z = phase edges z := by
  simp only [phase, List.map_cons, List.prod_cons]
  rw [← mul_assoc, signSelf, one_mul]

end Operator

namespace Tensor
variable {t : Tensor ℝ} {p q : Nat} {x : Label}

theorem getEntangled (first : p < t.axes) (second : q < t.axes) :
    ((t.act (Gate.controlled 4 Gate.zMatrix) [p, q]).get x).toComplex =
      sign (x p && x q) * (t.get x).toComplex := by
  have inside : ∀ axis ∈ [p, q], axis < t.axes := by simpa using ⟨first, second⟩
  have row : placeOn [p, q] x < 4 := placeLt
  have place : placeOn [p, q] x = 2 * (x p).toNat + (x q).toNat := by
    simp [placeOn, placeOf, List.range_succ]
  have entry {j : Nat} (column : j < 4) : ((Gate.controlled 4 Gate.zMatrix : Matrix ℝ).entries.getD
      (placeOn [p, q] x * 4 + j) 0).toComplex =
        if placeOn [p, q] x = j then (if placeOn [p, q] x = 3 then -1 else 1) else 0 :=
    Operator.czEntry (a := 0) (b := 0) row column
  rw [getAct inside, sumRange, Finset.sum_eq_single (placeOn [p, q] x)]
  · rw [Amplitude.toComplexMul, withBitsPlace]
    refine congrArg (· * _) ((entry row).trans ?_)
    rw [if_pos rfl, place]
    cases x p <;> cases x q <;> simp
  · intro j mem other
    rw [Amplitude.toComplexMul]
    refine (congrArg (· * _) (entry (Finset.mem_range.mp mem))).trans ?_
    rw [if_neg (Ne.symm other), zero_mul]
  · exact fun absent => absurd (Finset.mem_range.mpr row) absent

end Tensor

namespace Command
variable {R : Type}

def ends? : Command R → Option (Int × Int)
  | .entangle a b => some (a, b)
  | _ => none

theorem bondsEnds {commands : List (Command R)} :
    bonds (commands.filterMap ends?) = commands.filterMap entangled? := by
  rw [bonds, List.map_filterMap]
  congr 1
  funext c
  cases c <;> rfl

end Command

theorem bondsMapped {on : Int → Int} {edges : List (Int × Int)} :
    bonds (edges.map (Prod.map on on)) = (bonds edges).map (Sym2.map on) := by
  simp [bonds, Function.comp_def]

theorem Position.getOk {α : Type} {xs : List α} {i : Int} {x : α} :
    get xs i = .ok x ↔ ∃ j, index? xs.length i = some j ∧ xs[j]? = some x := by
  rw [← Option.bind_eq_some_iff, get]
  cases (index? xs.length i).bind fun j => xs[j]? <;> simp

namespace Register
variable {r : Register ℝ} {edges others : List (Int × Int)} {a b : Int} {p q : Nat} {x : Tensor.Label}

def Apart (r : Register ℝ) (a b : Int) : Prop :=
  ∃ p q, r.axesOf [a, b] = .ok [p, q] ∧ p < r.size ∧ q < r.size ∧ p ≠ q

def bits (r : Register ℝ) (x : Tensor.Label) : Labelling := fun n =>
  (r.order.toAxis n).toOption.any fun axis => x axis.toNat

theorem axesPair : r.axesOf [a, b] = .ok [p, q] ↔
    ∃ i j, r.order.toAxis a = .ok i ∧ r.order.toAxis b = .ok j ∧ i.toNat = p ∧ j.toNat = q := by
  simp only [axesOf, QubitOrder.toAxes, Result.bindOk, Result.pureOk, List.mapM_cons, List.mapM_nil]
  constructor
  · rintro ⟨_, ⟨i, first, _, ⟨j, second, _, rfl, rfl⟩, rfl⟩, same⟩
    obtain ⟨here, there⟩ : i.toNat = p ∧ j.toNat = q := by simpa using same
    exact ⟨i, j, first, second, here, there⟩
  · rintro ⟨i, j, first, second, rfl, rfl⟩
    exact ⟨[i, j], ⟨i, first, [j], ⟨j, second, [], rfl, rfl⟩, rfl⟩, rfl⟩

theorem bitsPair (axes : r.axesOf [a, b] = .ok [p, q]) : r.bits x a = x p ∧ r.bits x b = x q := by
  obtain ⟨i, j, first, second, rfl, rfl⟩ := axesPair.mp axes
  simp [bits, first, second, Except.toOption]

theorem Apart.symm (apart : r.Apart a b) : r.Apart b a := by
  obtain ⟨p, q, axes, first, second, other⟩ := apart
  obtain ⟨i, j, one, two, here, there⟩ := axesPair.mp axes
  exact ⟨q, p, axesPair.mpr ⟨j, i, two, one, there, here⟩, second, first, other.symm⟩

theorem Proper.apartIff (proper : r.Proper) : r.Apart a b ↔ Distinct r.size [a, b] := by
  have order : r.order.Proper r.size := proper
  constructor
  · rintro ⟨p, q, axes, _, _, other⟩
    obtain ⟨i, j, first, second, rfl, rfl⟩ := axesPair.mp axes
    obtain ⟨k, placeA, atK⟩ := Position.getOk.mp first
    obtain ⟨l, placeB, atL⟩ := Position.getOk.mp second
    rw [order.length] at placeA placeB
    have apart : k ≠ l := by
      rintro rfl
      cases atK.symm.trans atL
      exact other rfl
    exact ⟨[k, l], by simp [placeA, placeB], by simpa using apart⟩
  · rintro ⟨places, named, once⟩
    have axes := proper.axesNamed named
    obtain ⟨k, l, rfl⟩ := List.length_eq_two.mp (by simpa using (congrArg List.length named).symm)
    have named : Position.index? r.size a = some k ∧ Position.index? r.size b = some l := by simpa using named
    have first := Position.indexLt named.1
    have second := Position.indexLt named.2
    have apart : k ≠ l := by simpa using once
    exact ⟨_, _, axes, order.axisLt first, order.axisLt second,
      fun same => apart ((order.axisInj first second).mp same)⟩

noncomputable def entangleAll (r : Register ℝ) (edges : List (Int × Int)) : Except Fault (Register ℝ) :=
  edges.foldlM (fun r e => r.entangle e.1 e.2) r

theorem entangleOk (apart : r.Apart a b) : ∃ t, r.entangle a b = .ok { r with tensor := t } ∧
    t.axes = r.tensor.axes ∧
    ∀ x, (t.get x).toComplex = sign (r.bits x a && r.bits x b) * (r.tensor.get x).toComplex := by
  obtain ⟨p, q, axes, first, second, other⟩ := apart
  have inside : ∀ axis ∈ [p, q], axis < r.tensor.axes := by simpa using ⟨first, second⟩
  have once : [p, q].Nodup := by simpa using other
  have shape : (Gate.controlled 4 Gate.zMatrix : Matrix ℝ).entries.size = Nat.pow 4 [p, q].length := by
    simp [Gate.controlled, Matrix.ofFn]
  refine ⟨_, evolveOk.mpr ⟨_, axes, ⟨shape, once⟩, _, Tensor.contractBack inside once, rfl⟩, rfl, fun x => ?_⟩
  rw [Tensor.getEntangled first second, (bitsPair axes).1, (bitsPair axes).2]

theorem entangleAllOk (apart : ∀ e ∈ edges, r.Apart e.1 e.2) :
    ∃ t, r.entangleAll edges = .ok { r with tensor := t } ∧ t.axes = r.tensor.axes ∧
      ∀ x, (t.get x).toComplex = Operator.phase edges (r.bits x) * (r.tensor.get x).toComplex := by
  induction edges generalizing r with
  | nil => exact ⟨r.tensor, rfl, rfl, fun x => by simp [Operator.phase]⟩
  | cons e rest ih =>
    obtain ⟨here, later⟩ := List.forall_mem_cons.mp apart
    obtain ⟨s, head, kept, signed⟩ := entangleOk here
    have later : ∀ e ∈ rest, Apart { r with tensor := s } e.1 e.2 := by
      simpa only [Apart, axesOf, size, kept] using later
    obtain ⟨t, tail, same, phased⟩ := ih later
    refine ⟨t, ?_, same.trans kept, fun x => ?_⟩
    · rw [entangleAll, List.foldlM_cons, Result.bindOk]
      exact ⟨_, head, tail⟩
    · have bits : bits { r with tensor := s } x = r.bits x := rfl
      simp only [phased, signed, bits, Operator.phase, List.map_cons, List.prod_cons]
      ring

def EntangledAlike (r : Register ℝ) (edges others : List (Int × Int)) : Prop :=
  ∃ last, r.entangleAll edges = .ok last ∧ r.entangleAll others = .ok last

theorem entangledAlike (first : ∀ e ∈ edges, r.Apart e.1 e.2) (second : ∀ e ∈ others, r.Apart e.1 e.2)
    (same : ∀ z, Operator.phase edges z = Operator.phase others z) : r.EntangledAlike edges others := by
  obtain ⟨t, runT, axesT, phasedT⟩ := entangleAllOk first
  obtain ⟨s, runS, axesS, phasedS⟩ := entangleAllOk second
  have equal : s = t := by
    refine Tensor.eqOfGet (axesS.trans axesT.symm) fun x => Amplitude.toComplexInj ?_
    rw [phasedS, phasedT, same]
  exact ⟨_, runT, equal ▸ runS⟩

theorem apartBonds (apart : ∀ e ∈ edges, r.Apart e.1 e.2) (inside : bonds others ⊆ bonds edges) :
    ∀ e ∈ others, r.Apart e.1 e.2 := by
  intro e mem
  rcases Pattern.memBonds.mp (inside (List.mem_map_of_mem mem)) with forth | back
  · exact apart _ forth
  · exact (apart _ back).symm

theorem alikeBonds (apart : ∀ e ∈ edges, r.Apart e.1 e.2) (perm : (bonds edges).Perm (bonds others)) :
    r.EntangledAlike edges others :=
  entangledAlike apart (apartBonds apart perm.symm.subset) fun _ => Operator.phaseBonds perm

theorem alikeTwice {e : Int × Int} {front mid back : List (Int × Int)} (own : r.Apart e.1 e.2)
    (apart : ∀ d ∈ front ++ mid ++ back, r.Apart d.1 d.2) :
    r.EntangledAlike (front ++ mid ++ back) (front ++ e :: mid ++ e :: back) := by
  have perm : (front ++ e :: mid ++ e :: back).Perm (e :: e :: (front ++ mid ++ back)) := by
    refine List.perm_middle.trans (.cons e ?_)
    rw [List.append_assoc, List.append_assoc]
    exact List.perm_middle
  refine entangledAlike apart (fun d mem => ?_) fun z => ?_
  · rcases List.mem_cons.mp (perm.subset mem) with rfl | mem
    · exact own
    · rcases List.mem_cons.mp mem with rfl | mem
      · exact own
      · exact apart d mem
  · rw [Operator.phasePerm perm, Operator.phaseTwice]

/- Along a list of pairs of different qubits a register can always be entangled, and an amplitude changes
its sign once for every pair whose qubits are both one. The outcome is the same along every rearrangement
of the list with pairs turned round, and a pair that is put in twice changes nothing; so it does not matter
in which order the edges of a graph are listed for a pattern. -/
theorem entanglingCommutes (R : Type) [Scalar R] (r : Register ℝ) :
    (r.Proper → ∀ a b, r.Apart a b ↔ Distinct r.size [a, b]) ∧
    (∀ edges, (∀ e ∈ edges, r.Apart e.1 e.2) → ∃ t, r.entangleAll edges = .ok { r with tensor := t } ∧
      t.axes = r.tensor.axes ∧
      ∀ x, (t.get x).toComplex = Operator.phase edges (r.bits x) * (r.tensor.get x).toComplex) ∧
    (∀ edges others, (∀ e ∈ edges, r.Apart e.1 e.2) → (bonds edges).Perm (bonds others) →
      r.EntangledAlike edges others) ∧
    (∀ e front mid back, r.Apart e.1 e.2 → (∀ d ∈ front ++ mid ++ back, r.Apart d.1 d.2) →
      r.EntangledAlike (front ++ mid ++ back) (front ++ e :: mid ++ e :: back)) ∧
    ∀ (g : Graph R) xflow zflow correct p, g.Reachable → g.compile xflow zflow none correct = .ok p →
      ∀ (on : Int → Int) (edges : List (Int × Int)), Once (bonds edges) g.IsEdge →
        (∀ e ∈ edges, r.Apart (on e.1) (on e.2)) →
        r.EntangledAlike (edges.map (Prod.map on on))
          ((p.commands.filterMap Command.ends?).map (Prod.map on on)) := by
  refine ⟨fun proper a b => proper.apartIff, fun edges => entangleAllOk, fun edges others => alikeBonds,
    fun e front mid back => alikeTwice, fun g xflow zflow correct p reach ok on edges listed apart => ?_⟩
  obtain ⟨_, x, z, order, measured, _, _, _, parts, rfl⟩ := Graph.compileOk.mp ok
  have made := (parts.builds (Graph.reachableSound reach) correct).entangled
  rw [← Command.bondsEnds] at made
  refine alikeBonds (List.forall_mem_map.mpr apart) ?_
  rw [bondsMapped, bondsMapped]
  exact (listed.perm made).map _

noncomputable def quartet : Register ℝ := ⟨Tensor.ofFn 4 fun _ => 1, ⟨[2, 0, 3, 1]⟩⟩

theorem quartetProper : quartet.Proper := by
  show QubitOrder.Proper ⟨[2, 0, 3, 1]⟩ 4
  decide

set_option maxRecDepth 1024

theorem quartetCommutes : quartet.Proper ∧
    quartet.EntangledAlike [(0, 1), (1, -1), (2, 0)] [(-1, 1), (0, 2), (1, 0)] ∧
    quartet.EntangledAlike [(0, 1), (1, -1)] [(2, 1), (0, 1), (2, 1), (1, -1)] ∧
    ∃ p, Graph.twig.compile Graph.twigFlow none none true = .ok p ∧
      quartet.EntangledAlike [(3, 1), (0, 1), (2, 1)] (p.commands.filterMap Command.ends?) := by
  obtain ⟨named, _, rearranged, twice, compiled⟩ := entanglingCommutes Float quartet
  have apart (a b : Int) (i j : Nat) (first : Position.index? 4 a = some i)
      (second : Position.index? 4 b = some j) (other : i ≠ j) : quartet.Apart a b :=
    (named quartetProper a b).mpr
      ⟨[i, j], by simp [first, second, quartet, size, Tensor.ofFn], by simpa using other⟩
  have reach : Graph.twig.Reachable := ⟨_, rfl⟩
  obtain ⟨p, ok⟩ := Graph.twigCompiles
  have once := (Graph.reachableSound reach).edgesOnce
  have perm : (bonds [(3, 1), (0, 1), (2, 1)]).Perm (bonds Graph.twig.edges) := by decide
  have listed : Once (bonds [(3, 1), (0, 1), (2, 1)]) Graph.twig.IsEdge :=
    ⟨perm.nodup_iff.mpr once.1, fun e => perm.mem_iff.trans (once.2 e)⟩
  refine ⟨quartetProper, rearranged _ _ ?_ (by decide), twice (2, 1) [] [(0, 1)] [(1, -1)] ?_ ?_, p, ok, ?_⟩
  · simp only [List.forall_mem_cons]
    exact ⟨apart 0 1 0 1 rfl rfl (by decide), apart 1 (-1) 1 3 rfl rfl (by decide),
      apart 2 0 2 0 rfl rfl (by decide), by simp⟩
  · exact apart 2 1 2 1 rfl rfl (by decide)
  · simp only [List.nil_append, List.cons_append, List.forall_mem_cons]
    exact ⟨apart 0 1 0 1 rfl rfl (by decide), apart 1 (-1) 1 3 rfl rfl (by decide), by simp⟩
  · have each : ∀ e ∈ [(3, 1), (0, 1), (2, 1)], quartet.Apart (id e.1) (id e.2) := by
      simp only [List.forall_mem_cons]
      exact ⟨apart 3 1 3 1 rfl rfl (by decide), apart 0 1 0 1 rfl rfl (by decide),
        apart 2 1 2 1 rfl rfl (by decide), by simp⟩
    simpa using compiled Graph.twig _ _ _ p reach ok id _ listed each

end Register
end OneWay
