import Mathlib.LinearAlgebra.Pi
import Mathlib.Tactic.IntervalCases
import OneWay.Flow.Focus
import OneWay.Gate.Matrix
import OneWay.Proofs.Contraction
import OneWay.Proofs.Exact
import OneWay.Proofs.Reachable

/-! States as amplitudes of labellings, and the linear map that a graph carries out on them. A labelling
gives a bit to every number, a node's or a logical qubit's; a state does not look at the bits of nodes
that are not there. -/
namespace OneWay
open ComplexConjugate

abbrev Labelling := Int → Bool

def Labelling.Within (qubits : Nat) (y : Labelling) : Prop := ∀ q : Int, y q = true → 0 ≤ q ∧ q < qubits

abbrev State := Labelling → ℂ

abbrev Operator := Module.End ℂ State

def sign (b : Bool) : ℂ := if b then -1 else 1

@[simp] theorem signFalse : sign false = 1 := rfl

@[simp] theorem signTrue : sign true = -1 := rfl

theorem signXor {a b : Bool} : sign (xor a b) = sign a * sign b := by
  cases a <;> cases b <;> simp

theorem signSelf {b : Bool} : sign b * sign b = 1 := by
  cases b <;> simp

theorem signNeZero {b : Bool} : sign b ≠ 0 := by
  cases b <;> simp

namespace Operator
open Tensor (withBits placeOn withBitsOne withBitsPlace placeOnOne)

def inTurn (us : List Operator) : Operator := us.reverse.prod

@[simp] theorem inTurnNil : inTurn [] = 1 := rfl

theorem inTurnCons {u : Operator} {us : List Operator} : inTurn (u :: us) = inTurn us * u := by
  simp [inTurn]

theorem inTurnSnoc {u : Operator} {us : List Operator} : inTurn (us ++ [u]) = u * inTurn us := by
  simp [inTurn]

theorem inTurnPerm {us vs : List Operator} (perm : us.Perm vs) (commute : us.Pairwise Commute) :
    inTurn us = inTurn vs := by
  have back : us.reverse.Perm vs.reverse :=
    (List.reverse_perm us).trans (perm.trans (List.reverse_perm vs).symm)
  refine back.prod_eq' ?_
  rw [List.pairwise_reverse]
  exact commute.imp fun h => h.symm

/- A node in the equal superposition, whatever was said of its number before. -/
noncomputable def prepare (n : Int) : Operator :=
  LinearMap.pi fun z => (√2 : ℂ)⁻¹ • LinearMap.proj (Function.update z n false)

noncomputable def project (n : Int) (k : Ket ℝ) : Operator :=
  LinearMap.pi fun z => conj k.zero.toComplex • LinearMap.proj (Function.update z n false) +
    conj k.one.toComplex • LinearMap.proj (Function.update z n true)

noncomputable def act (m : Matrix ℝ) (qs : List Int) : Operator :=
  LinearMap.pi fun z => ∑ place ∈ Finset.range (2 ^ qs.length),
    (m.entry (placeOn qs z) place).toComplex • LinearMap.proj (withBits qs place z)

noncomputable def entangle (a b : Int) : Operator := act (Gate.cz [a, b]).matrix [a, b]

def gather (inputs : Table Int) (z : Labelling) : Labelling := fun q =>
  inputs.entries.any fun e => e.2 == q && z e.1

def spread (outputs : Table Int) (y : Labelling) : Labelling := fun n =>
  match outputs.get? n with
  | some q => y q
  | none => false

def load (inputs : Table Int) : Operator := LinearMap.pi fun z => LinearMap.proj (gather inputs z)

def read (outputs : Table Int) : Operator := LinearMap.pi fun y => LinearMap.proj (spread outputs y)

variable {φ : State} {z : Labelling} {n : Int}

@[simp] theorem prepareApply : prepare n φ z = (√2 : ℂ)⁻¹ * φ (Function.update z n false) := rfl

theorem projectApply {k : Ket ℝ} : project n k φ z =
    conj k.zero.toComplex * φ (Function.update z n false) +
      conj k.one.toComplex * φ (Function.update z n true) := rfl

theorem actApply {m : Matrix ℝ} {qs : List Int} : act m qs φ z =
    ∑ place ∈ Finset.range (2 ^ qs.length),
      (m.entry (placeOn qs z) place).toComplex * φ (withBits qs place z) := by
  simp [act]

theorem readApply {outputs : Table Int} : read outputs φ z = φ (spread outputs z) := rfl

theorem loadApply {inputs : Table Int} : load inputs φ z = φ (gather inputs z) := rfl

theorem actOne {m : Matrix ℝ} {q : Int} : act m [q] φ z =
    (m.entry (z q).toNat 0).toComplex * φ (Function.update z q false) +
      (m.entry (z q).toNat 1).toComplex * φ (Function.update z q true) := by
  have low : withBits [q] 0 z = Function.update z q false := withBitsOne (b := false)
  have high : withBits [q] 1 z = Function.update z q true := withBitsOne (b := true)
  rw [actApply, placeOnOne]
  simp only [List.length_singleton, pow_one, Finset.sum_range_succ, Finset.sum_range_zero, zero_add,
    low, high]

theorem actDiagonal {m : Matrix ℝ} {qs : List Int} {d : Nat → ℂ}
    (diagonal : ∀ i < 2 ^ qs.length, ∀ j < 2 ^ qs.length,
      (m.entry i j).toComplex = if i = j then d i else 0) :
    act m qs φ z = d (placeOn qs z) * φ z := by
  have inside : placeOn qs z < 2 ^ qs.length := Tensor.placeLt
  rw [actApply, Finset.sum_eq_single (placeOn qs z)]
  · rw [diagonal _ inside _ inside, if_pos rfl, withBitsPlace]
  · intro place mem other
    rw [diagonal _ inside _ (Finset.mem_range.mp mem), if_neg (Ne.symm other), zero_mul]
  · intro absent
    exact absurd (Finset.mem_range.mpr inside) absent

theorem czEntry {a b : Int} {i j : Nat} (row : i < 4) (column : j < 4) :
    ((Gate.cz [a, b] : Gate ℝ).matrix.entry i j).toComplex =
      if i = j then (if i = 3 then -1 else 1) else 0 := by
  simp only [Gate.matrix, Gate.controlled, Matrix.entryOfFn row column]
  interval_cases i <;> interval_cases j <;>
    simp [Gate.zMatrix, Matrix.ofRows, Matrix.entry]

theorem entangleApply {a b : Int} : entangle a b φ z = sign (z a && z b) * φ z := by
  unfold entangle
  have diagonal : ∀ i < 2 ^ [a, b].length, ∀ j < 2 ^ [a, b].length,
      ((Gate.cz [a, b] : Gate ℝ).matrix.entry i j).toComplex =
        if i = j then (if i = 3 then -1 else 1) else 0 := fun i row j column => czEntry row column
  rw [actDiagonal diagonal]
  have place : placeOn [a, b] z = 2 * (z a).toNat + (z b).toNat := by
    simp [placeOn, Tensor.placeOf, List.range_succ]
  rw [place]
  cases z a <;> cases z b <;> simp

noncomputable def projectAll (kets : List (Int × Ket ℝ)) : Operator :=
  inTurn (kets.map fun e => project e.1 e.2)

theorem projectAllCons {kets : List (Int × Ket ℝ)} {k : Ket ℝ} :
    projectAll ((n, k) :: kets) = projectAll kets * project n k :=
  inTurnCons

theorem projectAllSnoc {kets : List (Int × Ket ℝ)} {k : Ket ℝ} :
    projectAll (kets ++ [(n, k)]) = project n k * projectAll kets := by
  rw [projectAll, List.map_append, List.map_singleton, inTurnSnoc]
  rfl

theorem projectCommute {m : Int} {k l : Ket ℝ} (apart : n ≠ m) :
    Commute (project n k) (project m l) := by
  apply LinearMap.ext
  intro φ
  funext z
  simp only [Module.End.mul_apply, projectApply, Function.update_comm apart]
  ring

theorem projectAllPerm {kets others : List (Int × Ket ℝ)} (perm : kets.Perm others)
    (once : (kets.map Prod.fst).Nodup) : projectAll kets = projectAll others := by
  refine inTurnPerm (perm.map _) ?_
  rw [List.pairwise_map]
  exact (List.pairwise_map.mp once).imp fun apart => projectCommute apart

def Blind (ns : List Int) (f : Labelling → ℂ) : Prop :=
  ∀ n ∈ ns, ∀ z b, f (Function.update z n b) = f z

theorem projectFactor {k : Ket ℝ} {f : Labelling → ℂ} (blind : ∀ z b, f (Function.update z n b) = f z) :
    project n k (f * φ) = f * project n k φ := by
  funext z
  simp only [projectApply, Pi.mul_apply, blind]
  ring

theorem projectAllFactor {kets : List (Int × Ket ℝ)} {f : Labelling → ℂ}
    (blind : Blind (kets.map Prod.fst) f) : projectAll kets (f * φ) = f * projectAll kets φ := by
  induction kets generalizing φ with
  | nil => rfl
  | cons e rest ih =>
    have here : project e.1 e.2 (f * φ) = f * project e.1 e.2 φ := projectFactor (blind e.1 (by simp))
    have later : Blind (rest.map Prod.fst) f := fun n mem => blind n (by simp [mem])
    simp only [projectAll, List.map_cons, inTurnCons, Module.End.mul_apply, here]
    exact ih later

theorem prepareAll {ns : List Int} (blind : Blind ns φ) :
    inTurn (ns.map prepare) φ = ((√2 : ℂ)⁻¹ ^ ns.length) • φ := by
  induction ns with
  | nil => simp
  | cons n rest ih =>
    have here : prepare n φ = (√2 : ℂ)⁻¹ • φ := by
      funext z
      rw [prepareApply, blind n (by simp)]
      rfl
    have later : Blind rest φ := fun m mem => blind m (by simp [mem])
    rw [List.map_cons, inTurnCons, Module.End.mul_apply, here, map_smul, ih later, smul_smul,
      List.length_cons, pow_succ, mul_comm]

def phase (edges : List (Int × Int)) (z : Labelling) : ℂ :=
  (edges.map fun e => sign (z e.1 && z e.2)).prod

theorem phasePerm {edges others : List (Int × Int)} (perm : edges.Perm others) :
    phase edges z = phase others z := by
  unfold phase
  exact (perm.map _).prod_eq

theorem entangleAll {edges : List (Int × Int)} :
    inTurn (edges.map fun e => entangle e.1 e.2) φ z = phase edges z * φ z := by
  induction edges generalizing φ with
  | nil => simp [phase]
  | cons e rest ih =>
    rw [List.map_cons, inTurnCons, Module.End.mul_apply, ih, entangleApply]
    simp only [phase, List.map_cons, List.prod_cons]
    ring

theorem loadBlind {inputs : Table Int} {ns : List Int} (apart : ∀ n ∈ ns, n ∉ inputs.keys) :
    Blind ns (load inputs φ) := by
  intro n mem z b
  rw [loadApply, loadApply]
  congr 1
  funext q
  unfold gather
  rw [Bool.eq_iff_iff, List.any_eq_true, List.any_eq_true]
  refine exists_congr fun e => and_congr_right fun here => ?_
  have other : e.1 ≠ n := by
    intro same
    exact apart n mem (List.mem_map.mpr ⟨e, here, same⟩)
  rw [Function.update_of_ne other]

end Operator

namespace Graph
open Operator

noncomputable def kets (g : Graph ℝ) : Except Fault (List (Int × Ket ℝ)) :=
  g.innerNodes.toList.mapM fun n => do return (n, ← (← g.basisAt n).vector)

theorem ketsOk {g : Graph ℝ} {kets : List (Int × Ket ℝ)} : g.kets = .ok kets ↔
    List.Forall₂ (fun n e => e.1 = n ∧ ∃ basis, g.bases.get? n = some basis ∧ basis.vector = .ok e.2)
      g.innerNodes.toList kets := by
  have each : ∀ n (e : Int × Ket ℝ), (do return (n, ← (← g.basisAt n).vector)) = .ok e ↔
      e.1 = n ∧ ∃ basis, g.bases.get? n = some basis ∧ basis.vector = .ok e.2 := by
    intro n given
    obtain ⟨m, k⟩ := given
    simp only [Result.bindOk, Result.pureOk, basisAt, Prod.mk.injEq]
    cases g.bases.get? n with
    | none => simp
    | some basis => simp [eq_comm, and_comm]
  rw [Graph.kets, Result.mapMOk]
  simp only [each]

theorem ketsTotal {g : Graph ℝ} (each : ∀ n ∈ g.innerNodes, ∃ basis k,
    g.bases.get? n = some basis ∧ basis.vector = .ok k) : ∃ kets, g.kets = .ok kets := by
  refine Result.mapMTotal fun n inner => ?_
  obtain ⟨basis, k, found, vector⟩ := each n inner
  refine ⟨(n, k), ?_⟩
  simp only [Result.bindOk, Result.pureOk, basisAt, found]
  exact ⟨basis, rfl, k, vector, rfl⟩

theorem ketsNodes {g : Graph ℝ} {kets : List (Int × Ket ℝ)} (ok : g.kets = .ok kets) :
    kets.map Prod.fst = g.innerNodes.toList := by
  have pairs := ketsOk.mp ok
  clear ok
  generalize g.innerNodes.toList = ns at pairs ⊢
  induction pairs with
  | nil => rfl
  | cons here _ ih => rw [List.map_cons, ih, here.1]

theorem memKets {g : Graph ℝ} {kets : List (Int × Ket ℝ)} (ok : g.kets = .ok kets) {n : Int}
    {k : Ket ℝ} : (n, k) ∈ kets ↔
      n ∈ g.innerNodes ∧ ∃ basis, g.bases.get? n = some basis ∧ basis.vector = .ok k := by
  constructor
  · intro mem
    obtain ⟨_, inner, rfl, based⟩ := Result.memSource (ketsOk.mp ok) mem
    exact ⟨inner, based⟩
  · intro given
    obtain ⟨inner, basis, found, vector⟩ := given
    rw [NodeSet.memDef, ← ketsNodes ok] at inner
    obtain ⟨⟨m, l⟩, mem, rfl⟩ := List.mem_map.mp inner
    obtain ⟨_, _, rfl, basis', found', vector'⟩ := Result.memSource (ketsOk.mp ok) mem
    rw [found] at found'
    cases found'
    rw [vector] at vector'
    cases vector'
    exact mem

def plusNodes {R : Type} [Scalar R] (g : Graph R) : NodeSet := g.nodes.diff g.inputNodes

@[simp] theorem memPlusNodes {R : Type} [Scalar R] {g : Graph R} {n : Int} :
    n ∈ g.plusNodes ↔ n ∈ g.nodes ∧ n ∉ g.inputs.keys := by
  rw [plusNodes, NodeSet.memDiff, memInputNodes]

noncomputable def resource (g : Graph ℝ) : Operator :=
  inTurn (g.edges.map fun e => entangle e.1 e.2) *
    (inTurn (g.plusNodes.toList.map prepare) * load g.inputs)

noncomputable def carry (g : Graph ℝ) : Except Fault Operator := do
  return read g.outputs * (projectAll (← g.kets) * g.resource)

theorem resourceApply {g : Graph ℝ} {ψ : State} {z : Labelling} : g.resource ψ z =
    (√2 : ℂ)⁻¹ ^ g.plusNodes.size * phase g.edges z * load g.inputs ψ z := by
  have apart : ∀ n ∈ g.plusNodes.toList, n ∉ g.inputs.keys := by
    intro n mem
    exact (memPlusNodes.mp mem).2
  rw [resource, Module.End.mul_apply, Module.End.mul_apply, entangleAll, prepareAll (loadBlind apart)]
  simp only [Pi.smul_apply, smul_eq_mul, NodeSet.size]
  ring

end Graph
end OneWay
