import Mathlib.Algebra.BigOperators.Group.Finset.Basic
import Mathlib.Tactic.LinearCombination
import OneWay.Proofs.State

/-! Operators that differ by X on some nodes, Z on some nodes and a factor. The relation composes, it
survives projections, and a graph's resource stands in it to itself for every set of nodes that are no
inputs and the set of their odd neighbours. -/
namespace OneWay
open ComplexConjugate

namespace Labelling
variable {s : Finset Int} {a b w : Labelling} {n : Int}

def turn (w a : Labelling) : Labelling := fun n => xor (w n) (a n)

def blank : Labelling := fun _ => false

def of (s : NodeSet) : Labelling := fun n => decide (n ∈ s)

theorem turnTurn : (w.turn a).turn b = w.turn (b.turn a) := by
  funext n
  simp only [turn]
  cases w n <;> cases a n <;> cases b n <;> rfl

@[simp] theorem turnBlank : w.turn blank = w := by
  funext n
  simp [turn, blank]

theorem turnUpdate {bit : Bool} : turn (Function.update w n bit) a =
    Function.update (w.turn (Function.update a n false)) n (xor bit (a n)) := by
  funext m
  by_cases here : m = n
  · subst here
    simp [turn]
  · simp [turn, here]

def character (s : Finset Int) (a w : Labelling) : ℂ := ∏ n ∈ s, sign (a n && w n)

theorem characterTurn : character s a (w.turn b) = character s a w * character s a b := by
  unfold character turn
  rw [← Finset.prod_mul_distrib]
  refine Finset.prod_congr rfl fun n _ => ?_
  rw [Bool.and_xor_distrib_left, signXor]

theorem characterJoin : character s (a.turn b) w = character s a w * character s b w := by
  unfold character turn
  rw [← Finset.prod_mul_distrib]
  refine Finset.prod_congr rfl fun n _ => ?_
  rw [Bool.and_xor_distrib_right, signXor]

theorem characterSelf : character s a w * character s a w = 1 := by
  unfold character
  rw [← Finset.prod_mul_distrib]
  exact Finset.prod_eq_one fun n _ => signSelf

theorem characterNeZero : character s a w ≠ 0 := by
  intro none
  have one := characterSelf (s := s) (a := a) (w := w)
  rw [none, zero_mul] at one
  exact zero_ne_one one

@[simp] theorem characterBlank : character s blank w = 1 := by
  unfold character blank
  exact Finset.prod_eq_one fun n _ => by simp

theorem characterUpdate {bit : Bool} (mem : n ∈ s) : character s a (Function.update w n bit) =
    sign (a n && bit) * character s (Function.update a n false) w := by
  unfold character
  rw [← Finset.mul_prod_erase s _ mem, ← Finset.mul_prod_erase s (fun m => sign (_ && w m)) mem]
  rw [Function.update_self, Function.update_self, Bool.false_and, signFalse, one_mul]
  congr 1
  refine Finset.prod_congr rfl fun m other => ?_
  have apart : m ≠ n := (Finset.mem_erase.mp other).1
  rw [Function.update_of_ne apart, Function.update_of_ne apart]

end Labelling

def Ket.pauli {R : Type} [Scalar R] (x z : Bool) (k : Ket R) : Ket R :=
  let turned := if z then ⟨k.zero, -k.one⟩ else k
  if x then ⟨turned.one, turned.zero⟩ else turned

namespace Operator
open Labelling
variable {s : Finset Int} {x z x' z' : Labelling} {u v t : Operator} {n : Int} {k : Ket ℝ}

noncomputable def pauli (n : Int) (x z : Bool) : Operator :=
  (if x then act Gate.xMatrix [n] else 1) * (if z then act Gate.zMatrix [n] else 1)

theorem xApply {φ : State} {w : Labelling} :
    act Gate.xMatrix [n] φ w = φ (Function.update w n !w n) := by
  rw [actOne]
  cases w n <;> simp [Gate.xMatrix, Matrix.entry, Matrix.ofRows]

theorem zApply {φ : State} {w : Labelling} : act Gate.zMatrix [n] φ w = sign (w n) * φ w := by
  have self : Function.update w n (w n) = w := Function.update_eq_self n w
  rw [actOne]
  cases bit : w n <;> rw [bit] at self <;> simp [Gate.zMatrix, Matrix.entry, Matrix.ofRows, self]

theorem pauliApply {x z : Bool} {φ : State} {w : Labelling} : pauli n x z φ w =
    sign (z && xor (w n) x) * φ (Function.update w n (xor (w n) x)) := by
  cases x <;> cases z <;> simp [pauli, xApply, zApply]

/- Up to a factor the second operator is the first with Xs and Zs after it. -/
def Related (s : Finset Int) (x z : Labelling) (u v : Operator) : Prop :=
  ∃ c : ℂ, c ≠ 0 ∧ ∀ ψ w, v ψ w = c * character s z w * u ψ (w.turn x)

theorem relatedSelf : Related s blank blank u u :=
  ⟨1, one_ne_zero, fun ψ w => by simp⟩

theorem Related.scalar (related : Related s blank blank u v) : ∃ c : ℂ, c ≠ 0 ∧ v = c • u := by
  obtain ⟨c, some, same⟩ := related
  refine ⟨c, some, LinearMap.ext fun ψ => funext fun w => ?_⟩
  rw [same, characterBlank, turnBlank, mul_one]
  rfl

theorem Related.trans (first : Related s x z u v) (second : Related s x' z' v t) :
    Related s (x.turn x') (z.turn z') u t := by
  obtain ⟨c, some, same⟩ := first
  obtain ⟨c', some', same'⟩ := second
  refine ⟨c' * c * character s z x', mul_ne_zero (mul_ne_zero some' some) characterNeZero, ?_⟩
  intro ψ w
  rw [same', same, turnTurn, characterTurn, characterJoin]
  ring

theorem Related.project (related : Related s x z u v) (mem : n ∈ s) : Related s
    (Function.update x n false) (Function.update z n false) (project n k * u)
    (project n (k.pauli (x n) (z n)) * v) := by
  obtain ⟨c, some, same⟩ := related
  refine ⟨c * sign (z n && x n), mul_ne_zero some signNeZero, ?_⟩
  intro ψ w
  simp only [Module.End.mul_apply, projectApply, same, characterUpdate mem, turnUpdate]
  cases x n <;> cases z n <;> simp [Ket.pauli] <;> ring

theorem Related.correct (related : Related s x z u v) (mem : n ∈ s) : Related s
    (Function.update x n false) (Function.update z n false) u (pauli n (x n) (z n) * v) := by
  obtain ⟨c, some, same⟩ := related
  refine ⟨c, some, ?_⟩
  intro ψ w
  have back : Function.update (w.turn (Function.update x n false)) n (xor (xor (w n) (x n)) (x n)) =
      w.turn (Function.update x n false) := by
    have bit : xor (xor (w n) (x n)) (x n) = w.turn (Function.update x n false) n := by
      simp [turn]
    rw [bit, Function.update_eq_self]
  rw [Module.End.mul_apply, pauliApply, same, characterUpdate mem, turnUpdate, back]
  have twice := signSelf (b := z n && xor (w n) (x n))
  linear_combination (c * character s (Function.update z n false) w *
    u ψ (w.turn (Function.update x n false))) * twice

end Operator

namespace Graph
open Labelling Operator
variable {R : Type} [Scalar R] {g : Graph R} {a n : Int} {w : Labelling}

def support (g : Graph R) : Finset Int := g.nodes.toList.toFinset

theorem memSupport : n ∈ g.support ↔ n ∈ g.nodes := by
  rw [support, List.mem_toFinset, ← NodeSet.memDef]

def touch (a : Int) (w : Labelling) (e : Int × Int) : ℂ :=
  if e.1 = a then sign (w e.2) else if e.2 = a then sign (w e.1) else 1

theorem edgeTurn {e : Int × Int} (apart : e.1 ≠ e.2) :
    sign (w.turn (of (.singleton a)) e.1 && w.turn (of (.singleton a)) e.2) =
      touch a w e * sign (w e.1 && w e.2) := by
  have away : ∀ m, m ≠ a → w.turn (of (.singleton a)) m = w m := by
    intro m other
    simp [turn, of, other]
  have here : w.turn (of (.singleton a)) a = !w a := by
    simp [turn, of]
  unfold touch
  by_cases first : e.1 = a
  · have second : e.2 ≠ a := fun same => apart (first.trans same.symm)
    rw [if_pos first, first, here, away _ second]
    cases w a <;> cases w e.2 <;> simp
  · by_cases second : e.2 = a
    · rw [if_neg first, if_pos second, second, here, away _ first]
      cases w a <;> cases w e.1 <;> simp
    · rw [if_neg first, if_neg second, away _ first, away _ second, one_mul]

def edgeTo (a b : Int) : Int × Int := (min a b, max a b)

theorem touchEdgeTo {b : Int} (apart : b ≠ a) : touch a w (edgeTo a b) = sign (w b) := by
  unfold touch edgeTo
  rcases lt_or_gt_of_ne apart with below | below
  · rw [min_eq_right below.le, max_eq_left below.le, if_neg apart, if_pos rfl]
  · rw [min_eq_left below.le, max_eq_right below.le, if_pos rfl]

theorem edgeToInj {b c : Int} (same : edgeTo a b = edgeTo a c) : b = c := by
  obtain ⟨low, high⟩ := Prod.mk.inj same
  omega

theorem Sound.edgeToMem (sound : g.Sound) {b : Int} (near : b ∈ g.adjacent a) :
    edgeTo a b ∈ g.edges := by
  have apart : b ≠ a := fun same => sound.loopless a (same ▸ near)
  unfold edgeTo
  rcases lt_or_gt_of_ne apart with below | below
  · rw [min_eq_right below.le, max_eq_left below.le]
    exact memEdges.mpr ⟨sound.joined a b near, below⟩
  · rw [min_eq_left below.le, max_eq_right below.le]
    exact memEdges.mpr ⟨near, below⟩

theorem Sound.touchElsewhere (sound : g.Sound) {e : Int × Int} (mem : e ∈ g.edges)
    (other : ∀ b ∈ g.adjacent a, edgeTo a b ≠ e) : touch a w e = 1 := by
  obtain ⟨near, below⟩ := memEdges.mp mem
  unfold touch
  by_cases first : e.1 = a
  · refine absurd ?_ (other e.2 (first ▸ near))
    rw [edgeTo, ← first, min_eq_left below.le, max_eq_right below.le]
  · by_cases second : e.2 = a
    · refine absurd ?_ (other e.1 (second ▸ sound.joined e.1 e.2 near))
      rw [edgeTo, ← second, min_eq_right below.le, max_eq_left below.le]
    · rw [if_neg first, if_neg second]

theorem Sound.touchAll (sound : g.Sound) :
    (g.edges.map (touch a w)).prod = character g.support (of (g.adjacent a)) w := by
  have edges : (g.edges.map (touch a w)).prod = ∏ e ∈ g.edges.toFinset, touch a w e :=
    (List.prod_toFinset _ edgesNodup).symm
  have touched : ((g.adjacent a).toList.toFinset.image (edgeTo a)) ⊆ g.edges.toFinset := by
    intro e mem
    obtain ⟨b, near, rfl⟩ := Finset.mem_image.mp mem
    exact List.mem_toFinset.mpr (sound.edgeToMem (List.mem_toFinset.mp near))
  have inside : (g.adjacent a).toList.toFinset ⊆ g.support := by
    intro b near
    exact memSupport.mpr (sound.neighborThere (List.mem_toFinset.mp near))
  rw [edges, ← Finset.prod_subset touched, Finset.prod_image fun b _ c _ same => edgeToInj same, character,
    ← Finset.prod_subset inside]
  · refine Finset.prod_congr rfl fun b mem => ?_
    have near : b ∈ g.adjacent a := List.mem_toFinset.mp mem
    have apart : b ≠ a := fun same => sound.loopless a (same ▸ near)
    rw [touchEdgeTo apart]
    simp [of, near]
  · intro b _ outside
    have away : b ∉ g.adjacent a := fun near => outside (List.mem_toFinset.mpr near)
    simp [of, away]
  · intro e mem outside
    refine sound.touchElsewhere (List.mem_toFinset.mp mem) fun b near same => ?_
    exact outside (Finset.mem_image.mpr ⟨b, List.mem_toFinset.mpr near, same⟩)

theorem Sound.phaseTurn (sound : g.Sound) : phase g.edges (w.turn (of (.singleton a))) =
    character g.support (of (g.adjacent a)) w * phase g.edges w := by
  have each : (g.edges.map fun e =>
      sign (w.turn (of (.singleton a)) e.1 && w.turn (of (.singleton a)) e.2)) =
      g.edges.map fun e => touch a w e * sign (w e.1 && w e.2) := by
    refine List.map_congr_left fun e mem => edgeTurn ?_
    exact ne_of_lt (memEdges.mp mem).2
  unfold phase
  rw [each, List.prod_map_mul, sound.touchAll]

variable {h : Graph ℝ}

theorem Sound.relatedOne (sound : h.Sound) (free : a ∉ h.inputs.keys) :
    Related h.support (of (.singleton a)) (of (h.adjacent a)) h.resource h.resource := by
  have flip : ∀ w : Labelling, w.turn (of (.singleton a)) = Function.update w a (!w a) := by
    intro w
    funext m
    by_cases here : m = a
    · subst here
      simp [turn, of]
    · simp [turn, of, here]
  refine ⟨1, one_ne_zero, fun ψ w => ?_⟩
  have blind : load h.inputs ψ (w.turn (of (.singleton a))) = load h.inputs ψ w := by
    have apart : ∀ n ∈ [a], n ∉ h.inputs.keys := by
      intro n mem
      rw [List.mem_singleton.mp mem]
      exact free
    rw [flip]
    exact loadBlind apart a (by simp) w _
  have twice := characterSelf (s := h.support) (a := of (h.adjacent a)) (w := w)
  rw [resourceApply, resourceApply, sound.phaseTurn, blind]
  linear_combination -((√2 : ℂ)⁻¹ ^ h.plusNodes.size * phase h.edges w * load h.inputs ψ w) * twice

theorem Sound.relatedFold (sound : h.Sound) {ns : List Int} {x : Labelling} {acc odd : NodeSet}
    (ok : ns.foldlM (fun odd n => do return odd.symmDiff (← h.neighbors n)) acc = .ok odd)
    (free : ∀ n ∈ ns, n ∉ h.inputs.keys) (once : ns.Nodup)
    (related : Related h.support x (of acc) h.resource h.resource) :
    Related h.support (x.turn fun n => decide (n ∈ ns)) (of odd) h.resource h.resource := by
  induction ns generalizing x acc with
  | nil =>
    cases ok
    have same : (x.turn fun n => decide (n ∈ ([] : List Int))) = x := by
      funext n
      simp [turn]
    rw [same]
    exact related
  | cons a rest ih =>
    obtain ⟨new, once⟩ := List.nodup_cons.mp once
    simp only [List.foldlM_cons, Result.bindOk, Result.pureOk, sound.neighborsOk] at ok
    obtain ⟨_, ⟨_, ⟨_, rfl⟩, rfl⟩, ok⟩ := ok
    have joined := related.trans (sound.relatedOne (free a (by simp)))
    have sets : (of acc).turn (of (h.adjacent a)) = of (acc.symmDiff (h.adjacent a)) := by
      funext n
      by_cases old : n ∈ acc <;> by_cases near : n ∈ h.adjacent a <;> simp [turn, of, old, near]
    rw [sets] at joined
    have later := ih ok (fun n mem => free n (by simp [mem])) once joined
    have masks : (x.turn (of (.singleton a))).turn (fun n => decide (n ∈ rest)) =
        x.turn fun n => decide (n ∈ a :: rest) := by
      funext n
      by_cases here : n = a
      · simp [turn, of, here, new]
      · simp [turn, of, here]
    rw [masks] at later
    exact later

theorem Sound.relatedOdd (sound : h.Sound) {s odd : NodeSet} (ok : h.oddNeighbors s = .ok odd)
    (free : ∀ n ∈ s, n ∉ h.inputs.keys) :
    Related h.support (of s) (of odd) h.resource h.resource := by
  have none : of ∅ = blank := by
    funext n
    simp [of, blank]
  have start : Related h.support blank (of ∅) h.resource h.resource := none ▸ relatedSelf
  have all := sound.relatedFold ok free s.nodup start
  have mask : (blank.turn fun n => decide (n ∈ s.toList)) = of s := by
    funext n
    simp [turn, blank, of, NodeSet.memDef]
  rw [mask] at all
  exact all

end Graph
end OneWay
