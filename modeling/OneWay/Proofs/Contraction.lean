import Mathlib.Data.List.GetD
import Mathlib.Data.List.Nodup
import Mathlib.Data.List.Perm.Basic
import Mathlib.Data.List.Sort
import OneWay.Register.Basic

/-! Operators on axes. An operator is multiplied with axes that are brought forward for it, and the axes
are then put back by sorting; this is the operator acting on every axis where it stands. -/
namespace OneWay

section Places
variable {α β : Type} [DecidableEq α] [DecidableEq β] {f : α → β} {l : List α} {a : α}

theorem sameMapped {b : α} (apart : f b = f a → b = a) : (f b == f a) = (b == a) :=
  Bool.eq_iff_iff.mpr (by simpa using ⟨apart, congrArg f⟩)

theorem placeMapped (apart : ∀ b ∈ l, f b = f a → b = a) : (l.map f).idxOf (f a) = l.idxOf a := by
  induction l with
  | nil => rfl
  | cons first rest ih =>
    obtain ⟨own, apart⟩ := List.forall_mem_cons.mp apart
    rw [List.map_cons, List.idxOf_cons, List.idxOf_cons, sameMapped own, ih apart]

theorem foundMapped (apart : ∀ b ∈ l, f b = f a → b = a) : (l.map f).idxOf? (f a) = l.idxOf? a := by
  induction l with
  | nil => rfl
  | cons first rest ih =>
    obtain ⟨own, apart⟩ := List.forall_mem_cons.mp apart
    rw [List.map_cons, List.idxOf?_cons, List.idxOf?_cons, sameMapped own, ih apart]

end Places

namespace Tensor

section Keys
variable {κ : Type} {ks : List κ} {k : κ} {x : κ → Bool}

def placeOn (ks : List κ) (x : κ → Bool) : Nat := placeOf ks.length fun i => (ks.map x).getD i false

theorem placeOnOne : placeOn [k] x = (x k).toNat := by
  simp [placeOn, placeOf, List.range_succ]

theorem placeOnMap {ι : Type} {f : ι → κ} {is : List ι} : placeOn (is.map f) x = placeOn is (x ∘ f) := by
  rw [placeOn, placeOn, List.length_map, List.map_map]

theorem placeOnSame {y : κ → Bool} (same : ∀ k ∈ ks, x k = y k) : placeOn ks x = placeOn ks y := by
  rw [placeOn, placeOn, List.map_congr_left same]

variable [DecidableEq κ]

theorem withBitsPlace : withBits ks (placeOn ks x) x = x := by
  funext k
  unfold withBits
  split
  · rename_i i found
    obtain ⟨inside, here, _⟩ := List.idxOf?_eq_some_iff.mp found
    rw [placeOn, labelPlace inside, List.getD_eq_getElem _ _ (by simpa using inside), List.getElem_map, here]
  · rfl

theorem withBitsOne {b : Bool} : withBits [k] b.toNat x = Function.update x k b := by
  funext other
  unfold withBits
  by_cases here : k = other
  · subst here
    rw [Function.update_self]
    cases b <;> simp [List.idxOf?_cons, labelAt]
  · rw [Function.update_of_ne (Ne.symm here)]
    simp [List.idxOf?_cons, here]

end Keys

variable {R : Type} {t s : Tensor R} {axes : List Nat} {place n : Nat} {x y : Label}

theorem ext (axes : t.axes = s.axes) (amps : t.amps = s.amps) : t = s := by
  obtain ⟨_, _, _⟩ := t
  obtain ⟨_, _, _⟩ := s
  cases axes
  cases amps
  rfl

theorem ofToList : ofList t.toList = .ok t := by
  have length : t.toList.length = Nat.pow 2 t.axes := by
    rw [toList, Array.length_toList, t.size_amps]
  have axes : t.toList.length.log2 = t.axes := by
    rw [length]
    exact Nat.log2_two_pow
  rw [ofList, dif_pos (by rw [axes, length])]
  exact congrArg _ (ext axes (by simp [toList]))

variable [Scalar R]

theorem getCongr (same : ∀ axis < t.axes, x axis = y axis) : t.get x = t.get y := by
  rw [get, get, placeCongr same]

theorem ofGet : ofFn t.axes t.get = t := by
  refine ext rfl (Array.ext (by simpa [ofFn] using t.size_amps.symm) fun k _ inside => ?_)
  have below : k < Nat.pow 2 t.axes := t.size_amps ▸ inside
  simp [ofFn, get, placeLabel below, inside]

theorem eqOfGet (axes : t.axes = s.axes) (same : ∀ x, t.get x = s.get x) : t = s := by
  rw [← ofGet (t := t), ← ofGet (t := s), axes, funext same]

def act (t : Tensor R) (op : Matrix R) (axes : List Nat) : Tensor R :=
  let width := Nat.pow 2 axes.length
  ofFn t.axes fun x =>
    let row := placeOn axes x * width
    Matrix.sum ((List.range width).map fun y =>
      op.entries.getD (row + y) 0 * t.get (withBits axes y x))

theorem withBitsCongr (same : ∀ axis < n, x axis = y axis) :
    ∀ axis < n, withBits axes place x axis = withBits axes place y axis := by
  intro axis inside
  unfold withBits
  split
  · rfl
  · exact same axis inside

theorem getAct {op : Matrix R} (inside : ∀ axis ∈ axes, axis < t.axes) : (t.act op axes).get x =
    Matrix.sum ((List.range (Nat.pow 2 axes.length)).map fun place =>
      op.entries.getD (placeOn axes x * Nat.pow 2 axes.length + place) 0 *
        t.get (withBits axes place x)) := by
  refine getOfFn fun y same => ?_
  simp only [placeOnSame fun axis mem => same axis (inside axis mem), getCongr (withBitsCongr same)]

def relabel (t : Tensor R) (move : Nat → Nat) : Tensor R := ofFn t.axes fun x => t.get (x ∘ move)

variable {move : Nat → Nat}

theorem getRelabel (into : ∀ i < t.axes, move i < t.axes) : (t.relabel move).get x = t.get (x ∘ move) :=
  getOfFn fun _ same => getCongr fun i inside => same _ (into i inside)

theorem relabelSame (fixed : ∀ i < t.axes, move i = i) : t.relabel move = t := by
  have same (x : Label) : t.get (x ∘ move) = t.get x := getCongr fun i inside => congrArg x (fixed i inside)
  rw [relabel, funext same, ofGet]

theorem relabelCongr {other : Nat → Nat} (same : ∀ i < t.axes, move i = other i) :
    t.relabel move = t.relabel other := by
  have labels (x : Label) : t.get (x ∘ move) = t.get (x ∘ other) :=
    getCongr fun i inside => congrArg x (same i inside)
  rw [relabel, relabel, funext labels]

theorem relabelAct {op : Matrix R} (into : ∀ i < t.axes, move i < t.axes)
    (inj : ∀ i < t.axes, ∀ j < t.axes, move i = move j → i = j)
    (inside : ∀ axis ∈ axes, axis < t.axes) :
    (t.act op axes).relabel move = (t.relabel move).act op (axes.map move) := by
  refine eqOfGet rfl fun x => ?_
  have moved : ∀ axis ∈ axes.map move, axis < (t.relabel move).axes :=
    List.forall_mem_map.mpr fun axis mem => into axis (inside axis mem)
  have bits (place : Nat) :
      t.get (withBits (axes.map move) place x ∘ move) = t.get (withBits axes place (x ∘ move)) := by
    refine getCongr fun axis here => ?_
    have found := foundMapped fun other mem => inj other (inside other mem) axis here
    simp only [Function.comp_apply, withBits, found, List.length_map]
  rw [getRelabel (t := t.act op axes) into, getAct inside, getAct moved, placeOnMap, List.length_map]
  simp only [getRelabel into, bits]

end Tensor

def Arranged (n : Nat) (p : List Nat) : Prop := p.Perm (List.range n)

namespace Arranged
variable {n i a : Nat} {p : List Nat}

theorem length (all : Arranged n p) : p.length = n := by
  rw [List.Perm.length_eq all, List.length_range]

theorem nodup (all : Arranged n p) : p.Nodup := (List.Perm.nodup_iff all).mpr List.nodup_range

theorem mem (all : Arranged n p) : a ∈ p ↔ a < n := by
  rw [List.Perm.mem_iff all, List.mem_range]

theorem atPlace (all : Arranged n p) (inside : a < n) : p.getD (p.idxOf a) 0 = a := by
  have here := List.idxOf_lt_length_iff.mpr (all.mem.mpr inside)
  rw [List.getD_eq_getElem _ _ here, List.getElem_idxOf]

theorem placeLt (all : Arranged n p) (inside : a < n) : p.idxOf a < n :=
  lt_of_lt_of_eq (List.idxOf_lt_length_iff.mpr (all.mem.mpr inside)) all.length

theorem atLt (all : Arranged n p) (inside : i < n) : p.getD i 0 < n := by
  have here : i < p.length := lt_of_lt_of_eq inside all.length.symm
  rw [List.getD_eq_getElem _ _ here]
  exact all.mem.mp (List.getElem_mem here)

theorem placeAt (all : Arranged n p) (inside : i < n) : p.idxOf (p.getD i 0) = i := by
  have here : i < p.length := lt_of_lt_of_eq inside all.length.symm
  rw [List.getD_eq_getElem _ _ here]
  exact all.nodup.idxOf_getElem i here

theorem places (all : Arranged n p) : Arranged n ((List.range n).map p.idxOf) := by
  refine (List.perm_ext_iff_of_nodup ?_ List.nodup_range).mpr fun i => ?_
  · refine List.nodup_range.map_on fun a first b second same => ?_
    rw [← all.atPlace (List.mem_range.mp first), same, all.atPlace (List.mem_range.mp second)]
  · rw [List.mem_map, List.mem_range]
    constructor
    · rintro ⟨a, inside, rfl⟩
      exact all.placeLt (List.mem_range.mp inside)
    · intro inside
      exact ⟨_, List.mem_range.mpr (all.atLt inside), all.placeAt inside⟩

/- Sorted by value, the places are those of the numbers in turn: the inverse arrangement. -/
theorem sorted (all : Arranged n p) : Tensor.placesByValue p = (List.range n).map p.idxOf := by
  have order (i j : Nat) : decide (p.getD i 0 ≤ p.getD j 0) = true ↔ p.getD i 0 ≤ p.getD j 0 :=
    decide_eq_true_iff
  have found : (Tensor.placesByValue p).Pairwise fun i j => p.getD i 0 ≤ p.getD j 0 := by
    refine (List.pairwise_mergeSort (fun i j k first second => ?_) (fun i j => ?_) _).imp
      fun below => (order _ _).mp below
    · exact (order _ _).mpr (le_trans ((order _ _).mp first) ((order _ _).mp second))
    · simpa using le_total _ _
  have listed : ((List.range n).map p.idxOf).Pairwise fun i j => p.getD i 0 ≤ p.getD j 0 := by
    refine List.pairwise_map.mpr (List.Pairwise.imp_of_mem (fun {a b} first second below => ?_)
      List.pairwise_le_range)
    rwa [all.atPlace (List.mem_range.mp first), all.atPlace (List.mem_range.mp second)]
  have perm : (Tensor.placesByValue p).Perm ((List.range n).map p.idxOf) := by
    refine (List.mergeSort_perm _ _).trans ?_
    rw [all.length]
    exact List.Perm.symm all.places
  refine List.Perm.eq_of_pairwise (fun i j first second below above => ?_) found listed perm
  have first := all.places.mem.mp (perm.mem_iff.mp first)
  have second := all.places.mem.mp second
  rw [← all.placeAt first, le_antisymm below above, all.placeAt second]

theorem idxOfPlaces (all : Arranged n p) (inside : i < n) :
    ((List.range n).map p.idxOf).idxOf i = p.getD i 0 := by
  have held : ((List.range n).map p.idxOf).getD (p.getD i 0) 0 = i := by
    rw [List.getD_eq_getElem?_getD, List.getElem?_map, List.getElem?_range (all.atLt inside),
      Option.map_some, Option.getD_some, all.placeAt inside]
  have back := all.places.placeAt (all.atLt inside)
  rwa [held] at back

end Arranged

namespace Tensor
variable {n k : Nat} {axes p : List Nat}

theorem memOthers {a : Nat} : a ∈ others n axes ↔ a < n ∧ a ∉ axes := by
  simp [others]

theorem forwardArranged (inside : ∀ axis ∈ axes, axis < n) (once : axes.Nodup) :
    Arranged n (forward n axes) := by
  refine (List.perm_ext_iff_of_nodup ?_ List.nodup_range).mpr fun a => ?_
  · exact once.append (List.nodup_range.filter _) fun a listed other => (memOthers.mp other).2 listed
  · rw [forward, List.mem_append, memOthers, List.mem_range]
    constructor
    · rintro (listed | other)
      · exact inside a listed
      · exact other.1
    · intro below
      by_cases listed : a ∈ axes
      · exact .inl listed
      · exact .inr ⟨below, listed⟩

theorem forwardFirst {i : Nat} (early : i < axes.length) : (forward n axes).getD i 0 = axes.getD i 0 := by
  rw [forward, List.getD_append _ _ _ _ early]

theorem placeForwardOther {a : Nat} (other : a ∉ axes) :
    (forward n axes).idxOf a = axes.length + (others n axes).idxOf a := by
  rw [forward, List.idxOf_append_of_notMem other]

theorem mapForward (once : axes.Nodup) : axes.map (forward n axes).idxOf = List.range axes.length := by
  refine List.ext_getElem (by simp) fun i inside _ => ?_
  have here : i < axes.length := by simpa using inside
  rw [List.getElem_map, List.getElem_range]
  exact (List.idxOf_append_of_mem (List.getElem_mem here)).trans (once.idxOf_getElem i here)

theorem forwardRange (few : k ≤ n) : forward n (List.range k) = List.range n := by
  obtain ⟨rest, rfl⟩ := Nat.exists_eq_add_of_le few
  have early : (List.range k).filter (fun a => decide (a ∉ List.range k)) = [] :=
    List.filter_eq_nil_iff.mpr fun a mem => by simpa using mem
  have late : ((List.range rest).map (k + ·)).filter (fun a => decide (a ∉ List.range k)) =
      (List.range rest).map (k + ·) := by
    refine List.filter_eq_self.mpr (List.forall_mem_map.mpr fun a _ => ?_)
    simp
  rw [forward, others, List.range_add, List.filter_append, early, late, List.nil_append]

variable {R : Type} [Scalar R] {t : Tensor R} {op : Matrix R} {x : Label}

theorem placeNat {a : Nat} : (p.map Int.ofNat).idxOf (a : Int) = p.idxOf a :=
  placeMapped fun _ _ => Int.ofNat.inj

theorem transposeAxes {s : Tensor R} {order : List Int} (run : t.transpose order = .ok s) :
    s.axes = t.axes := by
  unfold transpose at run
  split at run
  · cases run
    rfl
  · cases run

theorem transposeArranged (all : Arranged t.axes p) :
    t.transpose (p.map Int.ofNat) = .ok (t.relabel p.idxOf) := by
  have whole : isPermutation t.axes (p.map Int.ofNat) = true := by
    rw [isPermutation, List.length_map, all.length, beq_self_eq_true, Bool.true_and, List.all_eq_true]
    intro a inside
    exact decide_eq_true (List.mem_map_of_mem (all.mem.mpr (List.mem_range.mp inside)))
  rw [transpose, if_pos whole]
  simp only [placeNat]
  rfl

theorem transposeBack (all : Arranged t.axes p) :
    t.transpose ((placesByValue p).map Int.ofNat) = .ok (t.relabel fun i => p.getD i 0) := by
  rw [all.sorted, transposeArranged all.places]
  exact congrArg _ (relabelCongr fun i inside => all.idxOfPlaces inside)

theorem lengthLe (inside : ∀ axis ∈ axes, axis < n) (once : axes.Nodup) : axes.length ≤ n := by
  have := (forwardArranged inside once).length
  rw [forward, List.length_append] at this
  omega

theorem getContract (inside : ∀ axis ∈ axes, axis < t.axes) (once : axes.Nodup) :
    (t.contract op axes).get x =
      Matrix.sum ((List.range (Nat.pow 2 axes.length)).map fun place =>
        op.entries.getD (placeOf axes.length x * Nat.pow 2 axes.length + place) 0 *
          t.get (withBits axes place fun a => x (axes.length + (others t.axes axes).idxOf a))) := by
  refine getOfFn fun y same => ?_
  have row : placeOf axes.length y = placeOf axes.length x :=
    placeCongr fun i early => same i (lt_of_lt_of_le early (lengthLe inside once))
  have read (place : Nat) :
      t.get (withBits axes place fun a => y (axes.length + (others t.axes axes).idxOf a)) =
        t.get (withBits axes place fun a => x (axes.length + (others t.axes axes).idxOf a)) := by
    refine getCongr fun a below => ?_
    unfold withBits
    split
    · rfl
    · rename_i other
      have place := (forwardArranged inside once).placeLt below
      rw [placeForwardOther (List.idxOf?_eq_none_iff.mp other)] at place
      exact same _ place
  simp only [row, read]

theorem relabelContract (inside : ∀ axis ∈ axes, axis < t.axes) (once : axes.Nodup) :
    (t.contract op axes).relabel (fun i => (forward t.axes axes).getD i 0) = t.act op axes := by
  have all := forwardArranged inside once
  refine eqOfGet rfl fun x => ?_
  have row : placeOf axes.length (x ∘ fun i => (forward t.axes axes).getD i 0) = placeOn axes x :=
    placeCongr fun i early => by
      rw [Function.comp_apply, forwardFirst early]
      simp [early]
  have read (place : Nat) : t.get (withBits axes place fun a =>
      (x ∘ fun i => (forward t.axes axes).getD i 0) (axes.length + (others t.axes axes).idxOf a)) =
        t.get (withBits axes place x) := by
    refine getCongr fun a below => ?_
    unfold withBits
    split
    · rfl
    · rename_i other
      have place := placeForwardOther (n := t.axes) (List.idxOf?_eq_none_iff.mp other)
      exact congrArg x ((congrArg (List.getD _ · 0) place.symm).trans (all.atPlace below))
  rw [getRelabel (t := t.contract op axes) fun i => all.atLt, getContract inside once, getAct inside, row]
  simp only [read]

theorem contractBack (inside : ∀ axis ∈ axes, axis < t.axes) (once : axes.Nodup) :
    (t.contract op axes).transpose ((placesByValue (forward t.axes axes)).map Int.ofNat) =
      .ok (t.act op axes) := by
  have all : Arranged (t.contract op axes).axes (forward t.axes axes) := forwardArranged inside once
  rw [transposeBack all, relabelContract inside once]

theorem contractForward (inside : ∀ axis ∈ axes, axis < t.axes) (once : axes.Nodup) :
    (t.relabel (forward t.axes axes).idxOf).contract op (List.range axes.length) =
      (t.act op axes).relabel (forward t.axes axes).idxOf := by
  have all := forwardArranged inside once
  have few : axes.length ≤ t.axes := lengthLe inside once
  have front : ∀ a ∈ List.range axes.length, a < (t.relabel (forward t.axes axes).idxOf).axes :=
    fun a mem => lt_of_lt_of_le (List.mem_range.mp mem) few
  have stays : (t.relabel (forward t.axes axes).idxOf).contract op (List.range axes.length) =
      (t.relabel (forward t.axes axes).idxOf).act op (List.range axes.length) := by
    rw [← relabelContract front List.nodup_range]
    refine (relabelSame fun i below => ?_).symm
    rw [show (t.relabel (forward t.axes axes).idxOf).axes = t.axes from rfl, forwardRange few]
    have below : i < t.axes := below
    simp [List.getD_eq_getElem?_getD, below]
  have inj : ∀ i < t.axes, ∀ j < t.axes,
      (forward t.axes axes).idxOf i = (forward t.axes axes).idxOf j → i = j := fun i first j second same => by
    rw [← all.atPlace first, same, all.atPlace second]
  rw [stays, relabelAct (fun i => all.placeLt) inj inside, mapForward once]

end Tensor
end OneWay
