import OneWay.Fault
import OneWay.Ket
import OneWay.Number.Matrix

/-! Amplitudes of several qubits, one axis each. A label says for every axis which of its two values is
meant; axis 0 is the most significant bit of the place where an amplitude is stored. -/
namespace OneWay

structure Tensor (R : Type) where
  axes : Nat
  amps : Array (Amplitude R)
  size_amps : amps.size = Nat.pow 2 axes

namespace Tensor
variable {R : Type} [Scalar R]

abbrev Label := Nat → Bool

def labelAt (n place : Nat) : Label := fun axis => place.testBit (n - 1 - axis)

def placeOf (n : Nat) (x : Label) : Nat :=
  (List.range n).foldl (fun place axis => 2 * place + (x axis).toNat) 0

theorem placeSucc {n : Nat} {x : Label} : placeOf (n + 1) x = 2 * placeOf n x + (x n).toNat := by
  simp [placeOf, List.range_succ]

theorem placeCongr {n : Nat} {x y : Label} (same : ∀ axis < n, x axis = y axis) :
    placeOf n x = placeOf n y := by
  induction n with
  | zero => rfl
  | succ n ih =>
    rw [placeSucc, placeSucc, ih fun axis h => same axis (by omega), same n (by omega)]

theorem placeLt {n : Nat} {x : Label} : placeOf n x < Nat.pow 2 n := by
  induction n with
  | zero => simp [placeOf]
  | succ n ih =>
    have := Bool.toNat_lt (x n)
    have double : Nat.pow 2 (n + 1) = Nat.pow 2 n * 2 := rfl
    rw [placeSucc]
    omega

theorem labelSucc {n place axis : Nat} (h : axis < n) :
    labelAt (n + 1) place axis = labelAt n (place / 2) axis := by
  have : n + 1 - 1 - axis = (n - 1 - axis) + 1 := by omega
  rw [labelAt, labelAt, this, Nat.testBit_succ]

theorem labelPlace {n : Nat} {x : Label} {axis : Nat} (h : axis < n) :
    labelAt n (placeOf n x) axis = x axis := by
  induction n with
  | zero => omega
  | succ n ih =>
    rw [placeSucc]
    have bit := Bool.toNat_lt (x n)
    by_cases last : axis = n
    · subst last
      cases b : x axis <;> simp [labelAt, Nat.testBit_zero]
    · have half : (2 * placeOf n x + (x n).toNat) / 2 = placeOf n x := by omega
      rw [labelSucc (by omega), half, ih (by omega)]

theorem placeLabel {n place : Nat} (h : place < Nat.pow 2 n) : placeOf n (labelAt n place) = place := by
  induction n generalizing place with
  | zero =>
    have none : place = 0 := Nat.lt_one_iff.mp h
    simp [placeOf, none]
  | succ n ih =>
    have double : Nat.pow 2 (n + 1) = Nat.pow 2 n * 2 := rfl
    rw [placeSucc, placeCongr (y := labelAt n (place / 2)) fun axis h => labelSucc h,
      ih (by omega)]
    have : (labelAt (n + 1) place n).toNat = place % 2 := by
      rcases Nat.mod_two_eq_zero_or_one place with e | e <;>
        simp [labelAt, Nat.testBit_zero, e]
    omega

def ofFn (n : Nat) (f : Label → Amplitude R) : Tensor R :=
  ⟨n, Array.ofFn fun place : Fin (Nat.pow 2 n) => f (labelAt n place), by simp⟩

def get (t : Tensor R) (x : Label) : Amplitude R := t.amps.getD (placeOf t.axes x) 0

theorem getOfFn {n : Nat} {f : Label → Amplitude R} {x : Label}
    (own : ∀ y, (∀ axis < n, y axis = x axis) → f y = f x) : (ofFn n f).get x = f x := by
  have inside : placeOf n x < (Array.ofFn fun place : Fin (Nat.pow 2 n) => f (labelAt n place)).size := by
    simpa using placeLt
  rw [get, ofFn, Array.getD, dif_pos inside]
  simpa using own _ fun axis h => labelPlace h

def toList (t : Tensor R) : List (Amplitude R) := t.amps.toList

def ofList (amps : List (Amplitude R)) : Except Fault (Tensor R) :=
  let n := amps.length.log2
  if h : amps.length = Nat.pow 2 n then .ok ⟨n, amps.toArray, by simpa using h⟩
  else .error .sizeNotPowerOfTwo

def divideBy (c : Amplitude R) (t : Tensor R) : Tensor R :=
  ⟨t.axes, t.amps.map (· / c), by simpa using t.size_amps⟩

def length (t : Tensor R) : R := norm t.toList

def normalize (t : Tensor R) : Tensor R := t.divideBy (.ofReal t.length)

def withBits {κ : Type} [DecidableEq κ] (ks : List κ) (place : Nat) (x : κ → Bool) : κ → Bool := fun k =>
  match ks.idxOf? k with
  | some i => labelAt ks.length place i
  | none => x k

def others (n : Nat) (axes : List Nat) : List Nat := (List.range n).filter fun axis => decide (axis ∉ axes)

def forward (n : Nat) (axes : List Nat) : List Nat := axes ++ others n axes

def contract (t : Tensor R) (op : Matrix R) (axes : List Nat) : Tensor R :=
  let width := Nat.pow 2 axes.length
  let rest := others t.axes axes
  ofFn t.axes fun x =>
    let row := placeOf axes.length x * width
    Matrix.sum ((List.range width).map fun y =>
      op.entries.getD (row + y) 0 *
        t.get (withBits axes y fun axis => x (axes.length + rest.idxOf axis)))

def placesByValue (xs : List Nat) : List Nat :=
  (List.range xs.length).mergeSort fun i j => decide (xs.getD i 0 ≤ xs.getD j 0)

def insertAxis (axis : Nat) (b : Bool) (x : Label) : Label := fun i =>
  if i < axis then x i else if i = axis then b else x (i - 1)

def project (t : Tensor R) (axis : Nat) (v : Ket R) : Tensor R :=
  ofFn (t.axes - 1) fun x =>
    v.zero.conj * t.get (insertAxis axis false x) + v.one.conj * t.get (insertAxis axis true x)

def extend (t : Tensor R) (count : Nat) : Tensor R :=
  let factor : Amplitude R := .ofReal (Scalar.sqrt (Scalar.ofNat (Nat.pow 2 count)))
  ofFn (t.axes + count) fun x => t.get x / factor

def isPermutation (n : Nat) (axes : List Int) : Bool :=
  axes.length == n && (List.range n).all fun (i : Nat) => decide ((i : Int) ∈ axes)

def transpose (t : Tensor R) (axes : List Int) : Except Fault (Tensor R) :=
  if isPermutation t.axes axes then
    .ok (ofFn t.axes fun x => t.get fun axis => x (axes.idxOf (axis : Int)))
  else .error .wrongShape

/-- The product of two tensors. Axes are matched from the last backwards, and of two that are matched
the one of the left factor comes first; axes that are left over come before all pairs. -/
def interleave (a b : Tensor R) : Tensor R :=
  let freeA := a.axes - b.axes
  let freeB := b.axes - a.axes
  let free := freeA + freeB
  ofFn (a.axes + b.axes) fun x =>
    a.get (fun i => x (if i < freeA then i else free + 2 * (i - freeA))) *
      b.get fun i => x (if i < freeB then i else free + 2 * (i - freeB) + 1)

def inner (a b : Tensor R) : Amplitude R :=
  Matrix.sum ((a.toList.zip b.toList).map fun p => p.1.conj * p.2)

end Tensor
end OneWay
