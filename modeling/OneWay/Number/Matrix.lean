import OneWay.Fault
import OneWay.Number.Amplitude

/-! Matrices of amplitudes, stored row after row. -/
namespace OneWay

structure Matrix (R : Type) where
  rows : Nat
  cols : Nat
  entries : Array (Amplitude R)
  deriving DecidableEq, Repr

namespace Matrix
variable {R : Type} [Scalar R]

def entry (m : Matrix R) (i j : Nat) : Amplitude R := m.entries.getD (i * m.cols + j) 0

def ofFn (rows cols : Nat) (f : Nat → Nat → Amplitude R) : Matrix R :=
  ⟨rows, cols, Array.ofFn fun k : Fin (rows * cols) => f (k / cols) (k % cols)⟩

theorem entryOfFn {rows cols i j : Nat} {f : Nat → Nat → Amplitude R} (row : i < rows)
    (col : j < cols) : (ofFn rows cols f).entry i j = f i j := by
  have inside : i * cols + j < rows * cols := by
    calc i * cols + j < i * cols + cols := by omega
      _ = (i + 1) * cols := by rw [Nat.succ_mul]
      _ ≤ rows * cols := Nat.mul_le_mul_right _ row
  have div : (i * cols + j) / cols = i := by
    rw [Nat.mul_comm, Nat.mul_add_div (by omega), Nat.div_eq_of_lt col, Nat.add_zero]
  have rem : (i * cols + j) % cols = j := by
    rw [Nat.mul_comm, Nat.mul_add_mod, Nat.mod_eq_of_lt col]
  simp [entry, ofFn, Array.getD, inside, div, rem]

def ofRows (rows : List (List (Amplitude R))) : Matrix R :=
  ⟨rows.length, (rows.head?.map List.length).getD 0, rows.flatten.toArray⟩

def toRows (m : Matrix R) : List (List (Amplitude R)) :=
  (List.range m.rows).map fun i => (List.range m.cols).map fun j => m.entry i j

def map (f : Amplitude R → Amplitude R) (m : Matrix R) : Matrix R :=
  ⟨m.rows, m.cols, m.entries.map f⟩

def identity (n : Nat) : Matrix R := ofFn n n fun i j => if i = j then 1 else 0

def diagonal (values : List (Amplitude R)) : Matrix R :=
  ofFn values.length values.length fun i j => if i = j then values.getD i 0 else 0

def adjoint (m : Matrix R) : Matrix R := ofFn m.cols m.rows fun i j => (m.entry j i).conj

def sum (terms : List (Amplitude R)) : Amplitude R := terms.foldl (· + ·) 0

def mul (a b : Matrix R) : Matrix R :=
  ofFn a.rows b.cols fun i j => sum ((List.range a.cols).map fun k => a.entry i k * b.entry k j)

instance : Mul (Matrix R) := ⟨mul⟩

def mulVec (m : Matrix R) (v : List (Amplitude R)) : List (Amplitude R) :=
  (List.range m.rows).map fun i =>
    sum ((List.range m.cols).map fun k => m.entry i k * v.getD k 0)

def expand (m : Matrix R) : Nat → List Nat → Amplitude R
  | _, [] => 1
  | 0, _ => 0
  | n + 1, cols =>
      sum (cols.mapIdx fun k col =>
        let term := m.entry (m.rows - (n + 1)) col * m.expand n (cols.filter (· != col))
        if k % 2 = 0 then term else -term)

def det (m : Matrix R) : Amplitude R := m.expand m.rows (List.range m.cols)

def stretch (a b : Nat) : Option Nat :=
  if a = b then some a else if a = 1 then some b else if b = 1 then some a else none

/-- Whether two matrices agree entry by entry up to the tolerances. A single row or column stands
for as many copies as the other matrix needs; `none` if the shapes do not fit even so. -/
def near? (a b : Matrix R) : Option Bool := do
  let rows ← stretch a.rows b.rows
  let cols ← stretch a.cols b.cols
  let cell (m : Matrix R) (i j : Nat) : Amplitude R :=
    m.entry (if m.rows = 1 then 0 else i) (if m.cols = 1 then 0 else j)
  some ((List.range rows).all fun i =>
    (List.range cols).all fun j => (cell a i j).near (cell b i j))

/-- Whether a matrix times its conjugate transpose is the identity. Without a row there is no width
to compare the height with. -/
def isUnitary (m : Matrix R) : Except Fault Bool :=
  if m.rows = 0 then .error .indexOutOfRange
  else .ok (m.rows == m.cols && (near? (identity m.rows) (m * m.adjoint)).getD false)

def isHermitian? (m : Matrix R) : Option Bool := near? m m.adjoint

end Matrix
end OneWay
