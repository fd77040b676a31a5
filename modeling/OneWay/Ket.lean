import OneWay.Number.Amplitude

/-! States of one qubit, not necessarily of length one. -/
namespace OneWay

structure Ket (R : Type) where
  zero : Amplitude R
  one : Amplitude R
  deriving DecidableEq, Repr

namespace Ket
variable {R : Type}

def toList (k : Ket R) : List (Amplitude R) := [k.zero, k.one]

def component (k : Ket R) (bit : Bool) : Amplitude R := if bit then k.one else k.zero

def conj [Scalar R] (k : Ket R) : Ket R := ⟨k.zero.conj, k.one.conj⟩

end Ket
end OneWay
