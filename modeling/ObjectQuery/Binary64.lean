/-!
Binary floating-point numbers of 64 bits, kept as their bits. `Binary64.equals` is the numerical
comparison: a NaN differs from every number, itself included, and the two zeros are equal.
-/
namespace ObjectQuery

structure Binary64 where
  bits : UInt64
deriving DecidableEq, Inhabited

namespace Binary64

def negative (x : Binary64) : Bool :=
  x.bits.toNat / Nat.pow 2 63 % 2 = 1

def biasedExponent (x : Binary64) : Nat :=
  x.bits.toNat / Nat.pow 2 52 % Nat.pow 2 11

def fraction (x : Binary64) : Nat :=
  x.bits.toNat % Nat.pow 2 52

def isNaN (x : Binary64) : Bool :=
  x.biasedExponent = 2047 && x.fraction ≠ 0

def isInfinite (x : Binary64) : Bool :=
  x.biasedExponent = 2047 && x.fraction = 0

def isZero (x : Binary64) : Bool :=
  x.biasedExponent = 0 && x.fraction = 0

def equals (x y : Binary64) : Bool :=
  !x.isNaN && !y.isNaN && (x = y || x.isZero && y.isZero)

theorem equals_self_iff (x : Binary64) : x.equals x = true ↔ x.isNaN = false := by
  simp [equals]

theorem equals_comm (x y : Binary64) : x.equals y = y.equals x := by
  simp only [equals, Bool.and_comm x.isZero, Bool.and_comm (!x.isNaN), eq_comm (a := x)]

/-- A quiet NaN; it stands for all of them. -/
def nan : Binary64 := ⟨0x7ff8000000000000⟩

end Binary64
end ObjectQuery
