import Mathlib.Algebra.Group.Nat.Defs

namespace LuxKernel.Formats

-- A double by its bit pattern, as IEEE 754 lays it out.
@[ext] structure Binary64 where
  bits : UInt64
deriving DecidableEq, Repr

namespace Binary64

def negative (x : Binary64) : Bool := decide (2 ^ 63 ≤ x.bits.toNat)

def exponent (x : Binary64) : Nat := x.bits.toNat / 2 ^ 52 % 2 ^ 11

def mantissa (x : Binary64) : Nat := x.bits.toNat % 2 ^ 52

def isNaN (x : Binary64) : Bool := decide (x.exponent = 2047) && decide (x.mantissa ≠ 0)

-- The absolute value in units of `2 ^ -1074`. The same formula puts the infinities
-- above all finite numbers.
def magnitude (x : Binary64) : Nat :=
  if x.exponent = 0 then x.mantissa else (2 ^ 52 + x.mantissa) * 2 ^ (x.exponent - 1)

def scaled (x : Binary64) : Int := if x.negative then -x.magnitude else x.magnitude

-- Every comparison with a NaN is false.
instance : LE Binary64 where
  le x y := x.isNaN = false ∧ y.isNaN = false ∧ x.scaled ≤ y.scaled

instance : LT Binary64 where
  lt x y := x.isNaN = false ∧ y.isNaN = false ∧ x.scaled < y.scaled

instance (x y : Binary64) : Decidable (x ≤ y) :=
  inferInstanceAs (Decidable (x.isNaN = false ∧ y.isNaN = false ∧ x.scaled ≤ y.scaled))

instance (x y : Binary64) : Decidable (x < y) :=
  inferInstanceAs (Decidable (x.isNaN = false ∧ y.isNaN = false ∧ x.scaled < y.scaled))

def zero : Binary64 := ⟨0⟩

def one : Binary64 := ⟨0x3ff0000000000000⟩

def nan : Binary64 := ⟨0x7ff8000000000000⟩

variable {x y : Binary64}

theorem not_isNaN_right (h : x ≤ y) : y.isNaN = false := h.2.1

-- A test that a number is too small lets a NaN through.
theorem not_lt_iff (hy : y.isNaN = false) : ¬x < y ↔ x.isNaN = true ∨ y ≤ x := by
  show ¬(x.isNaN = false ∧ y.isNaN = false ∧ x.scaled < y.scaled) ↔
    x.isNaN = true ∨ (y.isNaN = false ∧ x.isNaN = false ∧ y.scaled ≤ x.scaled)
  cases x.isNaN with
  | true => simp
  | false => simp [hy]

end Binary64

end LuxKernel.Formats
