import Mathlib

/-!
# Floating Point Operations Without Laws

A controller that compares measured rates and latencies does so in floating point. None of the
results about such a controller depends on what the comparisons say, so the operations are a
class with no laws at all: **every** outcome of every comparison is covered. A controller that
needs a law adds it to the class where it is used.
-/

namespace AuxStorage

/-- The operations of a floating point type. -/
class FloatOps (F : Type) where
  /-- The value of an integer. -/
  ofNat : ℕ → F
  /-- The constant with the given digits, of which the last `decimals` are behind the point. -/
  ofDecimal (digits decimals : ℕ) : F
  /-- The negative of a value. -/
  neg : F → F
  infinity : F
  add : F → F → F
  sub : F → F → F
  mul : F → F → F
  div : F → F → F
  min : F → F → F
  max : F → F → F
  /-- The value limited to the range between the second and the third. -/
  clamp : F → F → F → F
  /-- The integral part, as an unsigned integer. -/
  floor : F → ℕ
  lt : F → F → Bool
  le : F → F → Bool
  beq : F → F → Bool
  /-- The total order of the bit patterns. -/
  totalCmp : F → F → Ordering

/-- Rational arithmetic, with zero for the infinite value. -/
instance FloatOps.rat : FloatOps ℚ where
  ofNat n := n
  ofDecimal digits decimals := digits / 10 ^ decimals
  neg x := -x
  infinity := 0
  add := (· + ·)
  sub := (· - ·)
  mul := (· * ·)
  div := (· / ·)
  min := Min.min
  max := Max.max
  clamp x low high := Max.max low (Min.min x high)
  floor x := ⌊x⌋₊
  lt x y := decide (x < y)
  le x y := decide (x ≤ y)
  beq x y := decide (x = y)
  totalCmp := compare

end AuxStorage
