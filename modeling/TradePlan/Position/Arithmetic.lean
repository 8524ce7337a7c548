/-!
# Arithmetic of amounts

The operations that sizing a position takes from the numbers it works in.  They are doubles in the
program; a statement about sizes can also read them as exact rationals.
-/

namespace TradePlan

def maxShares : Nat := 0xffffffffffffffff

/-- Numbers that amounts of money and counts of shares are computed in. -/
class AmountArithmetic (α : Type) where
  zero : α
  one : α
  hundred : α
  sub : α → α → α
  mul : α → α → α
  div : α → α → α
  abs : α → α
  floor : α → α
  /-- Whether the first number is greater than the second. -/
  greater : α → α → Bool
  /-- Whether the first number is at least the second. -/
  atLeast : α → α → Bool
  /-- The number of a count of shares. -/
  ofShares : Nat → α
  /-- The count of shares of a whole number, at most the largest. -/
  toShares : α → Nat

end TradePlan
