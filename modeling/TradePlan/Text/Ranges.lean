/-!
# Ranges of characters

A property of characters is given by the ranges of the characters that have it.
-/

namespace TradePlan.Text

/-- Whether a character lies in one of some ranges, given by their first and last characters. -/
def isWithin (ranges : List (Nat × Nat)) (c : Char) : Bool :=
  ranges.any fun (first, last) => decide (first ≤ c.toNat ∧ c.toNat ≤ last)

theorem isWithin_iff (ranges : List (Nat × Nat)) (c : Char) :
    isWithin ranges c = true ↔ ∃ range ∈ ranges, range.1 ≤ c.toNat ∧ c.toNat ≤ range.2 := by
  simp [isWithin]

end TradePlan.Text
