/-!
# Powers

Numbers of the form `digits · base ^ exponent`, with an exponent of either sign, are handled as
quotients of whole numbers: `digits · power base exponent / power base (-exponent)`.
-/

namespace TradePlan

/-- The power `base ^ exponent`, or one if the exponent is negative. -/
def power (base : Nat) (exponent : Int) : Nat := Nat.pow base exponent.toNat

theorem power_pos {base : Nat} (h : 0 < base) (exponent : Int) : 0 < power base exponent :=
  Nat.pow_pos h

theorem power_of_nonpos {base : Nat} {exponent : Int} (h : exponent ≤ 0) :
    power base exponent = 1 := by
  simp [power, Int.toNat_of_nonpos h]

end TradePlan
