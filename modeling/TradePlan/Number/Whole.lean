import TradePlan.Number.Binary

/-!
# Whole numbers and remainders of doubles

Rounding to a whole number, down, up or to the nearest, and the remainder of a division that
truncates.  Both are exact: a whole number near a double is a double, and so is a remainder.
-/

namespace TradePlan

/-- The direction in which a fraction is rounded away. -/
inductive WholeRule where
  | down
  | up
  | nearestEven
deriving DecidableEq

/-- The whole magnitude for `num / den` with the given sign: rounding down a negative number
makes its magnitude larger. -/
def WholeRule.magnitude (rule : WholeRule) (negative : Bool) (num den : Nat) : Nat :=
  let below := num / den
  let above := (num + (den - 1)) / den
  match rule with
  | .down => if negative then above else below
  | .up => if negative then below else above
  | .nearestEven => divHalfEven num den

/-- Rounds to a whole number.  The sign stays, also on a zero; what is not finite stays as it is. -/
def WholeRule.round (rule : WholeRule) (x : Float) : Float :=
  match Binary.ofFloat x with
  | .nan => x
  | .infinite _ => x
  | .finite negative mantissa exponent =>
    if 0 ≤ exponent then x
    else signed negative (nearest (rule.magnitude negative mantissa (power 2 (-exponent))) 1)

/-- The remainder of `x / y` with the quotient truncated, so it has the sign of `x`.  There is
none of an infinity or by a zero, and by an infinity it is `x` itself. -/
def remainder (x y : Float) : Float :=
  match Binary.ofFloat x, Binary.ofFloat y with
  | .finite negative m e, .finite _ n f =>
    if n = 0 then 0.0 / 0.0
    else
      let low := min e f
      let rest := m * power 2 (e - low) % (n * power 2 (f - low))
      signed negative (nearest (rest * power 2 low) (power 2 (-low)))
  | .finite _ _ _, .infinite _ => x
  | _, _ => 0.0 / 0.0

end TradePlan
