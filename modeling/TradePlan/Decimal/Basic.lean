import TradePlan.Number.Binary

/-!
# Decimal numbers

A decimal is a whole number of units of a power of ten.  `Decimal.toFloat` is the double nearest
to it.
-/

namespace TradePlan

/-- The number `digits · 10 ^ exponent`. -/
structure Decimal where
  digits : Nat
  exponent : Int
deriving DecidableEq

/-- The double nearest to a decimal.  Two shortcuts keep the powers of ten small: `10 ^ 311` is
beyond every double, and `10 ^ -k` is at most `2 ^ (-3 · k)`, so a decimal below `2 ^ -1080` is
nearest to zero. -/
def Decimal.toFloat (d : Decimal) : Float :=
  if d.digits = 0 then 0.0
  else if 310 < d.exponent then 1.0 / 0.0
  else if (d.digits.log2 : Int) + 1 + 3 * d.exponent < -1080 ∧ d.exponent < 0 then 0.0
  else nearest (d.digits * power 10 d.exponent) (power 10 (-d.exponent))

end TradePlan
