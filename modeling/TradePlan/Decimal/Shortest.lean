import TradePlan.Decimal.Basic

/-!
# The shortest decimal of a double

Of the decimals that read back as a given double, the one on the coarsest grid of powers of ten is
chosen, and of two such the nearer.  On each grid only the two neighbours of the value need to be
tried, because the decimals that read back form an interval around it.
-/

namespace TradePlan.Decimal

/-- Where a tie between two equally near decimals goes. -/
inductive Tie where
  | up
  | even
deriving DecidableEq

/-- The decimal with all the digits of `mantissa · 2 ^ exponent`. -/
def allDigits (mantissa : Nat) (exponent : Int) : Decimal :=
  if 0 ≤ exponent then ⟨mantissa * power 2 exponent, 0⟩
  else ⟨mantissa * power 5 (-exponent), exponent⟩

/-- The neighbour of `num / den` among `below` and `below + 1`. -/
def Tie.choose (tie : Tie) (num den below : Nat) : Nat :=
  let rest := num - below * den
  if 2 * rest < den then below
  else if 2 * rest = den ∧ tie = .even ∧ below % 2 = 0 then below
  else below + 1

/-- The better neighbour of `mantissa · 2 ^ exponent` on the grid of `10 ^ grid` that reads back
as `x`. -/
def neighbour? (tie : Tie) (x : Float) (mantissa : Nat) (exponent grid : Int) : Option Decimal :=
  let num := mantissa * power 2 exponent * power 10 (-grid)
  let den := power 2 (-exponent) * power 10 grid
  let below : Decimal := ⟨num / den, grid⟩
  let above : Decimal := ⟨num / den + 1, grid⟩
  match decide (below.toFloat = x), decide (above.toFloat = x) with
  | true, true => some ⟨tie.choose num den (num / den), grid⟩
  | true, false => some below
  | false, true => some above
  | false, false => none

/-- Tries `count` grids, the coarsest first, and takes all digits if none has an answer. -/
def firstGrid (tie : Tie) (x : Float) (mantissa : Nat) (exponent grid : Int) : Nat → Decimal
  | 0 => allDigits mantissa exponent
  | count + 1 =>
    match neighbour? tie x mantissa exponent grid with
    | some d => d
    | none => firstGrid tie x mantissa exponent (grid - 1) count

/-- The power of ten at which the search starts, above the value: `30103 / 100000` is just over
the logarithm of two. -/
def topGrid (mantissa : Nat) (exponent : Int) : Int :=
  ((mantissa.log2 : Int) + 1 + exponent) * 30103 / 100000 + 1

/-- The shortest decimal that reads back as `mantissa · 2 ^ exponent`.  Seventeen digits always
suffice. -/
def shortest (tie : Tie) (mantissa : Nat) (exponent : Int) : Decimal :=
  if mantissa = 0 then ⟨0, 0⟩
  else
    let x := nearest (mantissa * power 2 exponent) (power 2 (-exponent))
    firstGrid tie x mantissa exponent (topGrid mantissa exponent) 25

end TradePlan.Decimal
