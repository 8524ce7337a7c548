/-!
# Whole numbers in settings

A whole number is written with an optional sign and at least one digit, and has to fit its range.
-/

namespace TradePlan.Text

def digitsValue? (cs : List Char) : Option Nat :=
  if cs = [] ∨ !cs.all Char.isDigit then none else some (Nat.ofDigitChars 10 cs 0)

/-- Reads a count from 0 to `limit`.  A plus sign may stand in front. -/
def readCount? (limit : Nat) (text : String) : Option Nat :=
  let digits :=
    match text.toList with
    | '+' :: cs => cs
    | cs => cs
  (digitsValue? digits).filter fun n => decide (n ≤ limit)

/-- Reads a whole number that fits in 64 bits.  A sign may stand in front. -/
def readInteger? (text : String) : Option Int :=
  let value? : Option Int :=
    match text.toList with
    | '-' :: cs => (digitsValue? cs).map fun n => -(n : Int)
    | '+' :: cs => (digitsValue? cs).map fun n => (n : Int)
    | cs => (digitsValue? cs).map fun n => (n : Int)
  value?.filter fun n => decide (-0x8000000000000000 ≤ n ∧ n < 0x8000000000000000)

end TradePlan.Text
