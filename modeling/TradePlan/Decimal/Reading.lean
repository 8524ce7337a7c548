import TradePlan.Decimal.Basic

/-!
# Reading a number

A number is written with an optional sign, digits with at most one point among them and at least
one digit, and an optional power of ten.  The words `inf`, `infinity` and `nan` are read in any
letter case.  The result is the nearest double.
-/

namespace TradePlan.Decimal

/-- Why a text is not a number. -/
inductive ReadFault where
  | empty
  | invalid
deriving DecidableEq

def ReadFault.message : ReadFault → String
  | .empty => "cannot parse float from empty string"
  | .invalid => "invalid float literal"

/-- The digits at the front of a text, and the rest. -/
def spanDigits (cs : List Char) : List Char × List Char :=
  (cs.takeWhile Char.isDigit, cs.dropWhile Char.isDigit)

/-- Splits off one sign; `true` stands for a minus. -/
def splitSign : List Char → Bool × List Char
  | '-' :: cs => (true, cs)
  | '+' :: cs => (false, cs)
  | cs => (false, cs)

/-- Splits off the digits after a point, if there is a point. -/
def splitFraction : List Char → List Char × List Char
  | '.' :: cs => spanDigits cs
  | cs => ([], cs)

/-- Reads a power of ten, `e` or `E` with an optional sign and at least one digit.  Nothing at all
is the power zero. -/
def readPower : List Char → Option Int
  | [] => some 0
  | c :: cs =>
    if c = 'e' ∨ c = 'E' then
      let (negative, cs) := splitSign cs
      let (digits, rest) := spanDigits cs
      if digits = [] ∨ rest ≠ [] then none
      else
        let power : Int := Nat.ofDigitChars 10 digits 0
        some (if negative then -power else power)
    else none

def readUnsigned (cs : List Char) : Option Decimal :=
  let (whole, rest) := spanDigits cs
  let (fraction, rest) := splitFraction rest
  if whole = [] ∧ fraction = [] then none
  else (readPower rest).map fun power =>
    ⟨Nat.ofDigitChars 10 (whole ++ fraction) 0, power - fraction.length⟩

/-- Reads the words for values that no digits write. -/
def readWord (cs : List Char) : Option Float :=
  let word := cs.map Char.toLower
  if word = "inf".toList ∨ word = "infinity".toList then some (1.0 / 0.0)
  else if word = "nan".toList then some (0.0 / 0.0)
  else none

def readChars (cs : List Char) : Except ReadFault Float :=
  if cs = [] then .error .empty
  else
    let (negative, rest) := splitSign cs
    match readWord rest with
    | some x => .ok (signed negative x)
    | none =>
      match readUnsigned rest with
      | some d => .ok (signed negative d.toFloat)
      | none => .error .invalid

def read (text : String) : Except ReadFault Float :=
  readChars text.toList

end TradePlan.Decimal
