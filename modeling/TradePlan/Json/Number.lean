import TradePlan.Decimal.Reading

/-!
# JSON numbers

A number is written with an optional minus, digits without a leading zero, an optional fraction and
an optional power of ten.  Its value is computed from the digits that fit a count of 64 bits and one
multiplication or division by a power of ten, so it may differ from the nearest double in the last
place.
-/

namespace TradePlan.Json

structure NumberParts where
  negative : Bool
  whole : List Char
  fraction : List Char
  /-- Whether the power is negative, and its digits. -/
  power : Option (Bool × List Char)
deriving DecidableEq

/-! ## Grammar -/

/-- Reads the digits before the point: a zero alone, or digits that do not begin with zero. -/
def readWhole (cs : List Char) : Option (List Char × List Char) :=
  match Decimal.spanDigits cs with
  | ([], _) => none
  | ('0' :: _ :: _, _) => none
  | (digits, rest) => some (digits, rest)

/-- Reads a fraction, if there is a point. -/
def readFraction : List Char → Option (List Char × List Char)
  | '.' :: cs =>
    match Decimal.spanDigits cs with
    | ([], _) => none
    | (digits, rest) => some (digits, rest)
  | cs => some ([], cs)

/-- Reads a power of ten, if there is one. -/
def readPower : List Char → Option (Option (Bool × List Char) × List Char)
  | c :: cs =>
    if c = 'e' ∨ c = 'E' then
      let (negative, cs) := Decimal.splitSign cs
      match Decimal.spanDigits cs with
      | ([], _) => none
      | (digits, rest) => some (some (negative, digits), rest)
    else some (none, c :: cs)
  | [] => some (none, [])

def readNumber (cs : List Char) : Option (NumberParts × List Char) := do
  let (negative, cs) := match cs with | '-' :: cs => (true, cs) | cs => (false, cs)
  let (whole, cs) ← readWhole cs
  let (fraction, cs) ← readFraction cs
  let (power, cs) ← readPower cs
  return (⟨negative, whole, fraction, power⟩, cs)

/-! ## Value -/

/-- The largest count of 64 bits. -/
def maxDigits : Nat := 0xffffffffffffffff

/-- Appends digits to a count as long as it stays in 64 bits; the rest of the digits remains. -/
def appendDigits (count : Nat) : List Char → Nat × List Char
  | [] => (count, [])
  | c :: cs =>
    let next := count * 10 + (c.toNat - '0'.toNat)
    if maxDigits < next then (count, c :: cs) else appendDigits next cs

/-- Multiplies by a power of ten from `-308` to `308`. -/
def scaleOnce (x : Float) (power : Int) : Float :=
  if 0 ≤ power then x * Decimal.toFloat ⟨1, power⟩ else x / Decimal.toFloat ⟨1, -power⟩

/-- Multiplies by a power of ten, in steps of `-308` if it is below that.  A result beyond all
doubles is none. -/
def scale? (x : Float) (power : Int) : Option Float :=
  if power < -308 then
    if x == 0 then some x else scale? (x / 1e308) (power + 308)
  else if 308 < power then
    if x == 0 then some x else none
  else
    let y := scaleOnce x power
    if 0 ≤ power ∧ !y.isFinite then none else some y
termination_by (-power).toNat
decreasing_by omega

def maxPower : Int := 0x7fffffff

def minPower : Int := -0x80000000

/-- The magnitude of a number.  There is none if it is beyond all doubles. -/
def NumberParts.magnitude? (parts : NumberParts) : Option Float :=
  let (count, unread) := appendDigits 0 parts.whole
  let (digits, dropped) := appendDigits count parts.fraction
  let shift : Int := (unread.length : Int) - ((parts.fraction.length - dropped.length : Nat) : Int)
  let significand := (UInt64.ofNat digits).toFloat
  match parts.power with
  | none => scale? significand shift
  | some (negative, powerDigits) =>
    let power : Int := Nat.ofDigitChars 10 powerDigits 0
    if maxPower < power then
      if digits ≠ 0 ∧ !negative then none else some 0
    else
      let total := if negative then shift - power else shift + power
      scale? significand (max minPower (min maxPower total))

def NumberParts.toFloat? (parts : NumberParts) : Option Float :=
  parts.magnitude?.map (signed parts.negative)

/-- The value of a number as it is written. -/
def numberValue? (literal : List Char) : Option Float :=
  match readNumber literal with
  | some (parts, []) => parts.toFloat?
  | _ => none

end TradePlan.Json
