import TradePlan.Decimal.Layout
import TradePlan.Text.Blank

/-!
# Dates

Days of the Gregorian calendar, extended to all years, with the order of time.  A date is read as a
year, a month and a day with hyphens between them; blanks may stand before each number.
-/

namespace TradePlan

/-! ## The calendar -/

def isLeapYear (year : Int) : Bool :=
  decide (year % 4 = 0 ∧ (year % 100 ≠ 0 ∨ year % 400 = 0))

def daysInMonth (year : Int) (month : Nat) : Nat :=
  if month = 2 then (if isLeapYear year then 29 else 28)
  else if month = 4 ∨ month = 6 ∨ month = 9 ∨ month = 11 then 30
  else 31

/-- Whether numbers name a day of the calendar, in a year of at most six digits that the calendar
covers. -/
def IsDay (year : Int) (month day : Nat) : Prop :=
  (-262143 ≤ year ∧ year ≤ 262142) ∧ (1 ≤ month ∧ month ≤ 12)
    ∧ (1 ≤ day ∧ day ≤ daysInMonth year month)

instance (year : Int) (month day : Nat) : Decidable (IsDay year month day) := by
  unfold IsDay; infer_instance

structure Date where
  year : Int
  month : Nat
  day : Nat
  isDay : IsDay year month day
deriving DecidableEq

namespace Date

def ofNumbers? (year : Int) (month day : Nat) : Option Date :=
  if h : IsDay year month day then some ⟨year, month, day, h⟩ else none

def le (a b : Date) : Bool :=
  decide (a.year < b.year ∨ (a.year = b.year ∧
    (a.month < b.month ∨ (a.month = b.month ∧ a.day ≤ b.day))))

/-! ## Writing -/

/-- The digits of a number, with zeros in front up to a width. -/
def padded (width n : Nat) : List Char :=
  let digits := Nat.toDigits 10 n
  List.replicate (width - digits.length) '0' ++ digits

/-- Year, month and day.  A year outside 0 to 9999 has a sign. -/
def text (d : Date) : String :=
  let sign := if d.year < 0 then ['-'] else if 9999 < d.year then ['+'] else []
  String.ofList
    (sign ++ padded 4 d.year.natAbs ++ '-' :: padded 2 d.month ++ '-' :: padded 2 d.day)

/-! ## Reading -/

/-- Why a text is no date. -/
inductive ReadFault where
  | tooShort
  | invalid
  | tooLong
  | outOfRange
deriving DecidableEq

def ReadFault.message : ReadFault → String
  | tooShort => "premature end of input"
  | invalid => "input contains invalid characters"
  | tooLong => "trailing input"
  | outOfRange => "input is out of range"

/-- Reads the digits in front of a text, at most `width` of them if there is a limit. -/
def readDigits (width : Option Nat) (cs : List Char) : Except ReadFault (Nat × List Char) :=
  let digits := (match width with | some w => cs.take w | none => cs).takeWhile Char.isDigit
  if cs = [] then .error .tooShort
  else if digits = [] then .error .invalid
  else if 0x7fffffffffffffff < Nat.ofDigitChars 10 digits 0 then .error .outOfRange
  else .ok (Nat.ofDigitChars 10 digits 0, cs.drop digits.length)

/-- Reads a year: up to four digits, or any number of them after a sign. -/
def readYear (cs : List Char) : Except ReadFault (Int × List Char) := do
  let (year, rest) ←
    match Text.trimLeft cs with
    | '-' :: cs => do
      let (n, rest) ← readDigits none cs
      pure (-(n : Int), rest)
    | '+' :: cs => do
      let (n, rest) ← readDigits none cs
      pure ((n : Int), rest)
    | cs => do
      let (n, rest) ← readDigits (some 4) cs
      pure ((n : Int), rest)
  if -0x80000000 ≤ year ∧ year < 0x80000000 then return (year, rest) else .error .outOfRange

/-- Reads a number of up to two digits from 1 to `limit`. -/
def readPart (limit : Nat) (cs : List Char) : Except ReadFault (Nat × List Char) := do
  let (n, rest) ← readDigits (some 2) (Text.trimLeft cs)
  if 1 ≤ n ∧ n ≤ limit then return (n, rest) else .error .outOfRange

def readHyphen : List Char → Except ReadFault (List Char)
  | [] => .error .tooShort
  | c :: cs => if c = '-' then .ok cs else .error .invalid

/-- Reads a date.  Whether the month has such a day is asked last. -/
def read (text : String) : Except ReadFault Date := do
  let (year, rest) ← readYear text.toList
  let rest ← readHyphen rest
  let (month, rest) ← readPart 12 rest
  let rest ← readHyphen rest
  let (day, rest) ← readPart 31 rest
  if rest ≠ [] then .error .tooLong
  else
    match ofNumbers? year month day with
    | some date => .ok date
    | none => .error .outOfRange

end Date

end TradePlan
