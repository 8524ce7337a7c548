import TradePlan.Decimal.Shortest

/-!
# Writing a number

The digits of a number are laid out around a point, or in front of a power of ten when the point
would be far from them.  A `Layout` fixes the few choices that the texts of the program make
differently; `fixed` writes a given number of decimal places.
-/

namespace TradePlan.Decimal

/-- How a number is written.  `wholeMark` writes `.0` after a whole number, `window` is the range
of point positions written without a power of ten (every one, if there is no window), and `tie`
says which of two equally near shortest decimals is meant. -/
structure Layout where
  wholeMark : Bool
  window : Option (Int × Int)
  tie : Tie

/-- Whether a point after `point` digits is written out. -/
def Layout.positional (layout : Layout) (point : Int) : Bool :=
  match layout.window with
  | none => true
  | some (low, high) => decide (low ≤ point ∧ point ≤ high)

/-- Digits with the point after `point` of them, padded with zeros as needed. -/
def Layout.placed (layout : Layout) (digits : List Char) (point : Int) : List Char :=
  if point ≤ 0 then
    '0' :: '.' :: (List.replicate (-point).toNat '0' ++ digits)
  else if digits.length ≤ point.toNat then
    digits ++ List.replicate (point.toNat - digits.length) '0'
      ++ (if layout.wholeMark then ['.', '0'] else [])
  else
    digits.take point.toNat ++ '.' :: digits.drop point.toNat

/-- The decimal digits of an integer, after its sign. -/
def intDigits (k : Int) : List Char :=
  if k < 0 then '-' :: Nat.toDigits 10 k.natAbs else Nat.toDigits 10 k.natAbs

/-- One digit before the point, and the power of ten that puts the point in its place. -/
def scientific (digits : List Char) (point : Int) : List Char :=
  let leading := digits.take 1
  let others := digits.drop 1
  leading ++ (if others = [] then [] else '.' :: others) ++ 'e' :: intDigits (point - 1)

def Layout.decimal (layout : Layout) (d : Decimal) : List Char :=
  let digits := Nat.toDigits 10 d.digits
  let point := (digits.length : Int) + d.exponent
  if layout.positional point then layout.placed digits point else scientific digits point

def withSign (negative : Bool) (cs : List Char) : List Char :=
  if negative then '-' :: cs else cs

/-- The characters of a double: its shortest decimal, or the word for what is no decimal. -/
def Layout.chars (layout : Layout) (x : Float) : List Char :=
  match Binary.ofFloat x with
  | .nan => "NaN".toList
  | .infinite negative => withSign negative "inf".toList
  | .finite negative mantissa exponent =>
    withSign negative (layout.decimal (shortest layout.tie mantissa exponent))

def Layout.text (layout : Layout) (x : Float) : String :=
  String.ofList (layout.chars x)

/-- Numbers in messages and tables: all digits around the point, and no mark on whole numbers. -/
def plainLayout : Layout where
  wholeMark := false
  window := none
  tie := .up

def plain (x : Float) : String := plainLayout.text x

/-- The characters of a number with exactly `places` digits after the point, a half going to the
even neighbour. -/
def fixedChars (places : Nat) (x : Float) : List Char :=
  match Binary.ofFloat x with
  | .nan => "NaN".toList
  | .infinite negative => withSign negative "inf".toList
  | .finite negative mantissa exponent =>
    let units := divHalfEven (mantissa * power 10 places * power 2 exponent) (power 2 (-exponent))
    let digits := Nat.toDigits 10 units
    let padded := List.replicate (places + 1 - digits.length) '0' ++ digits
    let whole := padded.length - places
    withSign negative (padded.take whole
      ++ (if places = 0 then [] else '.' :: padded.drop whole))

/-- The text of a number with a fixed count of decimal places. -/
def fixed (places : Nat) (x : Float) : String := String.ofList (fixedChars places x)

end TradePlan.Decimal
