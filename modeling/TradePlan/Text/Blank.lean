import TradePlan.Text.Ranges
import TradePlan.Text.Search

/-!
# Blank characters

The characters with the Unicode property `White_Space`, and the two ways in which texts are freed
of them: `trim` at the ends, and `words` everywhere.
-/

namespace TradePlan.Text

/-- The ranges of the property `White_Space`. -/
def blankRanges : List (Nat × Nat) :=
  [(0x9, 0xD), (0x20, 0x20), (0x85, 0x85), (0xA0, 0xA0), (0x1680, 0x1680), (0x2000, 0x200A),
    (0x2028, 0x2029), (0x202F, 0x202F), (0x205F, 0x205F), (0x3000, 0x3000)]

/-- Whether a character has the property `White_Space`. -/
def isBlank (c : Char) : Bool := isWithin blankRanges c

def trimLeft (cs : List Char) : List Char := cs.dropWhile isBlank

def trimRight (cs : List Char) : List Char := (cs.reverse.dropWhile isBlank).reverse

def trimChars (cs : List Char) : List Char := trimRight (trimLeft cs)

/-- A text without the blanks around it. -/
def trim (text : String) : String := String.ofList (trimChars text.toList)

def isBlankText (text : String) : Bool := text.toList.all isBlank

/-- The runs of characters between blanks. -/
def words (cs : List Char) : List (List Char) := (piecesAt isBlank cs).filter (· ≠ [])

end TradePlan.Text
