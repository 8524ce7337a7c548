import TradePlan.Formula.Error
import TradePlan.Decimal.Reading
import TradePlan.Text.Blank
import TradePlan.Text.Bytes
import TradePlan.Text.Case

/-!
# Tokens

A formula is read as numbers, names, operators, parentheses and commas.  A number is the longest
run of digits and points, a name the longest run of letters, digits and underscores after a letter
or an underscore; blanks may stand between tokens, and any other character is an error.
-/

namespace TradePlan

/-- A token of a formula.  Names are in small letters. -/
inductive Token where
  | number (value : Float)
  | identifier (name : String)
  | operator (op : Operator)
  | leftParen
  | rightParen
  | comma
deriving DecidableEq

namespace Token

/-! ## Character classes -/

def isNumberChar (c : Char) : Bool := c.isDigit || c == '.'

def isNameStart (c : Char) : Bool := c.isAlpha || c == '_'

def isNameChar (c : Char) : Bool := c.isAlphanum || c == '_'

theorem isNumberChar_iff {c : Char} : isNumberChar c = true ↔ c.isDigit = true ∨ c = '.' := by
  rw [isNumberChar, Bool.or_eq_true, beq_iff_eq]

theorem isNameStart_iff {c : Char} : isNameStart c = true ↔ c.isAlpha = true ∨ c = '_' := by
  rw [isNameStart, Bool.or_eq_true, beq_iff_eq]

theorem isNameChar_iff {c : Char} : isNameChar c = true ↔ c.isAlphanum = true ∨ c = '_' := by
  rw [isNameChar, Bool.or_eq_true, beq_iff_eq]

/-- The token that a character writes alone. -/
def ofSymbol? : Char → Option Token
  | '(' => some leftParen
  | ')' => some rightParen
  | ',' => some comma
  | c => (Operator.ofSymbol? c).map operator

/-! ## Reading -/

/-- Reads the tokens of a text whose first character is at byte `position`. -/
def readFrom (position : Nat) : List Char → Except FormulaError (List Token)
  | [] => .ok []
  | c :: cs =>
    if Text.isBlank c then readFrom (position + c.utf8Size) cs
    else if isNumberChar c then
      let lexeme := c :: cs.takeWhile isNumberChar
      match Decimal.readChars lexeme with
      | .error _ => .error (.badNumber (String.ofList lexeme) position)
      | .ok value => do
        let rest ← readFrom (position + Text.byteLength lexeme) (cs.dropWhile isNumberChar)
        return number value :: rest
    else if isNameStart c then do
      let lexeme := c :: cs.takeWhile isNameChar
      let rest ← readFrom (position + Text.byteLength lexeme) (cs.dropWhile isNameChar)
      return identifier (Text.foldCase (String.ofList lexeme)) :: rest
    else
      match ofSymbol? c with
      | some token => do
        let rest ← readFrom (position + c.utf8Size) cs
        return token :: rest
      | none => .error (.illegalCharacter c position)
termination_by cs => cs.length
decreasing_by
  all_goals
    simp only [List.length_cons]
    try have := (List.dropWhile_sublist isNumberChar (l := cs)).length_le
    try have := (List.dropWhile_sublist isNameChar (l := cs)).length_le
    omega

def readAll (formula : String) : Except FormulaError (List Token) :=
  readFrom 0 formula.toList

end Token

end TradePlan
