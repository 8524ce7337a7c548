import TradePlan.Json.Escape
import TradePlan.Json.Value

/-!
# Writing JSON

Values are written over several lines: each item of an array and each member of an object on a line
of its own, indented by two spaces for each level.  An array or object with nothing in it stays on
one line.
-/

namespace TradePlan.Json

/-- A line end, and the blanks in front of the next line. -/
def newLine (level : Nat) : List Char := '\n' :: List.replicate (2 * level) ' '

/-- A string; one without a text is written as the empty string. -/
def writeString (text : Option String) : List Char := quoted (text.getD "").toList

/-- Pieces on lines of their own, with a comma between them. -/
def joinLines (level : Nat) : List (List Char) → List Char
  | [] => []
  | [piece] => newLine level ++ piece
  | piece :: pieces => newLine level ++ piece ++ ',' :: joinLines level pieces

/-- Pieces between brackets, on lines of their own if there are any. -/
def block (opening closing : Char) (level : Nat) : List (List Char) → List Char
  | [] => [opening, closing]
  | pieces => opening :: (joinLines (level + 1) pieces ++ newLine level ++ [closing])

mutual

/-- The characters of a value at a level of indentation. -/
def write (level : Nat) : Json → List Char
  | .null => "null".toList
  | .bool true => "true".toList
  | .bool false => "false".toList
  | .number literal => literal
  | .string text => writeString text
  | .array items => block '[' ']' level (writeItems (level + 1) items)
  | .object members => block '\x7b' '\x7d' level (writeMembers (level + 1) members)

def writeItems (level : Nat) : List Json → List (List Char)
  | [] => []
  | item :: items => write level item :: writeItems level items

def writeMember (level : Nat) : Option String × Json → List Char
  | (key, value) => writeString key ++ ':' :: ' ' :: write level value

def writeMembers (level : Nat) : List (Option String × Json) → List (List Char)
  | [] => []
  | member :: members => writeMember level member :: writeMembers level members

end

def text (value : Json) : String := String.ofList (write 0 value)

end TradePlan.Json
