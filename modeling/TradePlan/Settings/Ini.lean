import TradePlan.Text.Blank
import TradePlan.Text.Bytes
import TradePlan.Text.Lowercase
import TradePlan.Text.Search

/-!
# Settings files

A settings file assigns values to keys in sections.  A comment runs from a semicolon or a number
sign to the end of its line, and blanks around sections, keys and values do not count, nor does the
letter case of sections and keys.  The last assignment to a key holds.
-/

namespace TradePlan

/-- An assignment.  A key may stand without a value. -/
structure Ini.Entry where
  group : String
  key : String
  value : Option String
deriving DecidableEq

/-- The assignments of a settings file in order. -/
structure Ini where
  entries : List Ini.Entry
deriving DecidableEq

namespace Ini

/-- What is wrong with a settings file. -/
inductive Fault where
  | unclosedSection (line : Nat)
  | emptyKey (line column : Nat)
deriving DecidableEq

def Fault.message : Fault → String
  | unclosedSection line =>
    "line " ++ toString line
      ++ ": Found opening bracket for section name but no closing bracket"
  | emptyKey line column =>
    "line " ++ toString line ++ ":" ++ toString column ++ ": Key cannot be empty"

/-- What a line says. -/
inductive Line where
  | nothing
  | group (name : String)
  | entry (key : String) (value : Option String)

def lines (text : String) : List (List Char) :=
  let pieces := Text.piecesAt (· == '\n') text.toList
  let pieces := if pieces.getLast? = some [] then pieces.dropLast else pieces
  pieces.map fun line => if line.getLast? = some '\r' then line.dropLast else line

def startsComment (c : Char) : Bool := c == ';' || c == '#'

def isDelimiter (c : Char) : Bool := c == '=' || c == ':'

def beforeLastBracket? (cs : List Char) : Option (List Char) :=
  match cs.reverse.dropWhile (· != ']') with
  | [] => none
  | _ :: rest => some rest.reverse

/-- A name as it is compared. -/
def nameOf (cs : List Char) : String := Text.lowercase (String.ofList (Text.trimChars cs))

def readLine (number : Nat) (raw : List Char) : Except Fault Line :=
  match Text.trimChars ((Text.trimChars raw).takeWhile fun c => !startsComment c) with
  | [] => .ok .nothing
  | '[' :: cs =>
    match beforeLastBracket? cs with
    | some name => .ok (.group (nameOf name))
    | none => .error (.unclosedSection number)
  | cs =>
    match Text.cutAt? isDelimiter cs with
    | none => .ok (.entry (nameOf cs) none)
    | some (key, value) =>
      if Text.trimChars key = [] then
        .error (.emptyKey number (Text.byteLength key))
      else .ok (.entry (nameOf key) (some (String.ofList (Text.trimChars value))))

/-- Reads lines, the first of which has the given number and stands in the given section. -/
def readLines (number : Nat) (group : String) : List (List Char) → Except Fault (List Entry)
  | [] => .ok []
  | raw :: rest => do
    match ← readLine number raw with
    | .nothing => readLines (number + 1) group rest
    | .group name => readLines (number + 1) name rest
    | .entry key value => return ⟨group, key, value⟩ :: (← readLines (number + 1) group rest)

/-- Reads a settings file.  Keys before the first section belong to the section `default`. -/
def read (text : String) : Except Fault Ini := do
  return ⟨← readLines 1 "default" (lines text)⟩

def get? (ini : Ini) (group key : String) : Option String :=
  let group := Text.lowercase group
  let key := Text.lowercase key
  (ini.entries.reverse.find? fun entry => entry.group == group && entry.key == key).bind
    Entry.value

end Ini

end TradePlan
