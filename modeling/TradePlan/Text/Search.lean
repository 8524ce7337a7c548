/-!
# Searching and splitting texts

A text is cut at each occurrence of a character, or only at the first, and searched for a word.
-/

namespace TradePlan.Text

/-- Whether `word` is a run of consecutive characters of a text. -/
def occursIn (word : List Char) : List Char → Bool
  | [] => word.isEmpty
  | c :: cs => word.isPrefixOf (c :: cs) || occursIn word cs

def mentions (text word : String) : Bool := occursIn word.toList text.toList

/-- The pieces between the characters that satisfy a condition, blank pieces too. -/
def piecesAt (stop : Char → Bool) : List Char → List (List Char)
  | [] => [[]]
  | c :: cs =>
    if stop c then [] :: piecesAt stop cs
    else
      match piecesAt stop cs with
      | [] => [[c]]
      | piece :: pieces => (c :: piece) :: pieces

/-- The text before and the text after the first character that satisfies a condition. -/
def cutAt? (stop : Char → Bool) (cs : List Char) : Option (List Char × List Char) :=
  match cs.dropWhile fun c => !stop c with
  | [] => none
  | _ :: rest => some (cs.takeWhile fun c => !stop c, rest)

def ofLines (lines : List String) : String := String.join (lines.map (· ++ "\n"))

end TradePlan.Text
