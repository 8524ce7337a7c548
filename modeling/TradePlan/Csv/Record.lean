import TradePlan.Text.Bytes

/-!
# Comma-separated records

A text is split into records of fields.  A record ends with a line feed, a carriage return or the
text, and empty lines between records are skipped.  A field that begins with a quote runs to the
next quote; two quotes in it stand for one, and commas and line ends in it are text.
-/

namespace TradePlan.Csv

/-- A place in a text: the bytes in UTF-8 before it, and the number of its line. -/
structure Place where
  byte : Nat
  line : Nat
deriving DecidableEq

def Place.after (place : Place) (cs : List Char) : Place where
  byte := place.byte + Text.byteLength cs
  line := place.line + cs.count '\n'

/-- A record, and the place at which the record before it ended. -/
structure Record where
  place : Place
  fields : List String
deriving DecidableEq

def isLineEnd (c : Char) : Bool := c == '\n' || c == '\r'

/-- What has been read of a field. -/
inductive FieldState where
  | atStart
  | bare
  | quoted
  | afterQuote
deriving DecidableEq

/-- The fields of a record, the characters that they were read from, and the text after them. -/
structure FieldsRead where
  fields : List String
  taken : List Char
  rest : List Char

/-- One more character that was read in front of the others. -/
def FieldsRead.after (c : Char) (read : FieldsRead) : FieldsRead :=
  ⟨read.fields, c :: read.taken, read.rest⟩

/-- Reads the fields of a record.  `field` holds the characters of the field so far, the latest
first. -/
def readFields (state : FieldState) (field : List Char) : List Char → FieldsRead
  | [] => ⟨[String.ofList field.reverse], [], []⟩
  | c :: cs =>
    if c = '"' ∧ state = .atStart then (readFields .quoted field cs).after c
    else if c = '"' ∧ state = .quoted then (readFields .afterQuote field cs).after c
    else if c = '"' ∧ state = .afterQuote then (readFields .quoted (c :: field) cs).after c
    else if state = .quoted then (readFields .quoted (c :: field) cs).after c
    else if c = ',' then
      let read := readFields .atStart [] cs
      ⟨String.ofList field.reverse :: read.fields, c :: read.taken, read.rest⟩
    else if isLineEnd c then ⟨[String.ofList field.reverse], [c], cs⟩
    else (readFields .bare (c :: field) cs).after c

/-- Nothing of the text is lost. -/
theorem taken_append_rest (state : FieldState) (field cs : List Char) :
    (readFields state field cs).taken ++ (readFields state field cs).rest = cs := by
  induction cs generalizing state field with
  | nil => rfl
  | cons c cs ih =>
    unfold readFields
    repeat' split
    all_goals simp [FieldsRead.after, ih]

/-- At least one character is read, if there is one. -/
theorem taken_ne_nil (state : FieldState) (field : List Char) (c : Char) (cs : List Char) :
    (readFields state field (c :: cs)).taken ≠ [] := by
  unfold readFields
  repeat' split
  all_goals simp [FieldsRead.after]

/-- The records of a text that begins at a place. -/
def recordsFrom (place : Place) (cs : List Char) : List Record :=
  match _begins : cs.dropWhile isLineEnd with
  | [] => []
  | c :: text =>
    let read := readFields .atStart [] (c :: text)
    ⟨place, read.fields⟩
      :: recordsFrom ((place.after (cs.takeWhile isLineEnd)).after read.taken) read.rest
termination_by cs.length
decreasing_by
  have whole := congrArg List.length (taken_append_rest .atStart [] (c :: text))
  have some := List.length_pos_iff.2 (taken_ne_nil .atStart [] c text)
  have dropped := (List.dropWhile_sublist isLineEnd (l := cs)).length_le
  rw [_begins] at dropped
  rw [List.length_append] at whole
  omega

/-- The records of a text.  A byte order mark in front of it is not part of the first field. -/
def records (text : String) : List Record :=
  match text.toList with
  | '\ufeff' :: cs => recordsFrom ⟨3, 1⟩ cs
  | cs => recordsFrom ⟨0, 1⟩ cs

end TradePlan.Csv
