import TradePlan.Calendar.Date
import TradePlan.Csv.Record
import TradePlan.Decimal.Reading
import TradePlan.Text.Blank

/-!
# Trade history

The closed trades of an account.  A history file has a header and then one record per trade, with
its date and its profit or loss; trades are put in the order of time, and those of one day keep the
order of the file.
-/

namespace TradePlan

/-- A closed trade. -/
structure Trade where
  date : Date
  pnl : Float
deriving DecidableEq

namespace Trade

/-- What is wrong with a history.  `line` is the number of a record, counted as if every record
were one line after a header of one line. -/
inductive Fault where
  | fieldCount (record : Nat) (place : Csv.Place) (found expected : Nat)
  | missingDate (line : Nat)
  | invalidDate (line : Nat) (fault : Date.ReadFault)
  | missingPnl (line : Nat)
  | invalidPnl (line : Nat) (fault : Decimal.ReadFault)
  | infinitePnl (line : Nat)
deriving DecidableEq

def Fault.message : Fault → String
  | fieldCount record place found expected =>
    "CSV parse error: CSV error: record " ++ toString record ++ " (line: " ++ toString place.line
      ++ ", byte: " ++ toString place.byte ++ "): found record with " ++ toString found
      ++ " fields, but the previous record has " ++ toString expected ++ " fields"
  | missingDate line => "line " ++ toString line ++ ": missing date column"
  | invalidDate line fault =>
    "line " ++ toString line ++ ": invalid date format: " ++ fault.message
  | missingPnl line => "line " ++ toString line ++ ": missing pnl column"
  | invalidPnl line fault => "line " ++ toString line ++ ": invalid pnl value: " ++ fault.message
  | infinitePnl line => "line " ++ toString line ++ ": pnl must be finite"

/-- Reads the trade of a record.  `index` counts the records before it, without the header, and
`width` is the number of fields of the header. -/
def ofRecord (width index : Nat) (record : Csv.Record) : Except Fault Trade :=
  let line := index + 2
  if record.fields.length ≠ width then
    .error (.fieldCount (index + 1) record.place record.fields.length width)
  else
    match record.fields with
    | [] => .error (.missingDate line)
    | dateText :: fields =>
      match Date.read (Text.trim dateText) with
      | .error fault => .error (.invalidDate line fault)
      | .ok date =>
        match fields with
        | [] => .error (.missingPnl line)
        | pnlText :: _ =>
          match Decimal.read (Text.trim pnlText) with
          | .error fault => .error (.invalidPnl line fault)
          | .ok pnl => if pnl.isFinite then .ok ⟨date, pnl⟩ else .error (.infinitePnl line)

/-- Reads the trades of records in the order of the file. -/
def ofRecords (width index : Nat) : List Csv.Record → Except Fault (List Trade)
  | [] => .ok []
  | record :: rest => do
    let trade ← ofRecord width index record
    let trades ← ofRecords width (index + 1) rest
    return trade :: trades

def chronological (trades : List Trade) : List Trade :=
  trades.mergeSort fun a b => a.date.le b.date

def readAll (text : String) : Except Fault (List Trade) :=
  match Csv.records text with
  | [] => .ok []
  | header :: records => do
    return chronological (← ofRecords header.fields.length 0 records)

end Trade

end TradePlan
