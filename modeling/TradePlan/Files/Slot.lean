/-!
# Places for files

What is found at a path, and what reading and writing there give.  A file is its bytes, so that a
file that is no text can be kept as it is.
-/

namespace TradePlan

/-- Why a file cannot be read or written. -/
inductive FileFault where
  | missing
  | notDirectory
  | directory
  | nameTooLong
  | zeroByte
  | notText
  | described (reason : String)
deriving DecidableEq

def FileFault.message : FileFault → String
  | missing => "No such file or directory (os error 2)"
  | notDirectory => "Not a directory (os error 20)"
  | directory => "Is a directory (os error 21)"
  | nameTooLong => "File name too long (os error 36)"
  | zeroByte => "file name contained an unexpected NUL byte"
  | notText => "stream did not contain valid UTF-8"
  | described reason => reason

/-- What is at a path.  An unreachable path can neither be read nor written, and the two may fail
for different reasons.  Neither can an unreadable file, but it is there. -/
inductive Slot where
  | absent
  | unreachable (reading writing : FileFault)
  | unreadable (reading writing : FileFault)
  | directory
  | file (content : ByteArray)

namespace Slot

def exists? : Slot → Bool
  | directory | unreadable _ _ | file _ => true
  | absent | unreachable _ _ => false

/-- The text of the file, or the reason why there is none. -/
def readText : Slot → Except FileFault String
  | absent => .error .missing
  | unreachable reading _ | unreadable reading _ => .error reading
  | directory => .error .directory
  | file content =>
    match String.fromUTF8? content with
    | some text => .ok text
    | none => .error .notText

/-- Only a file has a text. -/
theorem readText_eq_ok_iff {slot : Slot} {text : String} :
    slot.readText = .ok text ↔
      ∃ content, slot = .file content ∧ String.fromUTF8? content = some text := by
  cases slot with
  | file content => cases h : String.fromUTF8? content <;> simp [readText, h]
  | absent | unreachable _ _ | unreadable _ _ | directory => simp [readText]

/-- What is at the path after a text was written there, or the reason why it cannot be. -/
def writeText (slot : Slot) (text : String) : Except FileFault Slot :=
  match slot with
  | absent | file _ => .ok (file text.toUTF8)
  | unreachable _ writing | unreadable _ writing => .error writing
  | directory => .error .directory

/-- Only where nothing or a file is, a text can be written, and a file of it is there then. -/
theorem writeText_eq_ok_iff {slot written : Slot} {text : String} :
    slot.writeText text = .ok written ↔
      (slot = .absent ∨ ∃ old, slot = .file old) ∧ written = .file text.toUTF8 := by
  cases slot <;> simp [writeText, eq_comm]

end Slot

/-- Access to the place for one file in a monad.  Putting gives the fault if it cannot be done. -/
class SlotAccess (m : Type → Type) where
  look : m Slot
  put : Slot → m (Option FileFault)

/-- A place by itself, where whatever is put stays. -/
instance : SlotAccess (StateM Slot) where
  look := get
  put slot := do
    set slot
    return none

end TradePlan
