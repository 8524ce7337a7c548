import TradePlan.Files.Path

/-!
# Access to files

The commands reach files through two operations, looking at a path and putting a file there.  A
table of files in memory gives them without any device.
-/

namespace TradePlan

/-- Access to files in a monad.  Putting a file gives the fault if it cannot be done. -/
structure FileAccess (m : Type → Type) where
  look : String → m Slot
  put : String → Slot → m (Option FileFault)

abbrev FileAccess.slotAccess {m : Type → Type} (files : FileAccess m) (path : String) :
    SlotAccess m where
  look := files.look path
  put := files.put path

/-- Files at their locations, and the directories that are there without a file of the table in
them. -/
structure FileTable where
  files : List (Location × ByteArray)
  directories : List Location := []

namespace FileTable

/-! ## Looking -/

def isDirectory (table : FileTable) (location : Location) : Bool :=
  location.isOuter || table.directories.contains location
    || table.files.any fun (other, _) => other.isBelow location

def slotAt (table : FileTable) (location : Location) : Slot :=
  if table.isDirectory location then .directory
  else
    match table.files.lookup location with
    | some content => .file content
    | none => .absent

/-- What is found under a part of a path in a directory. -/
def find (table : FileTable) (location : Location) (part : List Char) : Slot :=
  if part = Location.here ∨ part = Location.up then .directory
  else if Path.maxNameBytes < Text.byteLength part then .unreachable .nameTooLong .nameTooLong
  else table.slotAt (location.child part)

/-- Where a part of a path leads to from a directory. -/
def enter (table : FileTable) (location : Location) (part : List Char) :
    Except FileFault Location :=
  if part = Location.here then .ok location
  else if part = Location.up then .ok location.parent
  else
    match table.find location part with
    | .directory => .ok (location.child part)
    | .file _ | .unreadable _ _ => .error .notDirectory
    | .absent => .error .missing
    | .unreachable reading _ => .error reading

/-- The directory that holds the last part of a path. -/
def reach (table : FileTable) (path : Path) : Except FileFault Location :=
  path.parts.dropLast.foldlM table.enter path.start

/-- What a path with a slash at its end finds in place of a slot.  Only a directory may be named
so. -/
def beforeSlash : Slot → Slot
  | .directory => .directory
  | .file _ | .unreadable _ _ => .unreachable .notDirectory .directory
  | .absent => .unreachable .missing .directory
  | .unreachable reading _ => .unreachable reading .directory

def lookAlong (table : FileTable) (path : Path) : Slot :=
  match table.reach path, path.parts.getLast? with
  | .error fault, _ => .unreachable fault fault
  | .ok _, none => .directory
  | .ok location, some part =>
    if path.slashed then beforeSlash (table.find location part) else table.find location part

def look (table : FileTable) (path : String) : Slot :=
  match Path.read path with
  | .error fault => .unreachable fault fault
  | .ok path => table.lookAlong path

/-! ## Putting -/

def putAt (table : FileTable) (location : Location) (content : ByteArray) : FileTable :=
  { table with
    files := (location, content) :: table.files.filter fun (other, _) => other ≠ location }

/-- The table with a file put at a path.  Only files are kept. -/
def put (table : FileTable) (path : String) (slot : Slot) : FileTable :=
  match Path.read path, slot with
  | .ok path, .file content =>
    match table.reach path, path.parts.getLast? with
    | .ok location, some part => table.putAt (location.child part) content
    | _, _ => table
  | _, _ => table

/-- The table of files under their names in the working directory. -/
def ofFiles (files : List (String × ByteArray)) : FileTable :=
  files.foldl (fun table (name, content) =>
    table.putAt ⟨false, Text.piecesAt (· == '/') name.toList⟩ content) ⟨[], []⟩

def access : FileAccess (StateM FileTable) where
  look path := do return (← get).look path
  put path slot := do
    modify fun table => table.put path slot
    return none

end FileTable

end TradePlan
