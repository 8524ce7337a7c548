import TradePlan.Files.Slot
import TradePlan.Text.Bytes
import TradePlan.Text.Search

/-!
# Paths and locations

A path is a text that says how to walk through directories: parts with slashes between them, of
which a single point stays where it is and two points go up.  A location is where a walk may end, so
that two paths to one file have the same location.
-/

namespace TradePlan

/-! ## Locations -/

/-- A place in the tree of directories, named from its root or from the working directory.  Only in
front of the other parts there may be steps up. -/
structure Location where
  fromRoot : Bool
  parts : List (List Char)
deriving DecidableEq

namespace Location

def here : List Char := ['.']

def up : List Char := ['.', '.']

/-- Whether a location is known to be a directory by its name alone: the root, the working directory
and those above it. -/
def isOuter (location : Location) : Bool := location.parts.all (· == up)

/-- The directory around a location.  Above the root there is nothing else. -/
def parent (location : Location) : Location :=
  if !location.isOuter then ⟨location.fromRoot, location.parts.dropLast⟩
  else if location.fromRoot then location
  else ⟨false, up :: location.parts⟩

def child (location : Location) (name : List Char) : Location :=
  ⟨location.fromRoot, location.parts ++ [name]⟩

def isBelow (location other : Location) : Bool :=
  location.fromRoot == other.fromRoot && other.parts.isPrefixOf location.parts
    && decide (other.parts.length < location.parts.length)

def isInside (location : Location) : Bool :=
  !location.fromRoot && location.parts.head? != some up

/-- The shortest path to a location. -/
def text (location : Location) : String :=
  let path := ['/'].intercalate location.parts
  String.ofList (if location.fromRoot then '/' :: path else path)

end Location

/-! ## Paths -/

/-- A path as it is written.  `slashed` says that a slash ends it, which only a directory may be
named with. -/
structure Path where
  fromRoot : Bool
  parts : List (List Char)
  slashed : Bool
deriving DecidableEq

namespace Path

/-- The number of bytes that a path has to stay below. -/
def maxBytes : Nat := 4096

def maxNameBytes : Nat := 255

/-- Reads a path.  Several slashes are as good as one. -/
def read (text : String) : Except FileFault Path :=
  let cs := text.toList
  if cs.contains '\x00' then .error .zeroByte
  else if cs = [] then .error .missing
  else if maxBytes ≤ Text.byteLength cs then .error .nameTooLong
  else .ok {
    fromRoot := decide (cs.head? = some '/')
    parts := (Text.piecesAt (· == '/') cs).filter (· ≠ [])
    slashed := decide (cs.getLast? = some '/') }

/-- The directory in which the walk along a path begins. -/
def start (path : Path) : Location := ⟨path.fromRoot, []⟩

end Path

end TradePlan
