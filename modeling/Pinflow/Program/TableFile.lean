import Pinflow.Archive.Location
import Pinflow.Archive.Table
import Pinflow.Program.Failure

/-!
# Tables in files

Opening the table of an archive and saving it. The file of a table is no text: what
reads texts does not read it.
-/

namespace Pinflow.Program

def readText (path : String) : Program (Option String) := do
  return (← readFile path).filter fun text => !TableArchive.isTable text

def failArchive {α : Type} (reason : String) : Attempt α := throw (.fault (.archive reason))

def failOpen {α : Type} (reason : String) : Attempt α :=
  failArchive ("Failed to open trace store: " ++ reason)

/-- Make the directories above a table. -/
def makeParent (text : String) : Attempt Unit := do
  match (Path.ofText text).parent? with
  | none => return
  | some parent =>
    if parent.isEmpty then return
    match ← makeDirectories parent.text with
    | none => return
    | some fault => failArchive ("Failed to create trace directory: " ++ fault.message)

def beforeZero? (text : String) : Option String :=
  (Text.splitFirst? '\x00' text.toList).map fun pieces => String.ofList pieces.1

/-- How many bytes the path of a table may have. -/
def maxTablePath : Nat := 504

/-- How many bytes a name needs beyond that of the table, for the file beside it that
undoes a change. -/
def companionBytes : Nat := 8

def prepare (path : Path) (table : TableArchive) : Attempt TableArchive := do
  if Path.maxName < path.name.utf8ByteSize + companionBytes then
    failArchive "unable to open database file"
  let _ ← writeFile path.text table.text
  return table

def openPresent (path : Path) (mode : OpenMode) (text : String) : Attempt TableArchive := do
  match TableArchive.ofText? text with
  | none => failArchive "file is not a database"
  | some table =>
    if mode != .read then prepare path table
    else if TableArchive.isTable text then return table
    else failArchive "attempt to write a readonly database"

/-- Make a file with an empty table, or say that there is none. -/
def openAbsent (given : String) (path : Path) (mode : OpenMode) : Attempt TableArchive := do
  let made ← if mode = .create then writeFile path.text "" else pure false
  if made then prepare path {} else failOpen ("unable to open database file: " ++ given)

def openFile (given : String) (path : Path) (mode : OpenMode) : Attempt TableArchive := do
  if maxTablePath < path.text.utf8ByteSize then
    failOpen ("unable to open database file: " ++ given)
  if ← hasPath path.text then
    match ← readFile path.text with
    | none => failOpen ("unable to open database file: " ++ given)
    | some text => openPresent path mode text
  else openAbsent given path mode

def openTable (given : String) : Attempt TableArchive := do
  makeParent given
  match beforeZero? given with
  | some text =>
    failOpen s!"nul byte found in provided data at position: {text.utf8ByteSize}"
  | none => pure ()
  match Location.ofText given with
  | .error fault => failOpen fault.message
  | .ok location =>
    match location.file? with
    | some path => openFile given path location.mode
    | none =>
      if location.mode = .read then
        failArchive "Failed to initialize trace schema: attempt to write a readonly database"
      else return {}

def saveTable (given : String) (table : TableArchive) : Program Unit := do
  match Location.ofText given with
  | .error _ => return
  | .ok location =>
    match location.file? with
    | some path =>
      if location.mode != .read then
        let _ ← writeFile path.text table.text
    | none => return

end Pinflow.Program
