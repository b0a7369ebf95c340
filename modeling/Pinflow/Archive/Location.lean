import Pinflow.Files.Path

/-!
# Where a table is kept

The place of a table is written as a path, or as a URI that begins with `file:`. A URI
may say how the file is used, and escapes characters by their bytes.
-/

namespace Pinflow

/-- How the file of a table is used. -/
inductive OpenMode where
  /-- It has to be there and is only read. -/
  | read
  /-- It has to be there. -/
  | update
  /-- It is made if it is not there. -/
  | create
  /-- There is none: the table ends with the program. -/
  | transient
deriving DecidableEq

namespace OpenMode

def ofName? : String → Option OpenMode
  | "ro" => some read
  | "rw" => some update
  | "rwc" => some create
  | "memory" => some transient
  | _ => none

/-- A mode may be replaced by one that asks for no more. -/
def admits : OpenMode → OpenMode → Bool
  | transient, _ | _, transient => true
  | create, _ | update, read | update, update | read, read => true
  | update, create | read, update | read, create => false

end OpenMode

/-- Why the place of a table makes no sense. -/
inductive LocationFault where
  | authority (name : String)
  | mode (name : String)
  | cache (name : String)
  | notAllowed (name : String)
  | system (name : String)

def LocationFault.message : LocationFault → String
  | authority name => "invalid uri authority: " ++ name
  | mode name => "no such access mode: " ++ name
  | cache name => "no such cache mode: " ++ name
  | notAllowed name => "access mode not allowed: " ++ name
  | system name => "no such vfs: " ++ name

/-- The place of a table. -/
structure Location where
  path : String
  mode : OpenMode := .create
  /-- The file system that holds the file, if a URI names one. -/
  system : Option String := none

namespace Location

/-- The value of a hexadecimal digit. -/
def hexDigit? (byte : UInt8) : Option UInt8 :=
  if 0x30 ≤ byte && byte ≤ 0x39 then some (byte - 0x30)
  else if 0x41 ≤ byte && byte ≤ 0x46 then some (byte - 0x37)
  else if 0x61 ≤ byte && byte ≤ 0x66 then some (byte - 0x57)
  else none

/-- Put the bytes in place of their escapes. An escaped zero byte ends the text. -/
def unescape : List UInt8 → List UInt8
  | 0x25 :: high :: low :: rest =>
    match hexDigit? high, hexDigit? low with
    | some h, some l => if h = 0 ∧ l = 0 then [] else (h * 16 + l) :: unescape rest
    | _, _ => 0x25 :: unescape (high :: low :: rest)
  | byte :: rest => byte :: unescape rest
  | [] => []

/-- A piece of a URI as it was before it was escaped. -/
def piece (cs : List Char) : String :=
  let text := String.ofList cs
  (String.fromUTF8? ⟨(unescape text.toUTF8.toList).toArray⟩).getD text

/-- The options behind the question mark, but for those without a name. -/
def options (query : List Char) : List (String × String) :=
  let option (cs : List Char) : String × String :=
    match Text.splitFirst? '=' cs with
    | some (name, value) => (piece name, piece value)
    | none => (piece cs, "")
  ((Text.splitAll '&' query).map option).filter fun option => option.1 != ""

/-- Take account of an option. Most options are of no consequence here. -/
def choose (location : Location) : String × String → Except LocationFault Location
  | ("vfs", name) => .ok { location with system := some name }
  | ("cache", name) =>
    if name == "shared" || name == "private" then .ok location else .error (.cache name)
  | ("mode", name) =>
    match OpenMode.ofName? name with
    | none => .error (.mode name)
    | some mode =>
      if location.mode.admits mode then .ok { location with mode } else .error (.notAllowed name)
  | _ => .ok location

/-- The names of the file systems. -/
def systems : List String := ["unix", "unix-none", "unix-dotfile", "unix-excl", "memdb"]

/-- Skip the authority of a URI, which may only be this machine. -/
def skipAuthority : List Char → Except LocationFault (List Char)
  | '/' :: '/' :: rest =>
    let name := String.ofList (rest.takeWhile (· != '/'))
    if name == "" || name == "localhost" then .ok (rest.dropWhile (· != '/'))
    else .error (.authority name)
  | rest => .ok rest

/-- Read what follows the scheme of a URI. -/
def ofUri (rest : List Char) : Except LocationFault Location := do
  let body := (← skipAuthority rest).takeWhile (· != '#')
  let (path, given) := match Text.splitFirst? '?' body with
    | some (path, query) => (path, options query)
    | none => (body, [])
  let location ← given.foldlM choose { path := piece path }
  match location.system with
  | some name => if systems.contains name then return location else throw (.system name)
  | none => return location

/-- Read the place of a table. -/
def ofText (text : String) : Except LocationFault Location :=
  match text.toList with
  | 'f' :: 'i' :: 'l' :: 'e' :: ':' :: rest => ofUri rest
  | _ => .ok { path := text }

/-- The path of the file. Some places stand for a table without one. -/
def file? (location : Location) : Option Path :=
  if location.mode = .transient ∨ location.system = some "memdb" ∨
      location.path = "" ∨ location.path = ":memory:" then none
  else some (Path.ofText location.path).plain

end Location

end Pinflow
