import Pinflow.Files.Fault
import Pinflow.Files.Path

/-!
# Volumes

A tree of directories and files as a value. A path is followed part by part, and every
directory on the way has to be there.
-/

namespace Pinflow

/-- What is at a place. -/
inductive Entry where
  | directory
  | file (text : String)

/-- The entries by the names on the way from the root. The root itself is always a
directory. -/
structure Volume where
  entries : List (List String × Entry) := []
  /-- Where relative paths start. -/
  here : List String := []

namespace Volume

/-- What is at a place, if anything. -/
def entry? (volume : Volume) (place : List String) : Option Entry :=
  if place.isEmpty then some .directory
  else (volume.entries.find? fun entry => entry.1 == place).map Prod.snd

/-- Follow parts from a place. There need be nothing at the place where they end. -/
def walk (volume : Volume) (place : List String) : List String → Except PathFault (List String)
  | [] => .ok place
  | part :: rest =>
    match volume.entry? place, part with
    | none, _ => .error .missing
    | some (.file _), _ => .error .notDirectory
    | some .directory, "." => volume.walk place rest
    | some .directory, ".." => volume.walk place.dropLast rest
    | some .directory, name =>
      if Path.maxName < name.utf8ByteSize then .error .tooLong else volume.walk (place ++ [name]) rest

def place (volume : Volume) (path : Path) : Except PathFault (List String) :=
  if path.isEmpty then .error .missing
  else if path.parts.any (·.contains '\x00') then .error .zeroByte
  else if Path.maxLength < path.text.utf8ByteSize then .error .tooLong
  else volume.walk (if path.absolute then [] else volume.here) path.parts

/-- What a path leads to. -/
def get (volume : Volume) (path : Path) : Except PathFault Entry := do
  match volume.entry? (← volume.place path) with
  | some entry => return entry
  | none => throw .missing

/-- Is there anything at a path? -/
def contains (volume : Volume) (path : Path) : Bool := (volume.get path).toBool

def isDirectory (volume : Volume) (path : Path) : Bool :=
  match volume.get path with
  | .ok .directory => true
  | _ => false

def text? (volume : Volume) (path : Path) : Option String :=
  match volume.get path with
  | .ok (.file text) => some text
  | _ => none

def put (volume : Volume) (place : List String) (entry : Entry) : Volume :=
  { volume with entries := (place, entry) :: volume.entries.filter fun entry => entry.1 != place }

def write (volume : Volume) (path : Path) (text : String) : Except PathFault Volume := do
  let place ← volume.place path
  match volume.entry? place with
  | some .directory => throw .isDirectory
  | _ => return volume.put place (.file text)

def makeDirectory (volume : Volume) (path : Path) : Except PathFault Volume := do
  let place ← volume.place path
  match volume.entry? place with
  | some _ => throw .taken
  | none => return volume.put place .directory

/-- Make the directory with these parts, in reverse, and those above it that are not
there. What has been made stays when the rest fails. -/
def makeAll (absolute : Bool) : (reversed : List String) → Volume → Volume × Option PathFault
  | [], volume => (volume, none)
  | name :: above, volume =>
    let path : Path := ⟨absolute, (name :: above).reverse⟩
    let unlessThere (volume : Volume) (fault : PathFault) : Volume × Option PathFault :=
      (volume, if volume.isDirectory path then none else some fault)
    match volume.makeDirectory path with
    | .ok volume => (volume, none)
    | .error .missing =>
      match makeAll absolute above volume with
      | (volume, some fault) => (volume, some fault)
      | (volume, none) =>
        match volume.makeDirectory path with
        | .ok volume => (volume, none)
        | .error fault => unlessThere volume fault
    | .error fault => unlessThere volume fault

/-- Make a directory and those above it, unless they are there. -/
def makeDirectories (volume : Volume) (path : Path) : Volume × Option PathFault :=
  makeAll path.absolute path.components.reverse volume

def withFile (volume : Volume) (path : Path) (text : String) : Volume :=
  let volume := match path.parent? with
    | some parent => (volume.makeDirectories parent).1
    | none => volume
  (volume.write path text).toOption.getD volume

end Volume

end Pinflow
