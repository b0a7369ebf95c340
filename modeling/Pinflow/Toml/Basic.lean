/-!
# TOML trees

The values of a TOML document. A table remembers how it came about, because that
decides whether later lines may add to it.
-/

namespace Pinflow

namespace Toml

/-- How a table came about: written between braces, opened by a header of its own (as
the document itself is), needed on the way to another header, or made by a dotted key. -/
inductive Origin where
  | inline
  | header
  | implied
  | dotted
deriving DecidableEq

end Toml

inductive Toml where
  | string (s : String)
  | integer (i : Int)
  | boolean (b : Bool)
  | float (text : String)
  | date (text : String)
  | array (items : List Toml)
  | table (origin : Toml.Origin) (entries : List (String × Toml))
  /-- Tables opened by double headers, at least one. -/
  | tables (items : List Toml)

namespace Toml

/-- Entries in the order in which they were written. -/
abbrev Entries := List (String × Toml)

namespace Entries

def get? (entries : Entries) (key : String) : Option Toml :=
  (entries.find? fun entry => entry.1 == key).map Prod.snd

/-- Put a value under a key, at the end if the key is new. -/
def put (entries : Entries) (key : String) (value : Toml) : Entries :=
  if entries.any fun entry => entry.1 == key then
    entries.map fun entry => if entry.1 == key then (key, value) else entry
  else entries ++ [(key, value)]

end Entries

/-- The value under a key of a table. -/
def get? (tree : Toml) (key : String) : Option Toml :=
  match tree with
  | .table _ entries => Entries.get? entries key
  | _ => none

/-- May a table be entered on the way of a path? A table between braces is closed, and
a dotted key may not enter what a header has opened. -/
def Origin.admits : Origin → (byDot : Bool) → Bool
  | inline, _ => false
  | header, byDot => !byDot
  | implied, _ | dotted, _ => true

/-- Change the table at the end of a path; tables that are missing on the way are
made. Of tables opened by double headers the last one is meant. -/
def update (byDot : Bool) (f : Origin → Entries → Option Toml) : List String → Toml → Option Toml
  | [], .table origin entries => f origin entries
  | key :: path, .table origin entries => do
    let missing : Toml := .table (if byDot then .dotted else .implied) []
    let child ← match (Entries.get? entries key).getD missing with
      | .table childOrigin children =>
        if childOrigin.admits byDot then update byDot f path (.table childOrigin children) else none
      | .tables items => do
        let last ← items.getLast?
        let last ← update byDot f path last
        some (.tables (items.dropLast ++ [last]))
      | _ => none
    some (.table origin (Entries.put entries key child))
  | _, _ => none

/-- Add an entry under a dotted key. It must be new, and the table that a dotted key
leads to must have been made by dotted keys only. -/
def addEntry (tree : Toml) (path : List String) (key : String) (value : Toml) : Option Toml :=
  tree.update true (fun origin entries =>
    if !path.isEmpty && origin != .dotted then none
    else if (Entries.get? entries key).isSome then none
    else some (.table origin (entries ++ [(key, value)]))) path

def openTable (tree : Toml) (path : List String) (key : String) : Option Toml :=
  tree.update false (fun origin entries =>
    match Entries.get? entries key with
    | none => some (.table origin (entries ++ [(key, .table .header [])]))
    | some (.table .implied children) =>
      some (.table origin (Entries.put entries key (.table .header children)))
    | some _ => none) path

def openTables (tree : Toml) (path : List String) (key : String) : Option Toml :=
  tree.update false (fun origin entries =>
    match Entries.get? entries key with
    | none => some (.table origin (entries ++ [(key, .tables [.table .header []])]))
    | some (.tables items) =>
      some (.table origin (Entries.put entries key (.tables (items ++ [.table .header []]))))
    | some _ => none) path

/-- Entries written between braces, each under a dotted key. -/
def inlineTable (pairs : List (List String × String × Toml)) : Option Toml :=
  pairs.foldlM (fun tree (path, key, value) => addEntry tree path key value) (.table .inline [])

end Toml

end Pinflow
