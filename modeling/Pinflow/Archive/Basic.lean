import Pinflow.Archive.Memory
import Pinflow.Archive.Table

/-!
# Archives

Where finished traces go. A desk may have no archive at all, and an archive may be
out of order, in which case every use of it fails.
-/

namespace Pinflow

inductive Archive where
  | none
  | memory (traces : MemoryArchive)
  | table (traces : TableArchive)
  | outOfOrder

namespace Archive

def diskFull : Fault := .archive "disk full"

/-- Keep a trace. -/
def persist (archive : Archive) (trace : Trace) : Except Fault Archive :=
  match archive with
  | .none => .ok .none
  | .memory traces => .ok (.memory (traces.persist trace))
  | .table traces => .ok (.table (traces.persist trace))
  | .outOfOrder => .error diskFull

def load (archive : Archive) (id : String) : Except Fault (Option Trace) :=
  match archive with
  | .none => .ok Option.none
  | .memory traces => .ok (traces.load? id)
  | .table traces => traces.load id
  | .outOfOrder => .error diskFull

/-- The ids of the latest traces of a graph. -/
def list (archive : Archive) (graph : String) (limit : Nat) : Except Fault (List String) :=
  match archive with
  | .none => .ok []
  | .memory traces => .ok (traces.list graph limit)
  | .table traces => .ok (traces.list graph limit)
  | .outOfOrder => .error diskFull

end Archive

end Pinflow
