import Pinflow.Trace.Basic

/-!
# Traces in memory

The traces of a process in the order in which they came. A trace that comes again
takes the place of its earlier version.
-/

namespace Pinflow

structure MemoryArchive where
  traces : List Trace := []

namespace MemoryArchive

def size (archive : MemoryArchive) : Nat := archive.traces.length

def load? (archive : MemoryArchive) (id : String) : Option Trace :=
  archive.traces.find? fun trace => trace.id == id

/-- Keep a trace. -/
def persist (archive : MemoryArchive) (trace : Trace) : MemoryArchive :=
  if (archive.load? trace.id).isSome then
    ⟨archive.traces.map fun other => if other.id == trace.id then trace else other⟩
  else ⟨archive.traces ++ [trace]⟩

/-- The ids of the traces of a graph, latest arrival first. -/
def list (archive : MemoryArchive) (graph : String) (limit : Nat) : List String :=
  ((archive.traces.reverse.filter fun trace => trace.graph == graph).take limit).map Trace.id

end MemoryArchive

end Pinflow
