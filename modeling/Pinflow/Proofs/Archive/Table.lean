import Pinflow.Archive.Table
import Pinflow.Proofs.Trace.Roundtrip

/-!
# The table keeps what is written

A row stays as it was written until its trace is written again or deleted, so a trace is loaded
as it was persisted, provided its text can be read: `TableArchive.load_of_row?` and
`TableArchive.row?_alterAll`.
-/

namespace Pinflow.TableArchive

/-- A use of the table that changes it. -/
inductive Change where
  | persist (trace : Trace)
  | delete (id : String)

def Change.id : Change → String
  | persist trace => trace.id
  | delete id => id

def alter (archive : TableArchive) : Change → TableArchive
  | .persist trace => archive.persist trace
  | .delete id => (archive.delete id).2

def alterAll (archive : TableArchive) (changes : List Change) : TableArchive :=
  changes.foldl alter archive

variable {archive : TableArchive} {id : String} {trace : Trace}

theorem row?_delete_of_ne {other : String} (apart : other ≠ id) :
    (archive.delete other).2.row? id = archive.row? id := by
  show (archive.rows.filter fun row => row.id != other).find? (fun row => row.id == id) = _
  rw [List.find?_filter]
  refine congrArg (archive.rows.find? ·) (funext fun row => ?_)
  by_cases same : row.id = id
  · simp [same, apart.symm]
  · simp [same]

theorem row?_persist_self (archive : TableArchive) (trace : Trace) :
    (archive.persist trace).row? trace.id = some (.ofTrace trace) := by
  have gone : (archive.delete trace.id).2.rows.find? (fun row => row.id == trace.id) = none := by
    rw [List.find?_eq_none]
    intro row member
    have kept := (List.mem_filter.mp member).2
    simpa using kept
  show ((archive.delete trace.id).2.rows ++ [TraceRow.ofTrace trace]).find?
    (fun row => row.id == trace.id) = _
  rw [List.find?_append, gone]
  simp [TraceRow.ofTrace]

theorem row?_persist_of_ne (apart : trace.id ≠ id) :
    (archive.persist trace).row? id = archive.row? id := by
  have last : [TraceRow.ofTrace trace].find? (fun row => row.id == id) = none := by
    simp [TraceRow.ofTrace, apart]
  show ((archive.delete trace.id).2.rows ++ [TraceRow.ofTrace trace]).find?
    (fun row => row.id == id) = _
  rw [List.find?_append, last, Option.or_none]
  exact row?_delete_of_ne apart

/-- A change leaves the rows of other traces alone. -/
theorem row?_alter {change : Change} (apart : change.id ≠ id) :
    (archive.alter change).row? id = archive.row? id := by
  cases change with
  | persist => exact row?_persist_of_ne apart
  | delete => exact row?_delete_of_ne apart

theorem row?_alterAll {changes : List Change} (apart : ∀ change ∈ changes, change.id ≠ id) :
    (archive.alterAll changes).row? id = archive.row? id := by
  induction changes generalizing archive with
  | nil => rfl
  | cons change changes ih =>
    obtain ⟨first, rest⟩ := List.forall_mem_cons.mp apart
    exact (ih rest).trans (row?_alter first)

/-- A trace is loaded from its row unless it nests too deep. -/
theorem load_of_row? (legible : trace.Legible)
    (written : archive.row? trace.id = some (.ofTrace trace)) :
    archive.load trace.id =
      if trace.Shallow then .ok (some trace) else .error (corruption (.ofTrace trace)) := by
  have text : Trace.read? (TraceRow.ofTrace trace).body =
      if trace.Shallow then some trace else none :=
    Trace.read?_render legible
  by_cases shallow : trace.Shallow
  · simp only [load, written, text, if_pos shallow]
  · simp only [load, written, text, if_neg shallow]

end Pinflow.TableArchive
