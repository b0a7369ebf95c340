import Pinflow.Proofs.Archive.Table
import Pinflow.Proofs.Desk.Traces
import Pinflow.Proofs.Trace.Snapshots

/-!
# Traces in the archive

What becomes of the trace of an invocation that is persisted in a table. Values may nest as deep
in a snapshot as in any text, but a stored trace puts three levels around them. A trace that
leaves no room for these is written and cannot be read back.
-/

namespace Pinflow.Desk

open Json

variable {desk : Desk} {name : String} {invocation : Invocation} {identity : Identity}
  {circuit : Circuit} {request : Request} {outcome : Outcome} {trace : Trace}

/-- The keys of the values in the trace of an invocation increase. -/
theorem Idle.trace_ordered (idle : desk.Idle) (moves : List Move)
    (started : .started name identity circuit request ∈ desk.chronicle moves)
    (found : (desk.play moves).invocation? name = some invocation)
    (finished : invocation.stage = .finished outcome) (traced : outcome.trace = some trace) :
    ∀ step ∈ trace.steps, step.Ordered := by
  obtain ⟨past, result, walker, -, -, -, head, now, recorded⟩ :=
    idle.finished_walk moves started found finished
  rw [traced, Request.recorder] at recorded
  split at recorded
  · cases recorded
    intro step member
    exact Recorder.ordered_finalize _ _ head now outcome.fault member
  · cases recorded

/-- The trace of an invocation is loaded from a table as it was persisted if it leaves room for
its own levels, and otherwise it cannot be loaded. -/
theorem trace_loaded_unless_deep (idle : desk.Idle) (moves : List Move)
    (started : .started name identity circuit request ∈ desk.chronicle moves)
    (found : (desk.play moves).invocation? name = some invocation)
    (finished : invocation.stage = .finished outcome) (traced : outcome.trace = some trace)
    (began : trace.started.Valid) (ended : ∀ instant ∈ trace.finished, instant.Valid)
    (whole : trace.record.Whole) (rereads : ∀ x ∈ trace.record.floats, Rereads x)
    (archive : TableArchive) {changes : List TableArchive.Change}
    (spared : ∀ change ∈ changes, change.id ≠ trace.id) :
    ((archive.persist trace).alterAll changes).load trace.id =
      if trace.Shallow then .ok (some trace)
      else .error (TableArchive.corruption (.ofTrace trace)) := by
  have ordered := idle.trace_ordered moves started found finished traced
  apply TableArchive.load_of_row? ⟨began, ended, ordered, whole, rereads⟩
  rw [TableArchive.row?_alterAll spared]
  exact archive.row?_persist_self trace

def trace? (desk : Desk) (name : String) : Option Trace := (desk.outcome? name).bind Outcome.trace

theorem exists_of_trace? (recorded : desk.trace? name = some trace) :
    ∃ invocation outcome, desk.invocation? name = some invocation ∧
      invocation.stage = .finished outcome ∧ outcome.trace = some trace := by
  obtain ⟨outcome, ended, traced⟩ := Option.bind_eq_some_iff.mp recorded
  obtain ⟨invocation, found, finished⟩ := exists_of_outcome? ended
  exact ⟨invocation, outcome, found, finished, traced⟩

theorem trace_loaded_computedRemark :
    ∃ trace, ((vacant []).play [tracedStart computedRemark]).trace? "x" = some trace ∧
      trace.steps.length = 5 ∧ trace.Shallow ∧
      ∀ archive : TableArchive,
        ((archive.persist trace).alterAll [.delete "u", .persist { trace with id := "v" }]).load
          trace.id = .ok (some trace) := by
  have computed : (((vacant []).play [tracedStart computedRemark]).trace? "x").any (fun trace =>
      trace.started.Valid ∧ (∀ instant ∈ trace.finished, instant.Valid) ∧ trace.record.Whole ∧
        trace.record.floats.isEmpty ∧ trace.id = "t" ∧ trace.Shallow ∧ trace.steps.length = 5) =
      true := by decide +kernel
  obtain ⟨trace, recorded, holds⟩ := (Option.any_eq_true _ _).mp computed
  obtain ⟨began, ended, whole, floatless, isId, shallow, count⟩ := of_decide_eq_true holds
  obtain ⟨invocation, outcome, found, finished, traced⟩ := exists_of_trace? recorded
  refine ⟨trace, recorded, count, shallow, fun archive => ?_⟩
  rw [trace_loaded_unless_deep (vacant_idle []) [tracedStart computedRemark]
    (tracedStart_mem computedRemark) found finished traced began ended whole _ archive _,
    if_pos shallow]
  · rw [List.isEmpty_iff.mp floatless]
    exact List.forall_mem_nil _
  · rw [isId]
    simp [TableArchive.Change.id]

/-- An empty list within so many others. -/
def nested : Nat → Value
  | 0 => .arr []
  | n + 1 => .arr [nested n]

def deepRemark : Graph where
  id := "g"
  nodes := [{ id := "start", kind := "log", config := [("message", nested 122)] }]

/-- The trace of a run that completes may be lost for good. -/
theorem trace_lost_deepRemark :
    ∃ trace, ((vacant []).play [tracedStart deepRemark]).trace? "x" = some trace ∧
      trace.status = .completed ∧
      ∀ archive : TableArchive, (archive.persist trace).load trace.id =
        .error (TableArchive.corruption (.ofTrace trace)) := by
  have computed : (((vacant []).play [tracedStart deepRemark]).trace? "x").any (fun trace =>
      trace.started.Valid ∧ (∀ instant ∈ trace.finished, instant.Valid) ∧ trace.record.Whole ∧
        trace.record.floats.isEmpty ∧ ¬ trace.Shallow ∧ trace.status = .completed) =
      true := by decide +kernel
  obtain ⟨trace, recorded, holds⟩ := (Option.any_eq_true _ _).mp computed
  obtain ⟨began, ended, whole, floatless, deep, completed⟩ := of_decide_eq_true holds
  obtain ⟨invocation, outcome, found, finished, traced⟩ := exists_of_trace? recorded
  have ordered := (vacant_idle []).trace_ordered [tracedStart deepRemark]
    (tracedStart_mem deepRemark) found finished traced
  have rereads : ∀ x ∈ trace.record.floats, Rereads x := by
    rw [List.isEmpty_iff.mp floatless]
    exact List.forall_mem_nil _
  refine ⟨trace, recorded, completed, fun archive => ?_⟩
  rw [TableArchive.load_of_row? ⟨began, ended, ordered, whole, rereads⟩
    (archive.row?_persist_self trace), if_neg deep]

end Pinflow.Desk
