import Pinflow.Proofs.Circuit.Arrangement
import Pinflow.Walk.Serve

/-!
# Walks and authored order

A walk puts questions to its circuit and to nothing else that knows the graph. Over circuits
that agree it is therefore the same walk: `serve_eq` is an equation between dialogues, so it
covers every course that the surroundings can give to the walk.
-/

namespace Pinflow

/-- What is forgotten depends on which nodes are named, not on their order. -/
theorem Memo.invalidate_congr (memo : Memo) {nodes others : List String}
    (same : ∀ node, node ∈ nodes ↔ node ∈ others) :
    memo.invalidate nodes = memo.invalidate others := by
  have contains : ∀ node, nodes.contains node = others.contains node := by
    intro node
    rw [Bool.eq_iff_iff, List.contains_iff_mem, List.contains_iff_mem, same]
  simp only [Memo.invalidate, contains]

/-- Settings over circuits that agree, and equal in all else. -/
structure Setting.Agrees (setting other : Setting) : Prop where
  circuit : setting.circuit.Agrees other.circuit
  about : setting.about = other.about
  invocation : setting.invocation = other.invocation
  volatile : ∀ node, node ∈ setting.volatile ↔ node ∈ other.volatile
  maxSnapshot : setting.maxSnapshot = other.maxSnapshot

theorem Setting.agrees_of {circuit other : Circuit} (agrees : circuit.Agrees other)
    (invocation capability : String) (maxIterations maxSnapshot : Nat) :
    (Setting.of circuit invocation capability maxIterations maxSnapshot).Agrees
      (Setting.of other invocation capability maxIterations maxSnapshot) where
  circuit := agrees
  about := by simp only [Setting.of, agrees.id, agrees.name, agrees.size]
  invocation := rfl
  volatile := agrees.volatileScope
  maxSnapshot := rfl

namespace Circuit.Agrees

variable {circuit other : Circuit} (agrees : circuit.Agrees other)
include agrees

theorem part_eq (node : String) : circuit.part node = other.part node := by
  rw [part, part, agrees.part? node, agrees.id]

theorem contains_eq (node : String) : circuit.contains node = other.contains node := by
  rw [contains, contains, agrees.part? node]

end Circuit.Agrees

namespace Walk

variable {setting other : Setting} (agrees : setting.Agrees other)
include agrees

theorem checkCancelled_eq : checkCancelled setting = checkCancelled other := by
  simp only [checkCancelled, agrees.invocation]

theorem assign_eq (path : String) (value : Value) :
    assign setting path value = assign other path value := by
  simp only [assign, Memo.invalidate_congr _ agrees.volatile]

theorem reenter_eq (loop pin : String) : reenter setting loop pin = reenter other loop pin := by
  simp only [reenter, Memo.invalidate_congr _ (agrees.circuit.executed loop pin),
    Memo.invalidate_congr _ (agrees.circuit.derived loop pin)]

theorem refresh_eq (loop pin : String) : refresh setting loop pin = refresh other loop pin := by
  simp only [refresh, Memo.invalidate_congr _ (agrees.circuit.derived loop pin)]

theorem assignAll_eq (overrides : List (String × Value)) :
    assignAll setting overrides = assignAll other overrides := by
  induction overrides with
  | nil => rfl
  | cons entry rest ih => simp only [assignAll, assign_eq agrees, ih]

theorem pull_eq (inner : Server) (source : PinRef) :
    pull setting inner source = pull other inner source := by
  simp only [pull, checkCancelled_eq agrees, agrees.circuit.part_eq]

theorem output_eq (inner : Server) (source : PinRef) :
    output setting inner source = output other inner source := by
  simp only [output, pull_eq agrees]

theorem resolve_eq (inner : Server) (node pin : String) (default : Value) :
    resolve setting inner node pin default = resolve other inner node pin default := by
  simp only [resolve, agrees.circuit.incoming?, output_eq agrees, agrees.circuit.part_eq]

theorem pauseAt_eq (node : String) (hits : Nat) :
    pauseAt setting node hits = pauseAt other node hits := by
  rw [pauseAt, pauseAt, agrees.maxSnapshot]
  simp only [assignAll_eq agrees]

theorem checkpoint_eq (node : String) : checkpoint setting node = checkpoint other node := by
  simp only [checkpoint, pauseAt_eq agrees]

theorem run_eq (inner : Server) (node : String) : run setting inner node = run other inner node := by
  simp only [run, checkCancelled_eq agrees, agrees.circuit.part_eq, checkpoint_eq agrees]

theorem answer_eq (inner : Server) : answer setting inner = answer other inner := by
  funext call
  cases call with
  | input => simp only [answer, input, agrees.circuit.part_eq, resolve_eq agrees]
  | resolve => simp only [answer, resolve_eq agrees]
  | output => simp only [answer, output_eq agrees]
  | traverse =>
    simp only [answer, traverse, follow, agrees.circuit.execTarget?, run_eq agrees]
  | run => simp only [answer, run_eq agrees]
  | about => simp only [answer, agrees.about]
  | assign => simp only [answer, assign_eq agrees]
  | reenter => simp only [answer, reenter_eq agrees]
  | refresh => simp only [answer, refresh_eq agrees]
  | _ => rfl

theorem serve_eq (depth : Nat) : serve setting depth = serve other depth := by
  induction depth with
  | zero => rfl
  | succ depth ih => rw [serve, serve, ih, answer_eq agrees]

end Walk

end Pinflow
