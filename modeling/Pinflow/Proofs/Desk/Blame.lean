import Pinflow.Proofs.Desk.Traces
import Pinflow.Proofs.Trace.Blame

/-!
# Who is to blame

The trace of an invocation that failed says that it did, and with what. It blames the steps
that were open when the fault was raised, or else the last step that had begun, which for a
break outside of any loop is the node that broke. The trace of an invocation that completed
blames nobody.
-/

namespace Pinflow

/-- What an invocation of built-in kinds tells agrees with its result. -/
theorem Invocation.origin_tells {circuit : Circuit}
    (wired : Circuit.Wired Registry.builtin circuit) (settings : EngineSettings)
    (identity : Identity) (request : Request) :
    Dialogue.WP (fun _ _ => True)
      (fun result past => Walk.Fared (fun past => (Walk.story past).Flawless)
        (fun fault past => ∃ before, (Walk.story past).Raises before fault) result.1 result.2 past)
      (origin settings circuit identity request) [] :=
  (Walk.outlook_story _).start wired _ _ _ (List.forall_mem_nil _)

namespace Desk

variable {desk : Desk} {name : String} {invocation : Invocation} {identity : Identity}
  {graph : Graph} {circuit : Circuit} {request : Request} {outcome : Outcome}

/-- The trace of an invocation of a loaded graph blames the steps that were open when its
fault was raised, or else the last one that had begun; without a fault it blames nobody. -/
theorem trace_blames_open_steps (idle : desk.Idle) (moves : List Move)
    (loaded : Circuit.load Registry.builtin graph = .ok circuit)
    (started : .started name identity circuit request ∈ desk.chronicle moves)
    (found : (desk.play moves).invocation? name = some invocation)
    (finished : invocation.stage = .finished outcome)
    (traced : request.traced.getD desk.settings.traceByDefault = true) :
    ∃ trace, outcome.trace = some trace ∧
      (∀ fault, outcome.fault = some fault →
        ∃ before, (storyOf name (desk.chronicle moves)).Raises before fault ∧
          trace.Blames before fault ∧
          ∀ origin, fault = .breakOutsideLoop origin →
            before.opened = [] ∧ circuit.isOf Kinds.breaks origin = true ∧
              trace.steps.getLast?.map Step.heading = some (.execution origin)) ∧
      (outcome.fault = none → trace.Spotless) := by
  have wired := Circuit.wired_of_load loaded
  obtain ⟨past, result, walker, leads, blamed, told, head, now, recorded⟩ :=
    idle.finished_walk moves started found finished
  rw [Request.recorder, if_pos traced, Option.map_some] at recorded
  obtain ⟨ended, -⟩ := (Invocation.origin_nests _ _ _ _).leads History.obeys_nil leads
  obtain ⟨fared, -⟩ := (Invocation.origin_tells wired _ _ _).leads History.obeys_nil leads
  rw [List.append_nil] at ended fared
  rw [told]
  refine ⟨_, recorded, fun fault failed => ?_, fun none => ?_⟩
  · rw [failed] at recorded ⊢
    obtain rfl := (blamed fault).mp failed
    obtain ⟨before, raises⟩ := fared
    refine ⟨before, raises, Recorder.blames_finalize _ head now raises ended, ?_⟩
    rintro origin rfl
    obtain ⟨rfl, last, isBreak⟩ := Walk.break_raised_last wired leads raises
    refine ⟨ended, isBreak, ?_⟩
    rw [← List.getLast?_map, Recorder.headings_finalize, List.getLast?_reverse]
    exact last
  · rw [none]
    cases result with
    | error fault =>
      rw [(blamed fault).mpr rfl] at none
      cases none
    | ok => exact Recorder.spotless_finalize _ head now fared ended

def failingSum : Graph where
  id := "g"
  nodes := [
    { id := "start", kind := "on_event" },
    { id := "sum", kind := "math", config := [("a0", .str "x")] },
    { id := "say", kind := "log" }]
  edges := [⟨⟨"start", "then"⟩, ⟨"say", "exec"⟩⟩, ⟨⟨"sum", "result"⟩, ⟨"say", "message"⟩⟩]

/-- What an invocation failed with, and what its steps carry. -/
def errors? (desk : Desk) (name : String) : Option (String × List (Option String)) :=
  (desk.outcome? name).bind fun outcome => outcome.fault.bind fun fault =>
    outcome.trace.map fun trace => (fault.message, trace.steps.map Step.error)

/-- The remark and the sum were open, and both are to blame. -/
theorem trace_blames_failingSum :
    ∃ invocation outcome trace fault before,
      ((vacant []).play [tracedStart failingSum]).invocation? "x" = some invocation ∧
      invocation.stage = .finished outcome ∧ outcome.trace = some trace ∧
      outcome.fault = some fault ∧
      trace.steps.map Step.error = [none, none,
        some "Evaluation failed at node sum: operand a0 is not a number: \"x\"",
        some "Evaluation failed at node sum: operand a0 is not a number: \"x\""] ∧
      (storyOf "x" ((vacant []).chronicle [tracedStart failingSum])).Raises before fault ∧
      trace.Blames before fault := by
  have failed : ((vacant []).play [tracedStart failingSum]).errors? "x" =
      some ("Evaluation failed at node sum: operand a0 is not a number: \"x\"", [none, none,
        some "Evaluation failed at node sum: operand a0 is not a number: \"x\"",
        some "Evaluation failed at node sum: operand a0 is not a number: \"x\""]) := by decide +kernel
  obtain ⟨outcome, ended, blamed⟩ := Option.bind_eq_some_iff.mp failed
  obtain ⟨fault, isFault, recorded⟩ := Option.bind_eq_some_iff.mp blamed
  obtain ⟨trace, isTrace, same⟩ := Option.map_eq_some_iff.mp recorded
  obtain ⟨invocation, found, finished⟩ := exists_of_outcome? ended
  have loaded : Circuit.load Registry.builtin failingSum = .ok (.ofGraph failingSum) := rfl
  obtain ⟨other, isOther, blames, -⟩ := trace_blames_open_steps (vacant_idle [])
    [tracedStart failingSum] loaded (tracedStart_mem failingSum) found finished rfl
  obtain rfl := Option.some.inj (isTrace.symm.trans isOther)
  obtain ⟨before, raises, blames, -⟩ := blames fault isFault
  exact ⟨invocation, outcome, trace, fault, before, found, finished, isTrace, isFault,
    congrArg Prod.snd same, raises, blames⟩

def looseBreak : Graph where
  id := "g"
  nodes := [{ id := "start", kind := "on_event" }, { id := "out", kind := "break_loop" }]
  edges := [⟨⟨"start", "then"⟩, ⟨"out", "exec"⟩⟩]

example : ((vacant []).play [tracedStart looseBreak]).errors? "x" =
    some ("Break signal raised by node out outside of any loop",
      [none, none, some "Break signal raised by node out outside of any loop"]) := by
  decide +kernel

end Desk

end Pinflow
