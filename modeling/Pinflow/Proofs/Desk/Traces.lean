import Pinflow.Proofs.Desk.Pauses
import Pinflow.Proofs.Trace.Recording
import Pinflow.Proofs.Walk.Evaluations

/-!
# Traces

The trace of an invocation tells what its walk announced, and nothing else. Its steps are
the executors and evaluators that started and the exec edges that were followed, in their
order; every step holds what was given to it, what its node resolved while it was the
innermost open step of that node, and what came of it.
-/

namespace Pinflow

open Option

open Walk (Past questions moment? Nested Suits)

namespace Trace

/-- What a trace says of the inputs and outputs of a step. The last value of each pin that
was resolved for the step stands among its inputs. -/
def Holds (trace : Trace) (most : Nat) (story : Story) (number : Nat) (given gives : Value) :
    Prop :=
  ∃ (step : Step) (pins : Fields), trace.steps[number]? = some step ∧
    step.inputs = Recorder.withPins (given.bounded most) pins ∧
    (∀ pin, pins.get? pin = ((story.resolved number).find? fun entry => entry.1 == pin).map
      fun entry => entry.2.bounded most) ∧
    step.outputs = gives.bounded most

structure Recounts (trace : Trace) (circuit : Circuit) (most : Nat) (story : Story) : Prop where
  headings : trace.steps.map Step.heading = story.headings.reverse
  numbers : ∀ (i : Nat) (step : Step), trace.steps[i]? = some step → step.sequence = i
  /-- An execution holds the variables before it and those when its executor has returned. -/
  execution : ∀ {later earlier : Story} {node : String} {before : Walker},
    story = later ++ ⟨.executing node, before⟩ :: earlier →
    ∃ result after, story.Within earlier.begun ⟨.executed node result, after⟩ ∧
      trace.Holds most story earlier.begun (Recorder.recordedVars before)
        (Recorder.recordedVars after)
  /-- An evaluation holds the config of its node and the value, if there is one. -/
  evaluation : ∀ {later earlier : Story} {source : PinRef} {config : Fields} {walker : Walker},
    story = later ++ ⟨.evaluating source config, walker⟩ :: earlier →
    ∃ part result after, circuit.part? source.node = some part ∧ part.node.config = config ∧
      story.Within earlier.begun ⟨.evaluated source result, after⟩ ∧
      trace.Holds most story earlier.begun (.object [("config", .obj config)])
        (result.toOption.getD .null)
  /-- A traversal holds the edge. -/
  traversal : ∀ {later earlier : Story} {source target : PinRef} {walker : Walker},
    story = later ++ ⟨.followed source target, walker⟩ :: earlier →
    circuit.execTarget? source.node source.pin = some target ∧
      ∃ step : Step, trace.steps[earlier.begun]? = some step ∧
        step.inputs = Value.null.bounded most ∧
        step.outputs = (Value.object [("target", .str target.text)]).bounded most
  notes : trace.notes = story.notes.reverse

end Trace

namespace Moment

variable {moment : Moment} {gives : Value} {error : Option Fault}

/-- How an execution ends. -/
theorem executed_of_closing {node : String}
    (closes : moment.report = .closing (.execution node) gives error) :
    ∃ result, moment = ⟨.executed node result, moment.walker⟩ ∧
      gives = Recorder.recordedVars moment.walker := by
  obtain ⟨happening, walker⟩ := moment
  cases happening with
  | executed other result => cases result <;> cases closes <;> exact ⟨_, rfl, rfl⟩
  | evaluated source result =>
    cases result <;> cases congrArg Heading.kind (Report.closing.inj closes).1
  | _ => cases closes

/-- How an evaluation ends. -/
theorem evaluated_of_closing {source : PinRef}
    (closes : moment.report = .closing (.evaluation source) gives error) :
    ∃ result, moment = ⟨.evaluated source result, moment.walker⟩ ∧
      gives = result.toOption.getD .null := by
  obtain ⟨happening, walker⟩ := moment
  cases happening with
  | evaluated other result =>
    obtain ⟨otherNode, otherPin⟩ := other
    cases result <;> cases closes <;> exact ⟨_, rfl, rfl⟩
  | executed node result =>
    cases result <;> cases congrArg Heading.kind (Report.closing.inj closes).1
  | _ => cases closes

/-- What ends is the innermost open step. -/
theorem innermost_of_closing {circuit : Circuit} {earlier : Story} {heading : Heading}
    (suits : Suits circuit earlier moment.happening)
    (closes : moment.report = .closing heading gives error) :
    earlier.opened.head?.map Prod.fst = some heading := by
  obtain ⟨happening, walker⟩ := moment
  cases happening with
  | evaluated source result | executed node result => cases result <;> cases closes <;> exact suits
  | _ => cases closes

end Moment

namespace Story

variable {circuit : Circuit} {story later earlier : Story} {start : Moment} {heading : Heading}
  {given : Value}

/-- Where no step is open any more, every step that began has ended. -/
theorem exists_ending (nested : Nested circuit story) (ended : story.opened = [])
    (opens : start.report = .opening heading given)
    (split : story = later ++ start :: earlier) :
    ∃ after ending inside gives error, story = after ++ ending :: (inside ++ start :: earlier) ∧
      ending.report = .closing heading gives error ∧
      opened (inside ++ start :: earlier) = (heading, begun earlier) :: opened earlier := by
  have closed : ¬ StillOpen (begun earlier) (later ++ start :: earlier) := by
    rw [StillOpen, ← split, ended]
    exact List.not_mem_nil
  obtain ⟨after, ending, inside, other, gives, error, rfl, closes, stack⟩ :=
    exists_closing opens closed
  rw [List.append_assoc, List.cons_append] at split
  have first := Moment.innermost_of_closing (nested _ _ _ split) closes
  rw [stack] at first
  cases first
  exact ⟨after, ending, inside, gives, error, split, closes, stack⟩

end Story

namespace Recorder

variable {circuit : Circuit} {most : Nat} {story : Story} {head : Trace} {now : Instant}
  {fault : Option Fault}

/-- The recording of a whole story has the steps of the story. -/
theorem headings_finalize (most : Nat) (story : Story) (head : Trace) (now : Instant)
    (fault : Option Fault) :
    ((hear { most } story).finalize head now fault).steps.map Step.heading =
      story.headings.reverse := by
  have tracks := tracks_hear most story
  apply List.ext_getElem?
  intro i
  rw [List.getElem?_map, getElem?_finalize, map_map]
  cases holds : (hear { most } story).steps[i]? with
  | none =>
    have beyond := Array.getElem?_eq_none_iff.mp holds
    rw [tracks.size, Story.begun] at beyond
    exact (List.getElem?_eq_none (by rwa [List.length_reverse])).symm
  | some =>
    rw [map_some, Function.comp_apply, blame_eq]
    exact (tracks.labels holds).2.symm

/-- A step that has ended, at the end of the recording. -/
theorem holds_finalize {start ending : Moment} {heading other : Heading} {given gives : Value}
    {error : Option Fault} {after inside earlier : Story}
    (opens : start.report = .opening heading given)
    (closes : ending.report = .closing other gives error)
    (isInnermost : Story.opened (inside ++ start :: earlier) =
      (heading, earlier.begun) :: earlier.opened) :
    ((hear { most } (after ++ ending :: (inside ++ start :: earlier))).finalize head now
      fault).Holds most (after ++ ending :: (inside ++ start :: earlier)) earlier.begun given
        gives := by
  have kept := getElem?_finalize
    (hear { most } (after ++ ending :: (inside ++ start :: earlier))) head now fault earlier.begun
  rw [hear_closed opens closes isInnermost, map_some, blame_eq] at kept
  exact ⟨_, _, kept, rfl, get?_pinsOf most _ _, rfl⟩

/-- The recording of a story in which every step has ended tells the story. -/
theorem recounts_finalize (most : Nat) (head : Trace) (now : Instant) (fault : Option Fault)
    (nested : Nested circuit story) (ended : story.opened = []) :
    ((hear { most } story).finalize head now fault).Recounts circuit most story := by
  have tracks := tracks_hear most story
  refine ⟨headings_finalize most story head now fault, ?_, ?_, ?_, ?_, ?_⟩
  · intro i step holds
    rw [getElem?_finalize] at holds
    obtain ⟨recorded, held, rfl⟩ := map_eq_some_iff.mp holds
    rw [blame_eq]
    exact (tracks.labels held).1
  · intro later earlier node before split
    obtain ⟨after, ending, inside, gives, error, rfl, closes, stack⟩ :=
      Story.exists_ending nested ended rfl split
    obtain ⟨result, same, rfl⟩ := Moment.executed_of_closing closes
    refine ⟨result, ending.walker, ?_, holds_finalize rfl closes stack⟩
    rw [← same]
    exact ⟨after, _, _, rfl, congrArg List.head? stack⟩
  · intro later earlier source config walker split
    obtain ⟨part, found, isConfig⟩ := nested later _ earlier split
    obtain ⟨after, ending, inside, gives, error, rfl, closes, stack⟩ :=
      Story.exists_ending nested ended rfl split
    obtain ⟨result, same, rfl⟩ := Moment.evaluated_of_closing closes
    refine ⟨part, result, ending.walker, found, isConfig, ?_, holds_finalize rfl closes stack⟩
    rw [← same]
    exact ⟨after, _, _, rfl, congrArg List.head? stack⟩
  · intro later earlier source target walker split
    have edge : circuit.execTarget? source.node source.pin = some target :=
      nested later _ earlier split
    have kept := getElem?_finalize (hear { most } story) head now fault earlier.begun
    rw [split, hear_edge rfl, map_some, blame_eq, ← split] at kept
    refine ⟨edge, _, kept, ?_, ?_⟩
    · rw [edgeStep]
    · rw [edgeStep]
  · rw [notes_finalize, tracks.notes]

end Recorder

/-- What is on record of what an invocation announced, latest first. -/
def storyOf (name : String) (log : List Deed) : Story := (askedBy name log).filterMap moment?

theorem recorded_eq (first : Option Recorder) (asked : List Query) :
    recorded first asked = first.map fun recorder => recorder.hear (asked.filterMap moment?) := by
  induction asked with
  | nil => exact map_id'.symm
  | cons q asked ih =>
    cases q with
    | announce =>
      rw [recorded, ih, map_map]
      rfl
    | _ => exact ih

/-- The walk of an invocation ends the steps that it begins. -/
theorem Invocation.origin_nests (settings : EngineSettings) (circuit : Circuit)
    (identity : Identity) (request : Request) :
    Dialogue.WP (Walk.Regular (.of circuit identity.invocation request.capability.name
        settings.maxIterations settings.maxSnapshot) [])
      (fun _ past => (Walk.story past).opened = []) (origin settings circuit identity request) [] :=
  (Walk.start_regular ..).mono (fun _ _ regular => regular) fun _ _ poised => poised.opened

namespace Desk

variable {desk : Desk} {name : String} {invocation : Invocation} {identity : Identity}
  {circuit : Circuit} {request : Request} {outcome : Outcome}

/-- An invocation that has finished has come to the end of its walk, and its trace is the
recording of what the walk announced. -/
theorem Idle.finished_walk (idle : desk.Idle) (moves : List Move)
    (started : .started name identity circuit request ∈ desk.chronicle moves)
    (found : (desk.play moves).invocation? name = some invocation)
    (finished : invocation.stage = .finished outcome) :
    ∃ past result walker,
      (Invocation.origin desk.settings circuit identity request).Leads past
        (Dialogue.done (result, walker)) ∧
      (∀ fault, outcome.fault = some fault ↔ result = .error fault) ∧
      storyOf name (desk.chronicle moves) = Walk.story past ∧
      ∃ head now, outcome.trace = (request.recorder desk.settings).map fun recorder =>
        (recorder.hear (Walk.story past)).finalize head now outcome.fault := by
  obtain ⟨other, past, isFound, standing, rest, follows, stands, -⟩ := idle.kept_of_started started
  obtain rfl := some.inj (found.symm.trans isFound)
  rw [finished] at stands
  cases stands with
  | @finished _ result walker blamed =>
    have asked : questions past = askedBy name (desk.chronicle moves) :=
      follows.course.questions_of_done trivial
    have told : storyOf name (desk.chronicle moves) = Walk.story past := by
      rw [storyOf, ← asked, questions, List.filterMap_map]
      rfl
    have leads := follows.course.leads
    obtain ⟨head, now, recorded⟩ := follows.heard outcome finished
    refine ⟨past, result, walker, leads, blamed, told, head, now, ?_⟩
    rw [recorded, asked, recorded_eq, map_map, ← told]
    rfl

/-- The trace of an invocation tells what its walk announced. -/
theorem trace_recounts_announcements (idle : desk.Idle) (moves : List Move)
    (started : .started name identity circuit request ∈ desk.chronicle moves)
    (found : (desk.play moves).invocation? name = some invocation)
    (finished : invocation.stage = .finished outcome)
    (traced : request.traced.getD desk.settings.traceByDefault = true) :
    ∃ trace, outcome.trace = some trace ∧
      trace.Recounts circuit desk.settings.maxSnapshot
        (storyOf name (desk.chronicle moves)) := by
  obtain ⟨past, result, walker, leads, -, told, head, now, recorded⟩ :=
    idle.finished_walk moves started found finished
  rw [Request.recorder, if_pos traced, map_some] at recorded
  refine ⟨_, recorded, ?_⟩
  obtain ⟨ended, obeys⟩ :=
    (Invocation.origin_nests _ _ _ _).leads History.obeys_nil leads
  rw [List.append_nil] at ended obeys
  rw [told]
  exact Recorder.recounts_finalize _ head now outcome.fault (Walk.nested_of_obeys obeys) ended

def computedRemark : Graph where
  id := "g"
  nodes := [
    { id := "start", kind := "on_event" },
    { id := "one", kind := "constant", config := [("value", .int 1)] },
    { id := "list", kind := "make_array", config := [("arity", .int 1)] },
    { id := "say", kind := "log" }]
  edges := [
    ⟨⟨"start", "then"⟩, ⟨"say", "exec"⟩⟩, ⟨⟨"one", "value"⟩, ⟨"list", "item_0"⟩⟩,
    ⟨⟨"list", "array"⟩, ⟨"say", "message"⟩⟩]

def tracedRequest : Request := { entry := "start", traced := some true }

def tracedStart (graph : Graph) : Move :=
  .start "x" ⟨"i", "s", "t"⟩ (.ofGraph graph) tracedRequest

theorem tracedStart_mem (graph : Graph) :
    .started "x" ⟨"i", "s", "t"⟩ (.ofGraph graph) tracedRequest ∈
      (vacant []).chronicle [tracedStart graph] := by
  rw [chronicle_singleton]
  exact started_mem rfl

def outcome? (desk : Desk) (name : String) : Option Outcome :=
  match (desk.invocation? name).map Invocation.stage with
  | some (.finished outcome) => some outcome
  | _ => none

theorem exists_of_outcome? (ended : desk.outcome? name = some outcome) :
    ∃ invocation, desk.invocation? name = some invocation ∧
      invocation.stage = .finished outcome := by
  rw [outcome?] at ended
  split at ended
  · rename_i stage
    cases ended
    exact map_eq_some_iff.mp stage
  · cases ended

/-- The two evaluations lie inside the execution of the node that remarks. -/
theorem trace_recounts_computedRemark :
    ∃ invocation outcome trace,
      ((vacant []).play [tracedStart computedRemark]).invocation? "x" = some invocation ∧
      invocation.stage = .finished outcome ∧ outcome.trace = some trace ∧
      trace.steps.map Step.heading = [
        .execution "start", .traversal ⟨"start", "then"⟩, .execution "say",
        .evaluation ⟨"list", "array"⟩, .evaluation ⟨"one", "value"⟩] ∧
      trace.Recounts (.ofGraph computedRemark) 16384
        (storyOf "x" ((vacant []).chronicle [tracedStart computedRemark])) := by
  have traced : ((((vacant []).play [tracedStart computedRemark]).outcome? "x").bind
      fun outcome => outcome.trace.map fun trace => trace.steps.map Step.heading) = some [
        .execution "start", .traversal ⟨"start", "then"⟩, .execution "say",
        .evaluation ⟨"list", "array"⟩, .evaluation ⟨"one", "value"⟩] := by decide +kernel
  obtain ⟨outcome, ended, held⟩ := bind_eq_some_iff.mp traced
  obtain ⟨trace, isTrace, headings⟩ := map_eq_some_iff.mp held
  obtain ⟨invocation, found, finished⟩ := exists_of_outcome? ended
  obtain ⟨other, same, recounts⟩ := trace_recounts_announcements (vacant_idle [])
    [tracedStart computedRemark] (tracedStart_mem computedRemark) found finished rfl
  obtain rfl := some.inj (isTrace.symm.trans same)
  exact ⟨invocation, outcome, trace, found, finished, isTrace, headings, recounts⟩

end Desk

end Pinflow
