import Pinflow.Proofs.Desk.Stopping
import Pinflow.Proofs.Walk.Faults

/-!
# Outcomes

What the outcome of an invocation can be blamed on. Whatever moves are made at a desk, an
invocation of a loaded graph of built-in kinds ends with no fault but those that its circuit
admits for the entry, and none of its actions is to blame: the node that acted wrote down
what the host had answered and went on.
-/

namespace Pinflow

open Walk (Past Dutiful Sane questions reported wayOn)

/-- Each action of a walk was followed by the writing of some answer and the return of the
executor that asked for it. -/
def Absorbed (asked : List Query) : Prop :=
  ∀ later action payload earlier, asked = later ++ .act action payload :: earlier →
    ∃ newer node answer before after, later = newer ++
      [.announce ⟨.executed node (.ok (.next (wayOn answer))), after⟩,
        .announce ⟨.stored node (reported answer), before⟩]

theorem absorbed_questions {past : Past} (obeys : History.Obeys Dutiful past)
    (free : Walk.Free past) : Absorbed (questions past) := by
  intro later action payload earlier split
  obtain ⟨front, rest, rfl, rfl, tail⟩ := List.map_eq_append_iff.mp split
  obtain ⟨⟨q, answer⟩, back, rfl, rfl, -⟩ := List.map_eq_cons_iff.mp tail
  obtain ⟨newer, node, before, after, rfl⟩ := Walk.absorbed_of_obeys obeys free rfl
  exact ⟨questions newer, node, answer, before, after, List.map_append⟩

def Query.isAct : Query → Bool
  | .act _ _ => true
  | _ => false

namespace Desk

variable {desk : Desk} {name : String} {invocation : Invocation} {identity : Identity}
  {graph : Graph} {circuit : Circuit} {request : Request} {outcome : Outcome}

/-- An invocation of a loaded graph ends with no fault but those that its circuit admits for
the entry, and no answer of the host is its fault. -/
theorem outcome_admitted (idle : desk.Idle) (moves : List Move)
    (loaded : Circuit.load Registry.builtin graph = .ok circuit)
    (entered : circuit.contains request.entry = true)
    (started : .started name identity circuit request ∈ desk.chronicle moves)
    (found : (desk.play moves).invocation? name = some invocation)
    (finished : invocation.stage = .finished outcome) :
    (∀ fault, outcome.fault = some fault → circuit.Admits request.entry fault) ∧
      Absorbed (askedBy name (desk.chronicle moves)) := by
  obtain ⟨member, named⟩ := mem_of_invocation? found
  obtain ⟨birth, past, -, standing, rest, follows, stands, -⟩ :=
    (idle.play moves).kept invocation member
  have named : birth.name = name := follows.name.symm.trans named
  obtain ⟨-, rfl, rfl⟩ := follows.once identity circuit request (named ▸ started)
  rw [finished] at stands
  cases stands with
  | finished blamed =>
    have verified : Dialogue.WP Dutiful _ birth.walk [] :=
      Walk.start_sane (Circuit.wired_of_load loaded) _ entered _
    obtain ⟨sane, obeys⟩ := verified.leads History.obeys_nil follows.course.leads
    rw [List.append_nil] at sane obeys
    constructor
    · intro fault isFault
      have ended := sane.1
      rw [(blamed fault).mp isFault] at ended
      exact ended
    · have asked := follows.course.questions_of_done trivial
      rw [named] at asked
      rw [← asked]
      exact absorbed_questions obeys sane.2

/-- An action that is refused, and then a loop over something that is no array. -/
def refusedAction : Graph where
  id := "refused"
  nodes := [
    { id := "start", kind := "on_event" },
    { id := "act", kind := "agent_action", config := [("action", .str "jump")] },
    { id := "each", kind := "for_each", config := [("array", .str "none")] }]
  edges := [
    ⟨⟨"start", "then"⟩, ⟨"act", "exec"⟩⟩, ⟨⟨"act", "failure"⟩, ⟨"each", "exec"⟩⟩]

def refusedStart : Move :=
  .start "x" ⟨"i", "s", "t"⟩ (.ofGraph refusedAction) { entry := "start" }

def faultText? (desk : Desk) (name : String) : Option String :=
  match (desk.invocation? name).map Invocation.stage with
  | some (.finished outcome) => outcome.fault.map Fault.message
  | _ => none

theorem exists_of_faultText? {text : String} (blamed : desk.faultText? name = some text) :
    ∃ invocation outcome fault, desk.invocation? name = some invocation ∧
      invocation.stage = .finished outcome ∧ outcome.fault = some fault ∧ fault.message = text := by
  rw [faultText?] at blamed
  split at blamed
  · rename_i outcome stage
    obtain ⟨invocation, found, finished⟩ := Option.map_eq_some_iff.mp stage
    obtain ⟨fault, failed, message⟩ := Option.map_eq_some_iff.mp blamed
    exact ⟨invocation, outcome, fault, found, finished, failed, message⟩
  · cases blamed

/-- The loop is to blame, not the host. -/
theorem outcome_admitted_refusedAction :
    ∃ invocation outcome fault, ((vacant []).play [refusedStart]).invocation? "x" = some invocation ∧
      invocation.stage = .finished outcome ∧ outcome.fault = some fault ∧
      fault.message = "Evaluation failed at node each: expected an array, got \"none\"" ∧
      (Circuit.ofGraph refusedAction).Admits "start" fault ∧
      (askedBy "x" ((vacant []).chronicle [refusedStart])).any Query.isAct = true ∧
      Absorbed (askedBy "x" ((vacant []).chronicle [refusedStart])) := by
  have blamed : ((vacant []).play [refusedStart]).faultText? "x" =
      some "Evaluation failed at node each: expected an array, got \"none\"" := by decide +kernel
  have acted : (askedBy "x" ((vacant []).chronicle [refusedStart])).any Query.isAct = true := by
    decide +kernel
  obtain ⟨invocation, outcome, fault, found, finished, failed, message⟩ :=
    exists_of_faultText? blamed
  have loaded : Circuit.load Registry.builtin refusedAction = .ok (.ofGraph refusedAction) := rfl
  have started : .started "x" ⟨"i", "s", "t"⟩ (.ofGraph refusedAction) { entry := "start" } ∈
      (vacant []).chronicle [refusedStart] := by
    rw [chronicle_singleton]
    exact started_mem rfl
  obtain ⟨admitted, absorbed⟩ := outcome_admitted (vacant_idle []) [refusedStart] loaded
    (by decide +kernel) started found finished
  exact ⟨invocation, outcome, fault, found, finished, failed, message, admitted fault failed, acted,
    absorbed⟩

end Desk

end Pinflow
