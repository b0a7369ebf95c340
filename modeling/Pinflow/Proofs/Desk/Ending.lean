import Pinflow.Proofs.Desk.Transparency
import Pinflow.Proofs.Walk.Ending
import Pinflow.Proofs.Walk.Entering

/-!
# Invocations come to their end

An invocation over nodes of the built-in kinds whose control edges form no circle comes to an
outcome if there is no breakpoint for its graph and the host answers whenever it is asked.
Between two answers it never rests: without a breakpoint it does not pause, and it does not
nest too deep.
-/

namespace Pinflow

open Invocation

open Walk (Past Bounded Entering Away)

namespace Circuit

/-- Control goes on and on if every edge leads to a node of higher rank. -/
theorem onward_of_rank {circuit : Circuit} (rank : String → Nat)
    (rises : ∀ edge ∈ circuit.execEdges, rank edge.source.node < rank edge.target.node) :
    circuit.Onward := by
  have climbs : ∀ {node next}, Relation.TransGen circuit.LeadsTo node next →
      rank node < rank next := by
    intro node next path
    induction path with
    | single leads =>
      obtain ⟨edge, member, rfl, rfl⟩ := leads
      exact rises edge member
    | tail _ leads ih =>
      obtain ⟨edge, member, rfl, rfl⟩ := leads
      exact ih.trans (rises edge member)
  intro node circle
  exact absurd (climbs circle) (Nat.lt_irrefl _)

end Circuit

def Surroundings.Clear (graph : String) (world : Surroundings) : Prop :=
  ∀ node, world.debugger.breakpoints.find? graph node = none

theorem Surroundings.Clear.visit {graph : String} {world : Surroundings} (clear : world.Clear graph)
    (node : String) (vars : Fields) :
    world.debugger.visit graph node vars = (none, world.debugger) := by
  rw [Debugger.visit, Breakpoints.visit, clear node]

namespace Walk

/-- No breakpoint has stopped a walk so far. -/
def Unbroken (past : Past) : Prop :=
  ∀ node vars hits, (⟨.visit node vars, some hits⟩ : Exchange Query.interface) ∉ past

theorem Unbroken.cons {past : Past} {q : Query} {answer : q.Answer} (unbroken : Unbroken past)
    (passes : ∀ node vars hits, (⟨.visit node vars, some hits⟩ : Exchange Query.interface) ≠
      ⟨q, answer⟩) : Unbroken (⟨q, answer⟩ :: past) := by
  intro node vars hits member
  rcases List.mem_cons.mp member with same | member
  · exact passes node vars hits same
  · exact unbroken node vars hits member

/-- A walk that no breakpoint has stopped does not pause. -/
theorem Unbroken.not_pause {setting : Setting} {first : Walker} {past : Past} {q : Query}
    (unbroken : Unbroken past) (entering : Entering setting first q past) : ¬ q.Pauses := by
  intro pauses
  have expected := entering.expected
  cases here : threshold first past with
  | away =>
    rw [here] at expected
    cases q with
    | pause => exact expected trivial
    | _ => exact pauses
  | stopped node hits =>
    obtain ⟨opening, vars, older, split, -⟩ := exists_visit_of_stopped here
    exact unbroken node vars hits (split ▸ List.mem_append_cons_self)
  | passed node walker left =>
    rw [here] at expected
    cases left with
    | nil =>
      obtain rfl : q = .isCancelled := expected
      exact pauses
    | cons =>
      obtain rfl : q = .announce _ := expected
      exact pauses
  | cleared =>
    rw [here] at expected
    obtain rfl : q = .announce _ := expected
    exact pauses

end Walk

namespace Desk

variable {setting : Setting} {first : Walker} {name graph : String}

/-- An invocation that is being driven finishes when the host has answered often enough. -/
theorem exists_finished_of_drive {run : Run} {past : Past} {invocation : Invocation}
    {world : Surroundings} {desk : Desk}
    (bounded : Dialogue.WP Bounded (fun _ _ => True) run past)
    (enters : Dialogue.WP (Entering setting first) (fun _ past => Away first past) run past)
    (unbroken : Walk.Unbroken past) (same : invocation.graph = graph) (clear : world.Clear graph)
    (found : desk.invocation? name = some (invocation.drive world run).1)
    (left : desk.world = (invocation.drive world run).2) (host : Nat → Except Fault Value) :
    ∃ rounds latest outcome,
      (desk.play (replay name ((List.range rounds).map host))).invocation? name = some latest ∧
        latest.stage = .finished outcome := by
  induction run generalizing past invocation world desk host with
  | done result =>
    obtain ⟨result, walker⟩ := result
    obtain ⟨archive, finished⟩ := invocation.finish_eq world result walker
    exact ⟨0, _, _, found, rfl⟩
  | ask q next ih =>
    have speaks := unbroken.not_pause enters.1
    rcases invocation.drive_cases world q next with
      ⟨answer, after, world', deeds, reply, drives, -⟩ | ⟨after, world', deeds, wait, drives, -⟩
    · -- The question is answered at once, and no breakpoint stops the walk.
      rw [drives] at found left
      have passes : ∀ node vars hits, (⟨.visit node vars, some hits⟩ : Exchange Query.interface) ≠
          ⟨q, answer⟩ := by
        intro node vars hits same
        cases reply with
        | visit =>
          rw [‹invocation.graph = graph›, clear.visit] at same
          cases same
        | _ => cases same
      have kept : after.graph = graph ∧ world'.Clear graph := by
        cases reply with
        | visit =>
          refine ⟨same, ?_⟩
          rw [same, clear.visit]
          exact clear
        | refused | impatient => exact absurd trivial speaks
        | acts =>
          rw [invocation.noteCall_eq]
          exact ⟨same, clear⟩
        | _ => exact ⟨same, clear⟩
      exact ih answer (bounded.2 answer) (enters.2 answer) (unbroken.cons passes) kept.1 kept.2
        found left host
    · rw [drives] at found left
      cases wait with
      | pauses => exact absurd trivial speaks
      | exhausted => exact absurd rfl bounded.1
      | @acts action payload =>
        obtain ⟨isFound, isLeft⟩ := play_replay_singleton found rfl rfl (host 0)
        rw [left] at isFound isLeft
        have passes : ∀ node vars hits,
            (⟨.visit node vars, some hits⟩ : Exchange Query.interface) ≠
              ⟨.act action payload, host 0⟩ := by
          intro node vars hits same
          cases same
        obtain ⟨rounds, latest, outcome, isLatest, finished⟩ :=
          ih (host 0) (bounded.2 (host 0)) (enters.2 (host 0)) (unbroken.cons passes)
            (by rw [invocation.noteCall_eq]; exact same) clear isFound isLeft fun round =>
              host (round + 1)
        refine ⟨rounds + 1, latest, outcome, ?_, finished⟩
        rw [List.range_succ_eq_map, List.map_cons, List.map_map, ← List.singleton_append,
          replay_append, play_append]
        exact isLatest

/-- Control that goes in no circle comes to its end. Whatever a walk is answered, it returns;
and an invocation without a breakpoint for its graph comes to an outcome when the host has
answered often enough. -/
theorem exists_outcome_of_onward {desk : Desk} {graph : Graph} {circuit : Circuit}
    (loaded : Circuit.load Registry.builtin graph = .ok circuit) (onward : circuit.Onward)
    {identity : Identity} (admits : desk.admits name identity = true) {request : Request}
    (present : circuit.contains request.entry = true) (clear : desk.world.Clear circuit.id)
    (host : Nat → Except Fault Value) :
    Walk.Returns (origin desk.settings circuit identity request) ∧
    ∃ rounds latest outcome,
      ((desk.make (.start name identity circuit request)).play
        (replay name ((List.range rounds).map host))).invocation? name = some latest ∧
      latest.stage = .finished outcome := by
  have wired := Circuit.wired_of_load loaded
  let setting := Setting.of circuit identity.invocation request.capability.name
    desk.settings.maxIterations desk.settings.maxSnapshot
  let context : Context := { args := request.args, event := request.event }
  have deep : 2 * setting.circuit.parts.length < nesting circuit := by
    rw [nesting]
    exact Nat.lt_add_of_pos_left (Nat.succ_pos _)
  let walk : Run := Walk.start setting (nesting circuit) request.entry context
  have bounded : Dialogue.WP Bounded (fun _ _ => True) walk [] :=
    Walk.start_bounded wired onward present deep context
  refine ⟨Walk.returns_of_bounded bounded, ?_⟩
  have enters : Dialogue.WP (Entering setting { context }) (fun _ past => Away { context } past)
      walk [] := Walk.start_enters wired _ _ _
  have found := invocation?_make_start admits circuit request
  have left : (desk.make (.start name identity circuit request)).world =
      (begin desk.settings desk.world circuit name identity request).2 := by
    rw [make_start_of_admits admits]
  rw [begin_eq, if_pos present] at found left
  refine exists_finished_of_drive bounded enters ?_ rfl clear found left host
  exact fun _ _ _ member => absurd member List.not_mem_nil

/-- A loop whose condition stays true, around a loop with an action that waits for the host,
and two nodes that read each other. -/
def endlessCondition : Graph where
  id := "g"
  nodes := [
    { id := "start", kind := "on_event" },
    { id := "forever", kind := "while_loop", config := [("condition", .bool true)] },
    { id := "list", kind := "constant", config := [("value", .arr [.int 1, .int 2])] },
    { id := "each", kind := "for_each" },
    { id := "act", kind := "agent_action", config := [("action", .str "wait")] },
    { id := "left", kind := "make_array", config := [("arity", .int 1)] },
    { id := "right", kind := "make_array", config := [("arity", .int 1)] },
    { id := "say", kind := "log" }]
  edges := [
    ⟨⟨"start", "then"⟩, ⟨"forever", "exec"⟩⟩, ⟨⟨"forever", "loop_body"⟩, ⟨"each", "exec"⟩⟩,
    ⟨⟨"list", "value"⟩, ⟨"each", "array"⟩⟩, ⟨⟨"each", "loop_body"⟩, ⟨"act", "exec"⟩⟩,
    ⟨⟨"act", "success"⟩, ⟨"say", "exec"⟩⟩, ⟨⟨"left", "array"⟩, ⟨"right", "item_0"⟩⟩,
    ⟨⟨"right", "array"⟩, ⟨"left", "item_0"⟩⟩, ⟨⟨"right", "array"⟩, ⟨"say", "message"⟩⟩]

theorem exists_outcome_of_endlessCondition :
    ∃ rounds latest outcome,
      (((Desk.vacant []).make (.start "x" ⟨"i", "s", "t"⟩ (.ofGraph endlessCondition)
        { entry := "start", capability := .gate })).play
          (replay "x" ((List.range rounds).map fun _ => .ok (.int 1)))).invocation? "x" =
        some latest ∧
      latest.stage = .finished outcome := by
  have loaded : Circuit.load Registry.builtin endlessCondition = .ok (.ofGraph endlessCondition) :=
    rfl
  have onward : (Circuit.ofGraph endlessCondition).Onward := by
    apply Circuit.onward_of_rank (["start", "forever", "each", "act", "say"].idxOf ·)
    decide
  exact (exists_outcome_of_onward loaded onward rfl rfl (fun _ => rfl) fun _ => .ok (.int 1)).2

end Desk

end Pinflow
