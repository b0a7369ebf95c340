import Pinflow.Proofs.Circuit.Wired
import Pinflow.Proofs.Kinds.Conduct
import Pinflow.Proofs.Walk.Upkeep

/-!
# Faults of a walk

A walk over a loaded circuit of built-in kinds does not go wrong: what was checked when the
circuit was loaded is not found missing when the circuit runs. The faults left are those of
values, of cycles, of breaks outside of loops and of stops, and a node that only computes
fails to execute if the walk starts there.

An answer of the host is never the fault of a walk. The acting node writes it to its outputs
and goes on, whatever the answer was.
-/

namespace Pinflow

open Circuit Kinds List

variable {past : Past} {part : Part} {payload : Value} {action node entry pin : String}
  {source : PinRef}

/-- The faults that a walk from an entry may end with. -/
def Circuit.Admits (circuit : Circuit) (entry : String) : Fault → Prop
  | .evaluation node (.kindNotExecutable kind) =>
    node = entry ∧ circuit.isOf pureData entry = true ∧
      (circuit.part? entry).map (fun part => part.kind.id) = some kind
  | .evaluation node cause => circuit.isOf cause.raisers node = true
  | .missingInput node pin => circuit.isOf actions node = true ∧ pin = "action"
  | .cycle _ _ | .breakOutsideLoop _ | .stopped _ => True
  | _ => False

/-- Faults of a node's own making. -/
theorem Circuit.admits_evaluation {circuit : Circuit} (entry : String)
    (found : circuit.part? node = some part) (cause : Mishap) (known : part.kind ∈ cause.raisers) :
    circuit.Admits entry (.evaluation part.node.id cause) := by
  rw [id_of_part? found]
  have isOf := isOf_of_mem found known
  cases cause <;> first | exact isOf | cases known

namespace Walk

/-- What a node writes when the host has answered it. -/
def reported : Except Fault Value → List (String × Value)
  | .ok result => [("result", result), ("error", .null)]
  | .error fault => [("result", .null), ("error", .str fault.message)]

/-- Where a node goes on when the host has answered it. -/
def wayOn : Except Fault Value → String
  | .ok _ => "success"
  | .error _ => "failure"

/-- After an answer of the host the walk is bound to write it down, and then to return from
the executor that asked for it. -/
def Dutiful (q : Query) : Past → Prop
  | ⟨.act _ _, answer⟩ :: _ =>
    ∃ node walker, q = .announce ⟨.stored node (reported answer), walker⟩
  | ⟨.announce ⟨.stored node _, _⟩, _⟩ :: ⟨.act _ _, answer⟩ :: _ =>
    ∃ walker, q = .announce ⟨.executed node (.ok (.next (wayOn answer))), walker⟩
  | _ => True

/-- The walk is bound to nothing. -/
def Free (past : Past) : Prop := ∀ q, Dutiful q past

theorem free_nil : Free [] := fun _ => trivial

theorem not_free_act {answer : Except Fault Value} :
    ¬ Free (⟨.act action payload, answer⟩ :: past) := by
  intro free
  obtain ⟨node, walker, impossible⟩ := free .isCancelled
  cases impossible

/-- Questions that put no action leave a walk bound to nothing. -/
theorem Free.cons (free : Free past) (q : Query) (answer : q.Answer)
    (idle : ∀ action payload, q ≠ .act action payload) : Free (⟨q, answer⟩ :: past) := by
  intro next
  cases q with
  | act action payload => exact absurd rfl (idle action payload)
  | announce moment =>
    obtain ⟨happening, walker⟩ := moment
    cases happening with
    | stored =>
      rcases past with _ | ⟨⟨q, reply⟩, past⟩
      · trivial
      · cases q with
        | act => exact absurd free not_free_act
        | _ => trivial
    | _ => trivial
  | _ => trivial

theorem Free.told (free : Free past) (happening : Happening) (walker : Walker) :
    Free (Walk.told happening walker :: past) :=
  free.cons (.announce ⟨happening, walker⟩) () (by simp)

/-- In a free past an action was followed by the writing of its answer and the return of
its executor. -/
theorem absorbed_of_obeys (obeys : History.Obeys Dutiful past) (free : Free past)
    {later earlier : Past} {answer : Except Fault Value}
    (split : past = later ++ ⟨.act action payload, answer⟩ :: earlier) :
    ∃ newer node before after, later = newer ++
      [told (.executed node (.ok (.next (wayOn answer)))) after,
        told (.stored node (reported answer)) before] := by
  rcases eq_nil_or_concat later with rfl | ⟨later, ⟨q, reply⟩, rfl⟩
  · rw [split] at free
    exact absurd free not_free_act
  · rw [concat_eq_append, append_assoc] at split
    obtain ⟨node, before, rfl⟩ := obeys later q reply _ split
    rcases eq_nil_or_concat later with rfl | ⟨later, ⟨q, reply'⟩, rfl⟩
    · rw [split] at free
      obtain ⟨_, impossible⟩ := free .isCancelled
      cases impossible
    · rw [concat_eq_append, append_assoc] at split
      obtain ⟨after, rfl⟩ := obeys later q reply' _ split
      refine ⟨later, node, before, after, ?_⟩
      rw [concat_eq_append, concat_eq_append, append_assoc]
      rfl

/-- Calls that a walk over a loaded circuit has to answer: inputs are declared, and control
enters a node that only computes at the entry only. -/
def Proper (circuit : Circuit) (entry : String) : Call → Prop
  | .input node pin =>
    ∃ part, circuit.part? node = some part ∧ (part.schema.input? pin).isSome = true
  | .run node =>
    ∃ part, circuit.part? node = some part ∧ (part.kind ∈ pureData → node = entry)
  | .resolve _ _ _ | .output _ | .act _ _ => False
  | _ => True

/-- A server whose faults a walk from the entry may end with. -/
structure Sound (circuit : Circuit) (entry : String) (inner : Server) : Prop where
  call : ∀ c walker past, Proper circuit entry c → Free past →
    WP Dutiful (inner c) (fun answer _ past =>
      Grants (circuit.Admits entry) c answer ∧ Free past) walker past
  act : ∀ node action payload walker past, Free past →
    WP Dutiful (inner (.act action payload)) (fun answer walker after =>
      after = ⟨.act action payload, answer⟩ :: past ∧
        WP Dutiful (inner (.store node (reported answer))) (fun _ _ last =>
          ∃ told, last = Walk.told (.stored node (reported answer)) told :: after)
          walker after) walker past

/-- An executor may end here with this result. -/
def Concludes (circuit : Circuit) (entry node : String) (part : Part) (result : Except Fault Flow)
    (_ : Walker) (past : Past) : Prop :=
  EndsWell (circuit.Admits entry) part.GoesOn result ∧
    ∀ walker, Dutiful (.announce ⟨.executed node result, walker⟩) past

/-- The walk may end here with this result. -/
def Sane {α : Type} (circuit : Circuit) (entry : String) (result : Except Fault α)
    (_ : Walker) (past : Past) : Prop :=
  EndsWell (circuit.Admits entry) (fun _ => True) result ∧ Free past

variable {setting : Setting} {inner : Server} {walker : Walker}
  (wired : Circuit.Wired Registry.builtin setting.circuit)
  (sound : Sound setting.circuit entry inner)

theorem looks_sane (free : Free past) : Looks Dutiful setting (fun _ => Free)
    (fun fault => Sane (α := α) setting.circuit entry (.error fault)) walker past :=
  ⟨free _, ⟨trivial, free.cons .isCancelled true (by simp)⟩,
    free.cons .isCancelled false (by simp)⟩

theorem checkpoint_sane (free : Free past) :
    WP Dutiful (ExceptT.run (checkpoint setting node)) (Upheld (fun _ => Free)
      fun fault => Sane (α := α) setting.circuit entry (.error fault)) walker past := by
  refine checkpoint_upheld (fun pausing free => ⟨free _, fun answer => free.cons _ answer ?_⟩)
    (fun _ _ _ free => free) (fun _ _ _ _ free => WP.change_iff.mpr ⟨free _, free.told _ _⟩)
    (fun _ _ _ free => ⟨trivial, free⟩) free
  rintro action payload rfl
  exact pausing.elim

section data

include wired sound

theorem compute_sane {output : Pin} (found : setting.circuit.part? source.node = some part)
    (declared : part.schema.output? source.pin = some output) (plain : output.type.isExec = false)
    (free : Free past) :
    WP Dutiful (ExceptT.run (compute inner source part)) (Sane setting.circuit entry)
      walker past := by
  obtain ⟨known, bound⟩ := wired.bound_of_part? found
  have own : part.node.id = source.node := id_of_part? found
  have conduct := conduct_evaluate known bound (admits_evaluation entry found) declared plain
  refine WP.compute_iff.mpr ⟨free _, ?_⟩
  refine (WP.perform_of_meets (fun _ => Free) ?_ conduct (free.told _ _)).mono ?_
  · intro c walker past asked free
    refine sound.call c walker past ?_ free
    cases c with
    | input => exact ⟨part, asked.1 ▸ own ▸ found, asked.2⟩
    | context => trivial
    | _ => exact asked.elim
  · intro result walker past ended
    refine ⟨ended.2 _, ?_⟩
    cases result with
    | error => exact ⟨ended.1, ended.2.told _ _⟩
    | ok => exact ⟨trivial, ended.2.told _ _⟩

theorem pull_sane (isOutput : setting.circuit.DataOutput source) (free : Free past) :
    WP Dutiful (ExceptT.run (pull setting inner source)) (Sane setting.circuit entry)
      walker past := by
  obtain ⟨part, output, found, declared, plain⟩ := isOutput
  cases remembered : walker.memo.get? source with
  | some => exact (WP.pull_of_found remembered).mpr ⟨trivial, free⟩
  | none =>
    rw [WP.pull_of_missing remembered]
    split
    · exact ⟨trivial, free⟩
    · obtain ⟨obeys, stops, free⟩ := looks_sane free
      refine WP.checkCancelled_iff.mpr ⟨obeys, stops, ?_⟩
      rw [part_eq_ok_iff.mpr found]
      exact compute_sane wired sound found declared plain free

/-- An input takes its value from a data output, or has one of its own. -/
theorem resolve_sane {default : Value} (found : setting.circuit.part? node = some part)
    (free : Free past) :
    WP Dutiful (ExceptT.run (resolve setting inner node pin default)) (Sane setting.circuit entry)
      walker past := by
  rw [WP.resolve_iff]
  cases wire : setting.circuit.incoming? node pin with
  | some source =>
    have isOutput := wired.dataOutput_of_incoming? wire
    refine WP.output_iff.mpr ((pull_sane wired sound isOutput free).mono ?_)
    intro result walker past sane
    refine ⟨sane.2 _, ?_⟩
    have free := sane.2.told (.read source result) walker
    cases result with
    | error => exact ⟨sane.1, free⟩
    | ok => exact ⟨free _, trivial, free.told _ _⟩
  | none =>
    rw [part_eq_ok_iff.mpr found]
    exact ⟨free _, trivial, free.told _ _⟩

theorem input_sane (found : setting.circuit.part? node = some part)
    (declared : (part.schema.input? pin).isSome = true) (free : Free past) :
    WP Dutiful (ExceptT.run (input setting inner node pin)) (Sane setting.circuit entry)
      walker past := by
  obtain ⟨known, bound⟩ := wired.bound_of_part? found
  obtain ⟨declaration, declared⟩ := Option.isSome_iff_exists.mp declared
  rw [WP.input_iff, part_eq_ok_iff.mpr found]
  simp only [declared]
  refine (resolve_sane wired sound found free).mono fun result walker past sane => ?_
  cases result with
  | error => exact ⟨sane.1, sane.2⟩
  | ok =>
    simp only
    split
    · rename_i missing
      have required := (Bool.and_eq_true_iff.mp missing).2
      obtain ⟨isAction, rfl⟩ := required_of_builtin known bound declared required
      exact ⟨⟨isOf_of_mem found isAction, rfl⟩, sane.2⟩
    · exact ⟨trivial, sane.2⟩

end data

section control

include wired sound

section

variable (found : setting.circuit.part? node = some part)
include found

/-- An action ends its executor with the way on that its answer leaves. -/
theorem perform_agentAction_sane (isAction : part.kind ∈ actions) (free : Free past) :
    WP Dutiful (perform inner (ExceptT.run (part.kind.execute part.node)))
      (Concludes setting.circuit entry node part) walker past := by
  obtain ⟨known, bound⟩ := wired.bound_of_part? found
  have own : part.node.id = node := id_of_part? found
  have goes : ∀ answer, part.GoesOn (.next (wayOn answer)) := by
    obtain ⟨_, kind, schema⟩ := part
    cases mem_singleton.mp isAction
    cases bound
    rintro (fault | value) _ ⟨⟩ <;> rfl
  have asked : ∀ pin ∈ ["action", "payload"], Proper setting.circuit entry (.input node pin) := by
    intro pin member
    refine ⟨part, found, ?_⟩
    obtain ⟨_, kind, schema⟩ := part
    cases mem_singleton.mp isAction
    cases bound
    simp only [mem_cons, not_mem_nil, or_false] at member
    rcases member with rfl | rfl <;> rfl
  have notAnAction : ∀ got, setting.circuit.Admits entry (.evaluation node (.notAnAction got)) :=
    fun got => own ▸ admits_evaluation entry found _ isAction
  rw [mem_singleton.mp isAction]
  simp only [agentAction, own]
  refine WP.routine_bind_iff.mpr (WP.perform_call_iff.mpr
    ((sound.call (.input node "action") walker past (asked _ (by simp)) free).mono ?_))
  rintro (fault | name) walker past ⟨grants, free⟩
  · exact ⟨grants fault rfl, fun _ => free _⟩
  · cases name with
    | str action =>
      refine WP.routine_bind_iff.mpr (WP.perform_call_iff.mpr
        ((sound.call (.input node "payload") walker past (asked _ (by simp)) free).mono ?_))
      rintro (fault | payload) walker past ⟨grants, free⟩
      · exact ⟨grants fault rfl, fun _ => free _⟩
      · refine WP.routine_bind_iff.mpr (WP.routine_lift_iff.mpr (WP.perform_call_iff.mpr
          ((sound.act node action payload walker past free).mono ?_)))
        rintro answer walker _ ⟨rfl, stores⟩
        have written : WP Dutiful
            (perform inner (ExceptT.run (do
              Routine.store node (reported answer)
              return Flow.next (wayOn answer))))
            (Concludes setting.circuit entry node part) walker
            (⟨.act action payload, answer⟩ :: past) := by
          refine WP.routine_bind_iff.mpr (WP.routine_lift_iff.mpr (WP.perform_call_iff.mpr
            (stores.mono ?_)))
          rintro _ walker _ ⟨told, rfl⟩
          exact ⟨goes answer, fun walker => ⟨walker, rfl⟩⟩
        cases answer with
        | ok => exact written
        | error => exact written
    | _ => exact ⟨notAnAction _, fun _ => free _⟩

variable (enters : part.kind ∈ pureData → node = entry) (free : Free past)
include enters free

theorem perform_sane :
    WP Dutiful (perform inner (ExceptT.run (part.kind.execute part.node)))
      (Concludes setting.circuit entry node part) walker past := by
  by_cases isAction : part.kind ∈ actions
  · exact perform_agentAction_sane wired sound found isAction free
  · obtain ⟨known, bound⟩ := wired.bound_of_part? found
    have own : part.node.id = node := id_of_part? found
    have conduct : Conduct part.Asks (setting.circuit.Admits entry) part.GoesOn
        (part.kind.execute part.node) := by
      by_cases computing : part.kind ∈ pureData
      · rw [execute_of_pureData computing]
        refine .fail ⟨own.trans (enters computing), ?_, ?_⟩
        · exact isOf_of_mem (enters computing ▸ found) computing
        · rw [← enters computing, found, Option.map_some]
      · exact conduct_execute known computing bound (admits_evaluation entry found)
    refine (WP.perform_of_meets (fun _ => Free) ?_ conduct free).mono ?_
    · intro c walker past asked free
      refine sound.call c walker past ?_ free
      cases c with
      | input => exact ⟨part, asked.1 ▸ own ▸ found, asked.2⟩
      | act => exact absurd asked isAction
      | resolve | output | run => exact asked.elim
      | _ => trivial
    · exact fun result walker past ended => ⟨ended.1, fun _ => ended.2 _⟩

theorem execute_sane :
    WP Dutiful (ExceptT.run (execute inner node part)) (Sane setting.circuit entry)
      walker past := by
  refine WP.execute_iff.mpr ⟨free _, ?_⟩
  refine (perform_sane wired sound found enters (free.told _ _)).mono ?_
  rintro result walker past ⟨ended, dutiful⟩
  refine ⟨dutiful walker, ?_⟩
  have free : Free (told (.executed node result) walker :: past) := fun _ => trivial
  rcases result with fault | flow
  · exact ⟨ended, free⟩
  · cases flow with
    | next pin =>
      have declared := ended pin rfl
      simp only [declared, if_true]
      refine (sound.call (.traverse node pin) walker _ trivial free).mono ?_
      intro answer walker past after
      cases answer with
      | ok => exact ⟨trivial, after.2⟩
      | error fault => exact ⟨after.1 fault rfl, after.2⟩
    | _ => exact ⟨trivial, free⟩

theorem run_sane :
    WP Dutiful (ExceptT.run (run setting inner node)) (Sane setting.circuit entry)
      walker past := by
  refine run_of_execute (looks_sane free) (fun missing _ => ?_) checkpoint_sane looks_sane ?_
  · cases (part_eq_ok_iff.mpr found).symm.trans missing
  · intro other walker past isOther free
    cases (part_eq_ok_iff.mpr found).symm.trans isOther
    exact execute_sane wired sound found enters free

end

theorem traverse_sane (node pin : String) (free : Free past) :
    WP Dutiful (ExceptT.run (traverse setting inner node pin)) (Sane setting.circuit entry)
      walker past := by
  refine WP.traverse_iff.mpr ⟨free _, ?_⟩
  have free := free.told (.traversing ⟨node, pin⟩) walker
  rw [WP.follow_iff]
  cases wire : setting.circuit.execTarget? node pin with
  | none => exact ⟨free _, trivial, free.told _ _⟩
  | some =>
    obtain ⟨part, found, executable⟩ := wired.executable_of_execTarget? wire
    refine ⟨free _, ?_⟩
    refine (run_sane wired sound found (fun computing => absurd computing executable)
      (free.told _ _)).mono ?_
    intro result walker past sane
    exact ⟨sane.2 _, sane.1, sane.2.told _ _⟩

theorem answer_sound : Sound setting.circuit entry (answer setting inner) where
  call c walker past proper free := by
    have granted : ∀ {α : Type} (result : Except Fault α) walker past,
        Sane setting.circuit entry result walker past →
        (∀ fault, result = .error fault → setting.circuit.Admits entry fault) ∧ Free past := by
      rintro _ result walker past ⟨ended, free⟩
      refine ⟨?_, free⟩
      rintro fault rfl
      exact ended
    cases c with
    | input =>
      obtain ⟨part, found, declared⟩ := proper
      exact (input_sane wired sound found declared free).mono granted
    | run =>
      obtain ⟨part, found, enters⟩ := proper
      exact (run_sane wired sound found enters free).mono granted
    | traverse node pin => exact (traverse_sane wired sound node pin free).mono granted
    | resolve | output | act => exact proper.elim
    | isCancelled =>
      exact WP.ask_iff.mpr
        ⟨free _, fun answer => ⟨trivial, free.cons .isCancelled answer (by simp)⟩⟩
    | ticket =>
      exact WP.ask_iff.mpr ⟨free _, fun answer => ⟨trivial, free.cons .ticket answer (by simp)⟩⟩
    | note => exact WP.announce_iff.mpr ⟨free _, trivial, free.told _ _⟩
    | assign | store | reenter | refresh =>
      exact WP.change_iff.mpr ⟨free _, trivial, free.told _ _⟩
    | context | memo | about | inSession | persist | log => exact ⟨trivial, free⟩
  act node action payload walker past free := by
    refine WP.ask_iff.mpr ⟨free _, fun answer => ⟨rfl, ?_⟩⟩
    exact WP.change_iff.mpr ⟨⟨node, _, rfl⟩, _, rfl⟩

end control

theorem serve_sound (wired : Circuit.Wired Registry.builtin setting.circuit) (entry : String)
    (depth : Nat) : Sound setting.circuit entry (serve setting depth) := by
  induction depth with
  | zero =>
    constructor
    · exact fun c walker past proper free => WP.exhausted_iff.mpr (free _)
    · exact fun node action payload walker past free => WP.exhausted_iff.mpr (free _)
  | succ depth ih => exact answer_sound wired ih

/-- A walk over a loaded circuit ends with no fault but those that the circuit admits, and
every answer of the host has been written down. -/
theorem start_sane (wired : Circuit.Wired Registry.builtin setting.circuit) (depth : Nat)
    (known : setting.circuit.contains entry = true) (context : Context) :
    Dialogue.WP Dutiful (fun result past => Sane setting.circuit entry result.1 result.2 past)
      (start setting depth entry context) [] := by
  obtain ⟨part, found⟩ := Option.isSome_iff_exists.mp known
  have served : WP Dutiful (serve setting depth (.run entry)) (fun answer _ past =>
      Grants (setting.circuit.Admits entry) (.run entry) answer ∧ Free past) { context } [] :=
    (serve_sound wired entry depth).call _ _ _ ⟨part, found, fun _ => rfl⟩ free_nil
  rw [start, Dialogue.WP_bind]
  refine Dialogue.WP.mono served (fun _ _ dutiful => dutiful) ?_
  rintro ⟨result, walker⟩ past ⟨granted, free⟩
  rcases result with fault | signal
  · exact ⟨granted fault rfl, free⟩
  · cases signal with
    | done | broken => exact ⟨trivial, free⟩

end Walk

end Pinflow
