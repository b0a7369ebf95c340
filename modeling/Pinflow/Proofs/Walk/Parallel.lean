import Pinflow.Proofs.Circuit.Wired
import Pinflow.Proofs.Dialogue.Pairing
import Pinflow.Proofs.Kinds.Routines
import Pinflow.Proofs.Walk.Upkeep

/-!
# Walks side by side

Two walks over the same circuit that differ in their debug sessions only. Nodes of the
built-in kinds cannot tell: they never ask for the session, the token or a number. So the
walks keep together as soon as the questions do that a walk puts for itself, and these are
few: `Respects` lists what a matching has to grant, and `start_parallel` is what it gets.
-/

namespace Pinflow

variable {f : Walker → Walker} {part : Part}

/-- Calls that do not ask about the session, the token or a number. -/
def Call.Neutral : Call → Prop
  | .inSession | .isCancelled | .ticket => False
  | _ => True

theorem Call.Plain.neutral {c : Call} (plain : c.Plain) : c.Neutral := by
  cases c <;> first | exact trivial | exact plain

namespace Walk

open Dialogue (Paired)

/-- The same state of a walk, but for the session. -/
structure Alike (R : Option String → Option String → Prop) (walker other : Walker) : Prop where
  context : walker.context = other.context
  memo : walker.memo = other.memo
  resolving : walker.resolving = other.resolving
  session : R walker.session other.session

/-- A computation that keeps together with itself whatever the session is. -/
def Parallel {α : Type} (m : Matching Query.interface) (R : Option String → Option String → Prop)
    (x : Stateful α) : Prop :=
  ∀ ⦃walker other⦄, Alike R walker other →
    Paired m (fun p q => p.1 = q.1 ∧ Alike R p.2 q.2) (x.run walker) (x.run other)

def ToldTogether (m : Matching Query.interface) (R : Option String → Option String → Prop) : Prop :=
  ∀ happening walker other, Alike R walker other →
    m.together (.announce ⟨happening, walker⟩) (.announce ⟨happening, other⟩)

/-- What a matching has to grant to walks: what they announce, let the host do and give up on
goes together, and so do their looks at the token and at the debugger. -/
structure Respects (m : Matching Query.interface) (R : Option String → Option String → Prop)
    (setting : Setting) : Prop where
  announces : ToldTogether m R
  acts : ∀ action payload, m.together (.act action payload) (.act action payload)
  acted : ∀ action payload answer other,
    m.answers (.act action payload) (.act action payload) answer other → answer = other
  exhausted : m.together .exhausted .exhausted
  checks : Parallel m R (ExceptT.run (checkCancelled setting))
  passes : ∀ node, Parallel m R (ExceptT.run (checkpoint setting node))

variable {α β : Type} {m : Matching Query.interface} {R : Option String → Option String → Prop}

namespace Parallel

theorem pure (a : α) : Parallel m R (Pure.pure a) := fun _ _ alike => .done ⟨rfl, alike⟩

theorem bind {x : Stateful α} {f : α → Stateful β} (first : Parallel m R x)
    (rest : ∀ a, Parallel m R (f a)) : Parallel m R (x >>= f) := by
  refine fun walker other alike => Paired.bind (first alike) ?_
  rintro ⟨a, walker⟩ ⟨_, other⟩ ⟨⟨⟩, alike⟩
  exact rest a alike

theorem modifies (keeps : ∀ walker other, Alike R walker other → Alike R (f walker) (f other)) :
    Parallel m R (modify f : Stateful PUnit) :=
  fun walker other alike => .done ⟨rfl, keeps walker other alike⟩

theorem run_bind {x : Guarded α} {f : α → Guarded β} (first : Parallel m R (ExceptT.run x))
    (rest : ∀ a, Parallel m R (ExceptT.run (f a))) : Parallel m R (ExceptT.run (x >>= f)) := by
  refine first.bind fun result => ?_
  cases result with
  | ok a => exact rest a
  | error fault => exact pure (Except.error fault)

theorem run_get {f : Walker → Guarded α}
    (rest : ∀ ⦃walker other⦄, Alike R walker other →
      Paired m (fun p q => p.1 = q.1 ∧ Alike R p.2 q.2) ((ExceptT.run (f walker)).run walker)
        ((ExceptT.run (f other)).run other)) :
    Parallel m R (ExceptT.run (get >>= f)) := rest

theorem run_set {x : Guarded α} {walker other before before' : Walker}
    (alike : Alike R walker other) (rest : Parallel m R (ExceptT.run x)) :
    Paired m (fun p q => p.1 = q.1 ∧ Alike R p.2 q.2)
      ((ExceptT.run (set walker >>= fun _ => x)).run before)
      ((ExceptT.run (set other >>= fun _ => x)).run before') := rest alike

theorem run_lift {x : Stateful α} (lifted : Parallel m R x) :
    Parallel m R (ExceptT.run (ExceptT.lift x : Guarded α)) := by
  exact lifted.bind fun a => pure (Except.ok a)

theorem run_liftExcept (x : Except Fault α) :
    Parallel m R (ExceptT.run (liftM x : Guarded α)) := by
  cases x with
  | ok a => exact pure (Except.ok a)
  | error fault => exact pure (Except.error fault)

end Parallel

variable {setting : Setting}

section announces

variable (announces : ToldTogether m R)
include announces

theorem announce_parallel (happening : Happening) : Parallel m R (announce happening) :=
  fun _ _ alike => .together (announces happening _ _ alike) fun _ _ _ => .done ⟨rfl, alike⟩

/-- Tell the observers, then go on. -/
theorem announcing_parallel (happening : Happening) {rest : Guarded α}
    (after : Parallel m R (ExceptT.run rest)) :
    Parallel m R (ExceptT.run (do announce happening; rest)) :=
  .run_bind (.run_lift (announce_parallel announces happening)) fun _ => after

/-- Change the state of the walk and tell the observers. -/
theorem change_parallel {happening : Happening} {change : Walker → Walker}
    (changes : Changes setting happening change) :
    Parallel m R (do modify change; announce happening) := by
  refine .bind (.modifies ?_) fun _ => announce_parallel announces happening
  rintro ⟨context, memo, resolving, session⟩ ⟨_, _, _, session'⟩ ⟨⟨⟩, ⟨⟩, ⟨⟩, related⟩
  cases changes <;> exact ⟨rfl, rfl, rfl, related⟩

theorem assignAll_parallel (overrides : List (String × Value)) :
    Parallel m R (assignAll setting overrides) := by
  induction overrides with
  | nil => exact .pure ()
  | cons _ rest ih => exact .bind (change_parallel announces (.assigned _ _)) fun _ => ih

end announces

variable (respects : Respects m R setting)
include respects

theorem exhausted_parallel : Parallel m R (exhausted : Stateful α) :=
  fun _ _ _ => .together respects.exhausted fun nothing => nothing.elim

theorem act_parallel (action : String) (payload : Value) :
    Parallel m R (ask (.act action payload)) := by
  refine fun walker other alike => .together (respects.acts action payload) ?_
  exact fun answer same replied => .done ⟨respects.acted _ _ answer same replied, alike⟩

section inner

variable {inner : Server} (served : ∀ c : Call, c.Neutral → Parallel m R (inner c))
include served

omit respects in
theorem perform_parallel {acts : Bool} {script : Script (Except Fault α)}
    (straight : Straight acts script) : Parallel m R (perform inner script) := by
  induction straight with
  | @done _ result => exact .pure result
  | @pulls _ node pin next faults _ ih =>
    refine .bind (served (.input node pin) trivial) ?_
    exact of_answer (P := (Parallel m R <| perform inner ·)) faults (fun _ => .pure _) ih
  | @follows _ node pin next faults _ ih =>
    refine .bind (served (.traverse node pin) trivial) ?_
    exact of_answer (P := (Parallel m R <| perform inner ·)) faults (fun _ => .pure _) ih
  | @lets action payload next _ ih => exact .bind (served (.act action payload) trivial) ih
  | @plain _ c next isPlain _ ih => exact .bind (served c isPlain.neutral) ih

variable (wired : Circuit.Wired Registry.builtin setting.circuit)
include wired

theorem compute_parallel {source : PinRef} (found : setting.circuit.part source.node = .ok part) :
    Parallel m R (ExceptT.run (compute inner source part)) := by
  have known := wired.kind_mem (Circuit.part_eq_ok_iff.mp found)
  have straight := Kinds.straight_evaluate part.node known source.pin
  refine announcing_parallel respects.announces _ ?_
  refine .run_bind (.run_lift (.modifies ?_)) fun _ => ?_
  · exact fun walker other alike =>
      ⟨alike.context, alike.memo, congrArg (source.node :: ·) alike.resolving, alike.session⟩
  refine .run_bind (.run_lift (perform_parallel served straight)) fun result => ?_
  refine .run_bind (.run_lift (.modifies ?_)) fun _ => ?_
  · exact fun walker other alike =>
      ⟨alike.context, alike.memo, congrArg List.tail alike.resolving, alike.session⟩
  refine announcing_parallel respects.announces _ ?_
  refine .run_bind (.run_liftExcept result) fun value => ?_
  refine .run_bind (.run_lift (.modifies ?_)) fun _ => .pure _
  exact fun walker other alike =>
    ⟨alike.context, congrArg (·.store source value) alike.memo, alike.resolving, alike.session⟩

theorem pull_parallel (source : PinRef) :
    Parallel m R (ExceptT.run (pull setting inner source)) := by
  refine .run_get ?_
  rintro ⟨context, memo, resolving, session⟩ ⟨_, _, _, session'⟩ ⟨⟨⟩, ⟨⟩, ⟨⟩, related⟩
  -- both find the same in the memo, and both count that they looked
  generalize memo.lookup source = looked
  obtain ⟨found, counted⟩ := looked
  refine Parallel.run_set ⟨rfl, rfl, rfl, related⟩ ?_
  cases found with
  | some => exact .pure _
  | none =>
    dsimp only
    split
    · exact .pure (Except.error _)
    · refine .run_bind respects.checks fun _ => ?_
      cases present : setting.circuit.part source.node with
      | error fault => exact .pure (Except.error fault)
      | ok => exact compute_parallel respects served wired present

theorem output_parallel (source : PinRef) :
    Parallel m R (ExceptT.run (output setting inner source)) := by
  refine .run_bind (.run_lift (pull_parallel respects served wired source)) fun result => ?_
  exact announcing_parallel respects.announces _ (.run_liftExcept result)

theorem resolve_parallel (node pin : String) (default : Value) :
    Parallel m R (ExceptT.run (resolve setting inner node pin default)) := by
  rw [resolve]
  split
  · refine .run_bind (output_parallel respects served wired _) fun value => ?_
    exact announcing_parallel respects.announces _ (.pure _)
  · refine .run_bind (.run_liftExcept _) fun part => ?_
    exact announcing_parallel respects.announces _ (.pure _)

theorem input_parallel (node pin : String) :
    Parallel m R (ExceptT.run (input setting inner node pin)) := by
  refine .run_bind (.run_liftExcept _) fun part => ?_
  split
  · exact .pure (Except.error _)
  · refine .run_bind (resolve_parallel respects served wired _ _ _) fun value => ?_
    split
    · exact .pure (Except.error _)
    · exact .pure _

theorem execute_parallel {node : String} (found : setting.circuit.part node = .ok part) :
    Parallel m R (ExceptT.run (execute inner node part)) := by
  have known := wired.kind_mem (Circuit.part_eq_ok_iff.mp found)
  have straight := Kinds.straight_execute part.node known
  refine announcing_parallel respects.announces _ ?_
  refine .run_bind (.run_lift (perform_parallel served straight)) fun result => ?_
  refine announcing_parallel respects.announces _ ?_
  refine .run_bind (.run_liftExcept result) fun flow => ?_
  cases flow with
  | next pin =>
    simp only
    split
    · exact served (.traverse node pin) trivial
    · exact .pure (Except.error _)
  | finish | «break» | forward signal => exact .pure _

theorem run_parallel (node : String) :
    Parallel m R (ExceptT.run (run setting inner node)) := by
  refine .run_bind respects.checks fun _ => ?_
  cases found : setting.circuit.part node with
  | error fault => exact .pure (Except.error fault)
  | ok part =>
    have enters : Parallel m R (ExceptT.run (do
        checkpoint setting node
        checkCancelled setting
        execute inner node part)) := by
      refine .run_bind (respects.passes node) fun _ => .run_bind respects.checks fun _ => ?_
      exact execute_parallel respects served wired found
    exact enters

theorem traverse_parallel (node pin : String) :
    Parallel m R (ExceptT.run (traverse setting inner node pin)) := by
  have follows : Parallel m R (ExceptT.run (follow setting inner node pin)) := by
    rw [follow]
    split
    · exact .pure _
    · exact announcing_parallel respects.announces _ (run_parallel respects served wired _)
  refine announcing_parallel respects.announces _ (.run_bind (.run_lift follows) fun result => ?_)
  exact announcing_parallel respects.announces _ (.run_liftExcept result)

theorem answer_parallel (c : Call) (neutral : c.Neutral) :
    Parallel m R (answer setting inner c) := by
  cases c with
  | input node pin => exact input_parallel respects served wired node pin
  | resolve node pin default => exact resolve_parallel respects served wired node pin default
  | output source => exact output_parallel respects served wired source
  | traverse node pin => exact traverse_parallel respects served wired node pin
  | run node => exact run_parallel respects served wired node
  | context => exact fun _ _ alike => .done ⟨alike.context, alike⟩
  | memo => exact fun _ _ alike => .done ⟨alike.memo, alike⟩
  | about => exact .pure _
  | inSession | isCancelled | ticket => exact neutral.elim
  | assign path value => exact change_parallel respects.announces (.assigned path value)
  | persist intent =>
    refine .modifies fun walker other alike => ?_
    exact ⟨congrArg (·.persist intent) alike.context, alike.memo, alike.resolving, alike.session⟩
  | log line =>
    refine .modifies fun walker other alike => ?_
    exact ⟨congrArg (·.log line) alike.context, alike.memo, alike.resolving, alike.session⟩
  | note => exact announce_parallel respects.announces _
  | store node values =>
    exact change_parallel respects.announces (.stored node values : Changes setting _ _)
  | reenter loop pin => exact change_parallel respects.announces (.reentered loop pin)
  | refresh loop pin => exact change_parallel respects.announces (.refreshed loop pin)
  | act action payload => exact act_parallel respects action payload

end inner

theorem serve_parallel (wired : Circuit.Wired Registry.builtin setting.circuit) (depth : Nat)
    (c : Call) (neutral : c.Neutral) : Parallel m R (serve setting depth c) := by
  induction depth generalizing c with
  | zero => exact exhausted_parallel respects
  | succ depth ih => exact answer_parallel respects ih wired c neutral

/-- Walks over nodes of the built-in kinds keep together to the end. -/
theorem start_parallel (wired : Circuit.Wired Registry.builtin setting.circuit) (depth : Nat)
    (entry : String) (context : Context) (fresh : R none none) :
    Paired m (fun p q => p.1 = q.1 ∧ Alike R p.2 q.2) (start setting depth entry context)
      (start setting depth entry context) := by
  have alike : Alike R { context } { context } := ⟨rfl, rfl, rfl, fresh⟩
  refine Paired.bind (serve_parallel respects wired depth (.run entry) trivial alike) ?_
  rintro ⟨result, walker⟩ ⟨_, other⟩ ⟨⟨⟩, alike⟩
  rcases result with fault | signal
  · exact .done ⟨rfl, alike⟩
  · cases signal with
    | done | broken => exact .done ⟨rfl, alike⟩

end Walk

end Pinflow
