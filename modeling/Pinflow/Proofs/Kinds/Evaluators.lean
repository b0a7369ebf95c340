import Pinflow.Kinds.Builtin

/-!
# What evaluators do

The evaluators of the built-in kinds pull inputs of their own node and look at the
context, and nothing else. They hand on the fault of an input that cannot be had, and
what they take from the context is the arguments and the event, and for a volatile kind
also the variables. `Reads` says all of this of a script; `reads_of_builtin` says it of
every built-in evaluator.
-/

namespace Pinflow

/-- Two contexts that no evaluator can tell apart. Variables matter to volatile kinds. -/
structure Context.Alike (volatile : Bool) (a b : Context) : Prop where
  args : a.args = b.args
  event : a.event = b.event
  vars : volatile = true → a.vars = b.vars

def Unbroken {α : Type} (result : Except Fault α) : Prop :=
  ∀ origin, result ≠ .error (.breakOutsideLoop origin)

def Unstopped {α : Type} (result : Except Fault α) : Prop :=
  ∀ session, result ≠ .error (.stopped session)

namespace Unbroken

variable {α β : Type}

@[simp] theorem ok (a : α) : Unbroken (.ok a : Except Fault α) := fun _ same => nomatch same

@[simp] theorem wiring (cause : Miswiring) : Unbroken (.error (.wiring cause) : Except Fault α) :=
  fun _ same => nomatch same

theorem error_of {fault : Fault} (known : Unbroken (.error fault : Except Fault α)) :
    Unbroken (.error fault : Except Fault β) :=
  fun origin same => known origin (by cases same; rfl)

end Unbroken

theorem Unstopped.error_of {α β : Type} {fault : Fault}
    (known : Unstopped (.error fault : Except Fault α)) :
    Unstopped (.error fault : Except Fault β) :=
  fun session same => known session (by cases same; rfl)

/-- A result that fails, if at all, by a fault of wiring, as settings do that cannot be
read. -/
def FailsByWiring {α : Type} (result : Except Fault α) : Prop :=
  ∀ fault, result = .error fault → ∃ cause, fault = .wiring cause

namespace FailsByWiring

variable {α β : Type} {x : Except Fault α}

theorem ok (a : α) : FailsByWiring (.ok a : Except Fault α) := fun _ same => nomatch same

theorem wiring (cause : Miswiring) : FailsByWiring (.error (.wiring cause) : Except Fault α) := by
  intro fault same
  cases same
  exact ⟨cause, rfl⟩

theorem bind {f : α → Except Fault β} (first : FailsByWiring x) (rest : ∀ a, FailsByWiring (f a)) :
    FailsByWiring (x >>= f) := by
  cases x with
  | ok a => exact rest a
  | error => exact fun other same => first other (by cases same; rfl)

theorem unbroken (known : FailsByWiring x) : Unbroken x := by
  intro origin same
  obtain ⟨cause, impossible⟩ := known _ same
  cases impossible

theorem unstopped (known : FailsByWiring x) : Unstopped x := by
  intro session same
  obtain ⟨cause, impossible⟩ := known _ same
  cases impossible

end FailsByWiring

/-- What holds after every value and after every fault that is handed on. -/
theorem of_answer {α β : Type} {P : Script (Except Fault α) → Prop}
    {next : Except Fault β → Script (Except Fault α)}
    (faults : ∀ fault, next (.error fault) = .done (.error fault))
    (ends : ∀ fault, P (.done (.error fault))) (goes : ∀ b, P (next (.ok b)))
    (answer : Except Fault β) : P (next answer) := by
  cases answer with
  | ok b => exact goes b
  | error fault => exact faults fault ▸ ends fault

inductive Reads (volatile : Bool) (node : String) {α : Type} : Script (Except Fault α) → Prop
  | done {result : Except Fault α} (known : Unbroken result) (goes : Unstopped result) :
      Reads volatile node (.done result)
  | context {next : Context → Script (Except Fault α)}
      (alike : ∀ a b : Context, a.Alike volatile b → next a = next b)
      (rest : ∀ context, Reads volatile node (next context)) :
      Reads volatile node (.ask .context next)
  | input {pin : String} {next : Except Fault Value → Script (Except Fault α)}
      (faults : ∀ fault, next (.error fault) = .done (.error fault))
      (values : ∀ value, Reads volatile node (next (.ok value))) :
      Reads volatile node (.ask (.input node pin) next)

namespace Reads

variable {volatile : Bool} {node : String} {α β : Type}

theorem pure (a : α) : Reads volatile node (ExceptT.run (Pure.pure a : Routine α)) :=
  .done (.ok a) fun _ same => nomatch same

theorem fail (other : String) (cause : Mishap) :
    Reads volatile node (ExceptT.run (Routine.fail other cause : Routine α)) :=
  .done (fun _ same => nomatch same) fun _ same => nomatch same

/-- Settings that cannot be read end an evaluator with a fault of wiring. -/
theorem lift {x : Except Fault α} (known : FailsByWiring x) :
    Reads volatile node (ExceptT.run (liftM x : Routine α)) := by
  cases x with
  | ok a => exact pure a
  | error => exact .done known.unbroken known.unstopped

theorem pull (pin : String) : Reads volatile node (ExceptT.run (Routine.input node pin)) :=
  .input (fun _ => rfl) pure

theorem bind {x : Routine α} {f : α → Routine β} (first : Reads volatile node (ExceptT.run x))
    (rest : ∀ a, Reads volatile node (ExceptT.run (f a))) :
    Reads volatile node (ExceptT.run (x >>= f)) := by
  rw [ExceptT.run_bind]
  generalize ExceptT.run x = script at first
  induction first with
  | @done result known goes =>
    cases result with
    | ok a => exact rest a
    | error => exact .done known.error_of goes.error_of
  | context alike _ ih =>
    refine .context (fun a b same => ?_) ih
    exact congrArg (· >>= _) (alike a b same)
  | input faults _ ih =>
    refine .input (fun fault => ?_) ih
    exact congrArg (· >>= _) (faults fault)

/-- Looking at the context is no more than looking at what counts in it. -/
theorem look {f : Context → Routine α}
    (alike : ∀ a b : Context, a.Alike volatile b → f a = f b)
    (rest : ∀ context, Reads volatile node (ExceptT.run (f context))) :
    Reads volatile node (ExceptT.run (Routine.context >>= f)) :=
  .context alike rest

theorem foldOperands (op : Arithmetic) (result : Option Float) (operands : List Nat) :
    Reads volatile node (ExceptT.run (Kinds.foldOperands node op result operands)) := by
  induction operands generalizing result with
  | nil => exact pure _
  | cons i rest ih =>
    refine bind (pull _) fun raw => ?_
    cases raw.toFloat? with
    | none => exact fail _ _
    | some x =>
      cases result with
      | none => exact ih (some x)
      | some y =>
        simp only
        cases op.result? y x with
        | none => exact fail _ _
        | some z => exact ih (some z)

theorem mapM {f : Nat → Routine α} (each : ∀ i, Reads volatile node (ExceptT.run (f i)))
    (list : List Nat) : Reads volatile node (ExceptT.run (list.mapM f)) := by
  induction list with
  | nil => exact pure []
  | cons i rest ih =>
    rw [List.mapM_cons]
    exact bind (each i) fun a => bind ih fun rest => pure (a :: rest)

end Reads

namespace Kinds

theorem failsByWiring_requiredName (config : Fields) (key kind : String) :
    FailsByWiring (requiredName config key kind) := by
  rw [requiredName]
  cases (config.get? key).bind Value.asString? with
  | none => exact .wiring _
  | some =>
    simp only
    split
    · exact .wiring _
    · exact .ok _

/-- A number that is read from a config and has to lie in a range. -/
theorem failsByWiring_bounded {x : Except Fault Nat} (read : FailsByWiring x) {most : Nat}
    {cause : Nat → Miswiring} :
    FailsByWiring (x >>= fun n =>
      if n = 0 ∨ most < n then .error (.wiring (cause n)) else .ok n) := by
  refine read.bind fun n => ?_
  split
  · exact .wiring _
  · exact .ok _

theorem failsByWiring_arity (config : Fields) (kind : String) :
    FailsByWiring (arity config kind) := by
  rw [arity]
  split
  · exact failsByWiring_bounded (.ok _)
  · exact failsByWiring_bounded (.ok _)
  · split
    · exact failsByWiring_bounded (.ok _)
    · exact failsByWiring_bounded (.wiring _)

theorem failsByWiring_sequenceCount (config : Fields) : FailsByWiring (sequenceCount config) := by
  rw [sequenceCount]
  split
  · exact failsByWiring_bounded (.ok _)
  · exact failsByWiring_bounded (.ok _)
  · split
    · exact failsByWiring_bounded (.ok _)
    · exact failsByWiring_bounded (.wiring _)

theorem failsByWiring_mathOperator (config : Fields) : FailsByWiring (mathOperator config) := by
  rw [mathOperator]
  split
  · exact .ok _
  · exact .wiring _

theorem failsByWiring_compareOperator (config : Fields) :
    FailsByWiring (compareOperator config) := by
  rw [compareOperator]
  split
  · exact .ok _
  · exact .wiring _

section evaluators

variable (node : Node) (pin : String)

theorem reads_onEvent :
    Reads onEvent.volatile node.id (ExceptT.run (onEvent.evaluate node pin)) := by
  simp only [onEvent]
  split
  · exact .look (fun a b alike => by rw [alike.args]) fun _ => .pure _
  · exact .look (fun a b alike => by rw [Context.eventValue, alike.event]; rfl) fun _ => .pure _
  · exact .fail _ _

theorem reads_getVariable :
    Reads getVariable.volatile node.id (ExceptT.run (getVariable.evaluate node pin)) := by
  simp only [getVariable]
  split
  · exact .fail _ _
  · refine .bind (.lift (failsByWiring_requiredName _ _ _)) fun name => ?_
    refine .look (fun a b alike => ?_) fun context => ?_
    · rw [Context.lookup?, Context.lookup?, alike.vars rfl]
    · cases context.lookup? name with
      | some => exact .pure _
      | none => exact .pull _

theorem reads_math :
    Reads math.volatile node.id (ExceptT.run (math.evaluate node pin)) := by
  simp only [math]
  split
  · exact .fail _ _
  · refine .bind (.lift (failsByWiring_mathOperator _)) fun op => ?_
    refine .bind (.lift (failsByWiring_arity _ _)) fun n => ?_
    refine .bind (.foldOperands op none _) fun result => ?_
    split
    · exact .pure _
    · exact .fail _ _

theorem reads_compare :
    Reads compare.volatile node.id (ExceptT.run (compare.evaluate node pin)) := by
  simp only [compare]
  split
  · exact .fail _ _
  · refine .bind (.lift (failsByWiring_compareOperator _)) fun op => ?_
    exact .bind (.pull _) fun a => .bind (.pull _) fun b => .pure _

theorem reads_makeArray :
    Reads makeArray.volatile node.id (ExceptT.run (makeArray.evaluate node pin)) := by
  simp only [makeArray]
  split
  · exact .fail _ _
  · refine .bind (.lift (failsByWiring_arity _ _)) fun n => ?_
    exact .bind (.mapM (fun i => .pull _) _) fun items => .pure _

end evaluators

inductive Builtin : Kind → Prop
  | onEvent : Builtin onEvent
  | branch : Builtin branch
  | sequence : Builtin sequence
  | forEach : Builtin forEach
  | whileLoop : Builtin whileLoop
  | breakLoop : Builtin breakLoop
  | constant : Builtin constant
  | getVariable : Builtin getVariable
  | setVariable : Builtin setVariable
  | persistVariable : Builtin persistVariable
  | math : Builtin math
  | compare : Builtin compare
  | makeArray : Builtin makeArray
  | agentAction : Builtin agentAction
  | log : Builtin log

theorem builtin_of_mem {kind : Kind} (known : kind ∈ builtin) : Builtin kind := by
  simp only [builtin, List.mem_cons, List.not_mem_nil, or_false] at known
  rcases known with rfl | rfl | rfl | rfl | rfl | rfl | rfl | rfl | rfl | rfl | rfl | rfl | rfl |
    rfl | rfl <;> constructor

/-- Every built-in evaluator only pulls inputs of its node and looks at the context. -/
theorem reads_of_builtin {kind : Kind} (known : kind ∈ builtin) (node : Node) (pin : String) :
    Reads kind.volatile node.id (ExceptT.run (kind.evaluate node pin)) := by
  cases builtin_of_mem known with
  | onEvent => exact reads_onEvent node pin
  | constant => exact .pure _
  | getVariable => exact reads_getVariable node pin
  | math => exact reads_math node pin
  | compare => exact reads_compare node pin
  | makeArray => exact reads_makeArray node pin
  | _ => exact .fail _ _

end Kinds

end Pinflow
