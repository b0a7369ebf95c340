import Pinflow.Proofs.Kinds.Evaluators

/-!
# Straight routines

What the evaluators and executors of the built-in kinds have in common: they pull inputs,
follow pins, read and write, and let the host act at most once, before they follow any
pin. They never look at the debugger, the token or the counts of the memo, and they never
recover: the fault of an input or of a pin is their own. `Straight` says all of this of a
script, so a property of all straight scripts is a property of the built-in kinds.
-/

namespace Pinflow

variable {node pin : String}

/-- Calls that have an answer for everyone: they read and write what belongs to the walk. -/
def Call.Plain : Call → Prop
  | .context | .about | .assign _ _ | .persist _ | .log _ | .note _ _ | .store _ _
  | .reenter _ _ | .refresh _ _ => True
  | _ => False

inductive Straight {α : Type} : (acts : Bool) → Script (Except Fault α) → Prop
  | done {acts : Bool} {result : Except Fault α} (known : Unstopped result) :
      Straight acts (.done result)
  | pulls {acts : Bool} {node pin : String} {next : Except Fault Value → Script (Except Fault α)}
      (faults : ∀ fault, next (.error fault) = .done (.error fault))
      (values : ∀ value, Straight acts (next (.ok value))) :
      Straight acts (.ask (.input node pin) next)
  | follows {acts : Bool} {node pin : String}
      {next : Except Fault Signal → Script (Except Fault α)}
      (faults : ∀ fault, next (.error fault) = .done (.error fault))
      (signals : ∀ signal, Straight false (next (.ok signal))) :
      Straight acts (.ask (.traverse node pin) next)
  | lets {action : String} {payload : Value}
      {next : Except Fault Value → Script (Except Fault α)}
      (rest : ∀ answer, Straight false (next answer)) :
      Straight true (.ask (.act action payload) next)
  | plain {acts : Bool} {c : Call} {next : c.Answer → Script (Except Fault α)} (plain : c.Plain)
      (rest : ∀ answer, Straight acts (next answer)) :
      Straight acts (.ask c next)

namespace Straight

variable {acts : Bool} {α β : Type}

theorem pure (a : α) : Straight acts (ExceptT.run (Pure.pure a : Routine α)) :=
  .done fun _ same => nomatch same

theorem fail (node : String) (cause : Mishap) :
    Straight acts (ExceptT.run (Routine.fail node cause : Routine α)) :=
  .done fun _ same => nomatch same

/-- What never acts need not act. -/
theorem inactive {script : Script (Except Fault α)} (straight : Straight false script) :
    Straight acts script := by
  cases acts with
  | false => exact straight
  | true =>
    generalize activity : false = idle at straight
    induction straight with
    | done known => exact .done known
    | pulls faults _ ih => exact .pulls faults fun value => ih value activity
    | follows faults signals => exact .follows faults signals
    | lets => cases activity
    | plain isPlain _ ih => exact .plain isPlain fun answer => ih answer activity

/-- The rest of a routine does not act if its beginning may have. -/
theorem bind {x : Routine α} {f : α → Routine β} (first : Straight acts (ExceptT.run x))
    (rest : ∀ a, Straight false (ExceptT.run (f a))) :
    Straight acts (ExceptT.run (x >>= f)) := by
  rw [ExceptT.run_bind]
  generalize ExceptT.run x = script at first
  induction first with
  | @done _ result known =>
    cases result with
    | ok a => exact (rest a).inactive
    | error => exact .done known.error_of
  | pulls faults _ ih => exact .pulls (fun fault => congrArg (· >>= _) (faults fault)) ih
  | follows faults _ ih => exact .follows (fun fault => congrArg (· >>= _) (faults fault)) ih
  | lets _ ih => exact .lets ih
  | plain isPlain _ ih => exact .plain isPlain ih

theorem input {f : Value → Routine α} (rest : ∀ value, Straight acts (ExceptT.run (f value))) :
    Straight acts (ExceptT.run (Routine.input node pin >>= f)) :=
  .pulls (fun _ => rfl) rest

theorem traverse {f : Signal → Routine α}
    (rest : ∀ signal, Straight false (ExceptT.run (f signal))) :
    Straight acts (ExceptT.run (Routine.traverse node pin >>= f)) :=
  .follows (fun _ => rfl) rest

theorem call {c : Call} (isPlain : c.Plain) {f : c.Answer → Routine α}
    (rest : ∀ answer, Straight acts (ExceptT.run (f answer))) :
    Straight acts (ExceptT.run (ExceptT.lift (Script.call c) >>= f)) :=
  .plain isPlain rest

/-- Settings that cannot be read end a routine. -/
theorem setting {x : Except Fault α} (known : FailsByWiring x) {f : α → Routine β}
    (rest : ∀ a, Straight acts (ExceptT.run (f a))) :
    Straight acts (ExceptT.run (liftM x >>= f)) := by
  cases x with
  | ok a => exact rest a
  | error => exact .done known.unstopped.error_of

theorem follow (node pin : String) : Straight acts (ExceptT.run (Routine.traverse node pin)) :=
  .follows (fun _ => rfl) fun _ => .done fun _ same => nomatch same

theorem followAll (node : String) (list : List Nat) :
    Straight acts (ExceptT.run (Kinds.followAll node list)) := by
  induction list generalizing acts with
  | nil => exact pure _
  | cons i list ih =>
    refine traverse fun signal => ?_
    split
    · exact pure _
    · exact ih

/-- One round of a loop, and what comes after it unless the body breaks. -/
theorem round {values : List (String × Value)} {rest : Routine Unit}
    (next : Straight false (ExceptT.run rest)) :
    Straight acts (ExceptT.run (do
      Routine.reenter node Loop.bodyPin
      Routine.store node values
      let signal ← Routine.traverse node Loop.bodyPin
      if signal.isBreak then return
      rest)) := by
  refine call (c := .reenter node Loop.bodyPin) trivial fun _ => ?_
  refine call (c := .store node values) trivial fun _ => ?_
  refine traverse fun signal => ?_
  split
  · exact pure _
  · exact next

theorem eachFrom (node : String) (index : Nat) (items : List Value) :
    Straight acts (ExceptT.run (Loop.eachFrom node index items)) := by
  induction items generalizing acts index with
  | nil => exact pure _
  | cons item items ih => exact round (ih (index + 1))

theorem whileFrom (node : String) (ceiling left : Nat) :
    Straight acts (ExceptT.run (Loop.whileFrom node ceiling left)) := by
  induction left generalizing acts with
  | zero => exact .plain (c := .note node _) trivial fun _ => .done fun _ same => nomatch same
  | succ left ih =>
    refine call (c := .refresh node Loop.bodyPin) trivial fun _ => ?_
    refine input fun condition => ?_
    split
    · exact round ih
    · exact pure _

theorem loop {body : Routine Unit} (through : Straight acts (ExceptT.run body)) :
    Straight acts (ExceptT.run (do
      let signal ← (do
        body
        Routine.traverse node Loop.completedPin)
      return Flow.forward signal)) :=
  bind (bind through fun _ => follow node Loop.completedPin) fun _ => pure _

end Straight

/-- What only reads goes straight on. -/
theorem Reads.straight {volatile : Bool} {α : Type} {script : Script (Except Fault α)}
    (reads : Reads volatile node script) : Straight false script := by
  induction reads with
  | done _ goes => exact .done goes
  | context _ _ ih => exact .plain (c := .context) trivial ih
  | input faults _ ih => exact .pulls faults ih

namespace Kinds

variable {kind : Kind} (node : Node)

/-- Every built-in evaluator goes straight on and does not act. -/
theorem straight_evaluate (known : kind ∈ builtin) (pin : String) :
    Straight false (ExceptT.run (kind.evaluate node pin)) :=
  (reads_of_builtin known node pin).straight

/-- Every built-in executor goes straight on. -/
theorem straight_execute (known : kind ∈ builtin) :
    Straight true (ExceptT.run (kind.execute node)) := by
  cases builtin_of_mem known with
  | onEvent =>
    simp only [onEvent]
    split
    · exact .pure _
    · exact .call (c := .context) trivial fun _ => .pure _
  | branch => exact .input fun condition => .pure _
  | sequence =>
    refine .setting (failsByWiring_sequenceCount _) fun count => ?_
    exact .bind (.followAll _ _) fun signal => .pure _
  | forEach =>
    refine .input fun array => ?_
    split
    · exact .loop (.eachFrom _ 0 _)
    · exact .loop (.eachFrom _ 0 [])
    · exact .fail _ _
  | whileLoop => exact .call (c := .about) trivial fun about => .loop (.whileFrom _ _ _)
  | breakLoop => exact .pure _
  | setVariable =>
    refine .setting (failsByWiring_requiredName _ _ _) fun name => ?_
    refine .input fun value => ?_
    exact .call (c := .assign _ _) trivial fun _ => .pure _
  | persistVariable =>
    refine .setting (failsByWiring_requiredName _ _ _) fun key => ?_
    refine .input fun value => ?_
    exact .call (c := .persist _) trivial fun _ => .pure _
  | agentAction =>
    refine .input fun name => ?_
    split
    · refine .input fun payload => .lets fun answer => ?_
      cases answer with
      | ok | error => exact .call (c := .store _ _) trivial fun _ => .pure _
    · exact .fail _ _
  | log =>
    refine .input fun message => ?_
    exact .call (c := .log _) trivial fun _ => .pure _
  | _ => exact .fail _ _

end Kinds

end Pinflow
