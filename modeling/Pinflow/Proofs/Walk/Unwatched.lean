import Pinflow.Walk.Serve

/-!
# Walks that nobody watches

How much a pause may show to those who watch is fixed by the setting of a walk, and it is the
only thing about watching that a walk knows of. `unwatched` blots out what the pauses show. What
is left of a walk does not depend on that bound, whichever scripts its nodes run.
-/

namespace Pinflow

def Setting.unwatched (setting : Setting) : Setting := { setting with maxSnapshot := 0 }

theorem Setting.circuit_unwatched (setting : Setting) :
    setting.unwatched.circuit = setting.circuit := rfl

namespace Walk

variable {α β : Type}

def unwatched : Walk α → Walk α
  | Dialogue.done result => Dialogue.done result
  | Dialogue.ask (.pause session node _) next =>
    Dialogue.ask (.pause session node .null) fun command => unwatched (next command)
  | Dialogue.ask q next => Dialogue.ask q fun answer => unwatched (next answer)

theorem unwatched_bind (walk : Walk α) (rest : α → Walk β) :
    unwatched (walk >>= rest) = unwatched walk >>= fun result => unwatched (rest result) := by
  induction walk with
  | done => rfl
  | ask q next ih => cases q <;> exact congrArg (Dialogue.ask _) (funext ih)

/-- Blotting out twice is blotting out once. -/
theorem unwatched_unwatched (walk : Walk α) : unwatched (unwatched walk) = unwatched walk := by
  induction walk with
  | done => rfl
  | ask q next ih => cases q <;> exact congrArg (Dialogue.ask _) (funext ih)

/-- Computations that are the same from every state, but for what their pauses show. -/
def SameUnwatched (x y : Stateful α) : Prop :=
  ∀ walker, unwatched (x.run walker) = unwatched (y.run walker)

namespace SameUnwatched

protected theorem rfl {x : Stateful α} : SameUnwatched x x := fun _ => Eq.refl _

theorem bind {x y : Stateful α} {f g : α → Stateful β} (first : SameUnwatched x y)
    (rest : ∀ a, SameUnwatched (f a) (g a)) : SameUnwatched (x >>= f) (y >>= g) := by
  intro walker
  have left := unwatched_bind (x.run walker) fun result => (f result.1).run result.2
  have right := unwatched_bind (y.run walker) fun result => (g result.1).run result.2
  refine left.trans (Eq.trans ?_ right.symm)
  rw [first walker]
  exact congrArg _ (funext fun result => rest result.1 result.2)

theorem run_bind {x y : Guarded α} {f g : α → Guarded β}
    (first : SameUnwatched (ExceptT.run x) (ExceptT.run y))
    (rest : ∀ a, SameUnwatched (ExceptT.run (f a)) (ExceptT.run (g a))) :
    SameUnwatched (ExceptT.run (x >>= f)) (ExceptT.run (y >>= g)) := by
  apply first.bind
  intro result
  cases result with
  | ok a => exact rest a
  | error => exact .rfl

theorem run_lift {x y : Stateful α} (same : SameUnwatched x y) :
    SameUnwatched (ExceptT.run (ExceptT.lift x : Guarded α)) (ExceptT.run (ExceptT.lift y)) := by
  rw [ExceptT.run_lift, ExceptT.run_lift, map_eq_pure_bind, map_eq_pure_bind]
  exact same.bind fun _ => .rfl

end SameUnwatched

variable {setting : Setting}

theorem assignAll_unwatched (overrides : List (String × Value)) :
    assignAll setting.unwatched overrides = assignAll setting overrides := by
  induction overrides with
  | nil => rfl
  | cons override rest ih => exact congrArg (assign setting _ _ >>= fun _ => ·) ih

theorem pauseAt_unwatched (node : String) (hits : Nat) :
    SameUnwatched (ExceptT.run (pauseAt setting node hits))
      (ExceptT.run (pauseAt setting.unwatched node hits)) := by
  refine .run_bind .rfl fun session => .run_bind .rfl fun walker => ?_
  refine .run_bind (.run_lift fun _ => rfl) fun command => ?_
  cases command with
  | stop => exact .rfl
  | resume =>
    simp only [assignAll_unwatched]
    exact .rfl

theorem checkpoint_unwatched (node : String) :
    SameUnwatched (ExceptT.run (checkpoint setting node))
      (ExceptT.run (checkpoint setting.unwatched node)) := by
  refine .run_bind .rfl fun walker => .run_bind .rfl fun hit => ?_
  cases hit with
  | none => exact .rfl
  | some hits => exact pauseAt_unwatched node hits

section inner

variable {inner other : Server} (served : ∀ c, SameUnwatched (inner c) (other c))
include served

theorem perform_unwatched (script : Script α) :
    SameUnwatched (perform inner script) (perform other script) := by
  induction script with
  | done => exact .rfl
  | ask c next ih => exact (served c).bind ih

theorem compute_unwatched (source : PinRef) (part : Part) :
    SameUnwatched (ExceptT.run (compute inner source part))
      (ExceptT.run (compute other source part)) := by
  refine .run_bind .rfl fun _ => .run_bind .rfl fun _ => ?_
  exact .run_bind (.run_lift (perform_unwatched served _)) fun _ => .rfl

theorem pull_unwatched (source : PinRef) :
    SameUnwatched (ExceptT.run (pull setting inner source))
      (ExceptT.run (pull setting.unwatched other source)) := by
  refine .run_bind .rfl fun walker => .run_bind .rfl fun _ => ?_
  have computed : SameUnwatched
      (ExceptT.run (do
        checkCancelled setting
        let part ← setting.circuit.part source.node
        compute inner source part))
      (ExceptT.run (do
        checkCancelled setting.unwatched
        let part ← setting.unwatched.circuit.part source.node
        compute other source part)) :=
    .run_bind .rfl fun _ => .run_bind .rfl fun part => compute_unwatched served source part
  cases walker.memo.get? source with
  | some => exact .rfl
  | none =>
    simp only
    split
    · exact .run_bind .rfl fun _ => computed
    · exact computed

theorem output_unwatched (source : PinRef) :
    SameUnwatched (ExceptT.run (output setting inner source))
      (ExceptT.run (output setting.unwatched other source)) :=
  .run_bind (.run_lift (pull_unwatched served source)) fun _ => .rfl

theorem resolve_unwatched (node pin : String) (default : Value) :
    SameUnwatched (ExceptT.run (resolve setting inner node pin default))
      (ExceptT.run (resolve setting.unwatched other node pin default)) := by
  rw [resolve, resolve, setting.circuit_unwatched]
  cases setting.circuit.incoming? node pin with
  | some source => exact .run_bind (output_unwatched served source) fun _ => .rfl
  | none => exact .rfl

theorem input_unwatched (node pin : String) :
    SameUnwatched (ExceptT.run (input setting inner node pin))
      (ExceptT.run (input setting.unwatched other node pin)) := by
  refine .run_bind .rfl fun part => ?_
  cases part.schema.input? pin with
  | none => exact .rfl
  | some => exact .run_bind (resolve_unwatched served node pin _) fun _ => .rfl

theorem execute_unwatched (node : String) (part : Part) :
    SameUnwatched (ExceptT.run (execute inner node part))
      (ExceptT.run (execute other node part)) := by
  refine .run_bind .rfl fun _ => .run_bind (.run_lift (perform_unwatched served _)) fun result => ?_
  refine .run_bind .rfl fun _ => .run_bind .rfl fun flow => ?_
  cases flow with
  | next pin =>
    simp only
    split
    · exact served (.traverse node pin)
    · exact .rfl
  | finish | «break» | forward signal => exact .rfl

theorem run_unwatched (node : String) :
    SameUnwatched (ExceptT.run (run setting inner node))
      (ExceptT.run (run setting.unwatched other node)) := by
  refine .run_bind .rfl fun _ => .run_bind .rfl fun part => ?_
  refine .run_bind (checkpoint_unwatched node) fun _ => .run_bind .rfl fun _ => ?_
  exact execute_unwatched served node part

theorem traverse_unwatched (node pin : String) :
    SameUnwatched (ExceptT.run (traverse setting inner node pin))
      (ExceptT.run (traverse setting.unwatched other node pin)) := by
  have follows : SameUnwatched (ExceptT.run (follow setting inner node pin))
      (ExceptT.run (follow setting.unwatched other node pin)) := by
    rw [follow, follow, setting.circuit_unwatched]
    cases setting.circuit.execTarget? node pin with
    | none => exact .rfl
    | some target => exact .run_bind .rfl fun _ => run_unwatched served target.node
  exact .run_bind .rfl fun _ => .run_bind (.run_lift follows) fun _ => .rfl

/-- Every call is answered alike. -/
theorem answer_unwatched (c : Call) :
    SameUnwatched (answer setting inner c) (answer setting.unwatched other c) := by
  cases c with
  | input node pin => exact input_unwatched served node pin
  | resolve node pin default => exact resolve_unwatched served node pin default
  | output source => exact output_unwatched served source
  | traverse node pin => exact traverse_unwatched served node pin
  | run node => exact run_unwatched served node
  | _ => exact .rfl

end inner

theorem serve_unwatched (depth : Nat) (c : Call) :
    SameUnwatched (serve setting depth c) (serve setting.unwatched depth c) := by
  induction depth generalizing c with
  | zero => exact .rfl
  | succ depth ih => exact answer_unwatched ih c

/-- A walk is the same whatever its pauses may show, whichever scripts its nodes run. -/
theorem start_unwatched (setting : Setting) (depth : Nat) (entry : String) (context : Context) :
    unwatched (start setting depth entry context) =
      unwatched (start setting.unwatched depth entry context) := by
  rw [start, start, unwatched_bind, unwatched_bind, serve_unwatched depth (.run entry) { context }]

end Walk

end Pinflow
