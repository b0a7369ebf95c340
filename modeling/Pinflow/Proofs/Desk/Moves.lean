import Pinflow.Desk.Basic

/-!
# Moves at a desk

Everything that can be done at a desk, cut down to single moves: an invocation is started,
goes on, is cancelled or dropped, gets an answer; the debugger is given a command; time
passes. No move settles the desk, so a list of moves is one way in which invocations,
answers and commands can interleave. `Desk.play` makes one move after another, and the
operations of a desk are all such plays.
-/

namespace Pinflow

inductive Breakpoints.Edit where
  | set (graph node : String) (condition : Option String)
  | remove (graph node : String)
  | enable (graph node : String) (enabled : Bool)

/-- Edit the breakpoints. A condition that cannot be read changes nothing. -/
def Debugger.edit (debugger : Debugger) : Breakpoints.Edit → Debugger
  | .set graph node condition =>
    match debugger.setBreakpoint graph node condition with
    | .ok debugger => debugger
    | .error _ => debugger
  | .remove graph node => (debugger.removeBreakpoint graph node).2
  | .enable graph node enabled => (debugger.setEnabled graph node enabled).2

/-- An edit changes nothing but the breakpoints. -/
theorem Debugger.edit_eq (debugger : Debugger) (edit : Breakpoints.Edit) :
    ∃ breakpoints, debugger.edit edit = { debugger with breakpoints } := by
  cases edit with
  | set graph node condition =>
    rw [Debugger.edit, setBreakpoint]
    cases condition.mapM Condition.parse <;> exact ⟨_, rfl⟩
  | remove | enable => exact ⟨_, rfl⟩

namespace Desk

/-- A single move at a desk. -/
inductive Move where
  /-- An invocation is started. -/
  | start (name : String) (identity : Identity) (circuit : Circuit) (request : Request)
  /-- An invocation goes on if it can. -/
  | wake (name : String)
  /-- The token of an invocation is cancelled. -/
  | cancel (name : String)
  /-- An invocation is dropped where it stands. -/
  | drop (name : String)
  /-- The host answers the action of an invocation. -/
  | release (name : String) (answer : Except Fault Value)
  /-- Time passes. -/
  | advance (milliseconds : Nat)
  /-- The breakpoints are edited. -/
  | edit (edit : Breakpoints.Edit)
  /-- The debugger is told to resume a session. -/
  | resume (session : String) (overrides : List (String × Value))
  /-- The debugger is told to stop a session. -/
  | stop (session : String)
  /-- Somebody subscribes to the channel, reads from it or leaves it. -/
  | watch (change : Channel → Channel)

def admits (desk : Desk) (name : String) (identity : Identity) : Bool :=
  desk.invocations.all fun other =>
    other.name != name && other.identity.session != identity.session

def make (desk : Desk) : Move → Desk
  | .start name identity circuit request =>
    if desk.admits name identity then desk.start name identity circuit request else desk
  | .wake name => desk.wake name
  | .cancel name => desk.updateInvocation name fun invocation => { invocation with cancelled := true }
  | .drop name => desk.drop name
  | .release name answer =>
    match (desk.invocation? name).map Invocation.owed with
    | some .answer => desk.updateInvocation name fun invocation =>
        { invocation with owed := .given answer }
    | _ => desk
  | .advance milliseconds =>
    { desk with world := { desk.world with clock := desk.world.clock + milliseconds } }
  | .edit edit => desk.withDebugger (desk.world.debugger.edit edit)
  | .resume session overrides => desk.withDebugger (desk.world.debugger.resume session overrides).2
  | .stop session =>
    match desk.world.debugger.stop session with
    | .ok debugger => (desk.withDebugger debugger).cancelSession session
    | .error _ => desk
  | .watch change =>
    desk.withDebugger { desk.world.debugger with channel := change desk.world.debugger.channel }

def play (desk : Desk) (moves : List Move) : Desk := moves.foldl make desk

@[simp] theorem play_nil (desk : Desk) : desk.play [] = desk := rfl

@[simp] theorem play_cons (desk : Desk) (move : Move) (moves : List Move) :
    desk.play (move :: moves) = (desk.make move).play moves := rfl

@[simp] theorem play_append (desk : Desk) (first second : List Move) :
    desk.play (first ++ second) = (desk.play first).play second := List.foldl_append

/-- The settings of a desk stay. -/
theorem settings_make (desk : Desk) (move : Move) : (desk.make move).settings = desk.settings := by
  cases move with
  | start | release | stop =>
    rw [make]
    split <;> rfl
  | wake =>
    rw [make, wake]
    split <;> rfl
  | drop =>
    rw [make, drop]
    split
    · rfl
    · split <;> rfl
  | _ => rfl

theorem settings_play (desk : Desk) (moves : List Move) :
    (desk.play moves).settings = desk.settings := by
  induction moves generalizing desk with
  | nil => rfl
  | cons move moves ih => exact (ih (desk.make move)).trans (desk.settings_make move)

/-- The invocation that a name stands for. -/
theorem mem_of_invocation? {desk : Desk} {name : String} {invocation : Invocation}
    (found : desk.invocation? name = some invocation) :
    invocation ∈ desk.invocations ∧ invocation.name = name :=
  ⟨List.mem_of_find?_eq_some found, by simpa using List.find?_some found⟩

theorem updateInvocation_of_none {desk : Desk} {name : String} {f : Invocation → Invocation}
    (none : desk.invocation? name = none) : desk.updateInvocation name f = desk := by
  have same : desk.invocations.map (fun invocation =>
      if invocation.name == name then f invocation else invocation) = desk.invocations := by
    refine (List.map_congr_left fun invocation member => ?_).trans (List.map_id _)
    exact if_neg (List.find?_eq_none.mp none invocation member)
  rw [updateInvocation, same]

/-- An invocation that is admitted joins the others. -/
theorem make_start_of_admits {desk : Desk} {name : String} {identity : Identity} {circuit : Circuit}
    {request : Request} (admits : desk.admits name identity = true) :
    let begun := Invocation.begin desk.settings desk.world circuit name identity request
    desk.make (.start name identity circuit request) =
      { desk with invocations := desk.invocations ++ [begun.1], world := begun.2 } := by
  have all : desk.invocations.filter (fun other => other.name != name) = desk.invocations := by
    refine List.filter_eq_self.mpr fun other member => ?_
    simp only [Desk.admits, List.all_eq_true, Bool.and_eq_true] at admits
    exact (admits other member).1
  simp only [make, if_pos admits, Desk.start, all]

/-- Everyone's turn. -/
def round (desk : Desk) : List Move := desk.turns.map .wake

theorem settle_eq_play (desk : Desk) : desk.settle = desk.play desk.round := by
  rw [settle, play, round, List.foldl_map]
  rfl

/-- A move, and then everyone's turn. -/
def andSettle (desk : Desk) (move : Move) : List Move := move :: (desk.make move).round

theorem play_andSettle (desk : Desk) (move : Move) :
    desk.play (desk.andSettle move) = (desk.make move).settle := by
  rw [andSettle, play_cons, settle_eq_play]

theorem resume_eq_play (desk : Desk) (session : String) (overrides : List (String × Value)) :
    (desk.resume session overrides).2 = desk.play (desk.andSettle (.resume session overrides)) :=
  (desk.play_andSettle (.resume session overrides)).symm

theorem stop_eq_play (desk : Desk) (session : String) :
    (desk.stop session).2 =
      match desk.world.debugger.stop session with
      | .ok _ => desk.play (desk.andSettle (.stop session))
      | .error _ => desk := by
  rw [play_andSettle, make, stop]
  cases desk.world.debugger.stop session <;> rfl

theorem cancel_eq_play (desk : Desk) (name : String) :
    desk.cancel name = desk.play (desk.andSettle (.cancel name)) :=
  (desk.play_andSettle (.cancel name)).symm

theorem drop_eq_play (desk : Desk) (name : String) : desk.drop name = desk.play [.drop name] := rfl

theorem release_eq_play (desk : Desk) (name : String) (answer : Except Fault Value) :
    (desk.release name answer).2 =
      if (desk.release name answer).1 then desk.play (desk.andSettle (.release name answer))
      else desk := by
  rw [play_andSettle, make, release]
  rcases (desk.invocation? name).map Invocation.owed with - | owed
  · rfl
  · cases owed <;> rfl

theorem advance_eq_play (desk : Desk) (milliseconds : Nat) :
    desk.advance milliseconds = desk.play (desk.andSettle (.advance milliseconds)) :=
  (desk.play_andSettle (.advance milliseconds)).symm

/-- Nothing has been started yet. Settings, breakpoints and subscribers may be there. -/
structure Idle (desk : Desk) : Prop where
  invocations : desk.invocations = []
  sessions : desk.world.debugger.sessions = []

end Desk

end Pinflow
