import Mathlib.Data.List.Nodup
import Pinflow.Proofs.Desk.Moves

/-!
# Sessions of their own

What is done to one session of the debugger leaves the other sessions alone. `Apart`
collects what an invocation cannot change for the others while it is driven: their
sessions, the breakpoints but for their counts, and the clock.
-/

namespace Pinflow

open Breakpoints List

namespace Debugger

variable (debugger : Debugger) {id other : String} {after : Debugger}

theorem id_of_session? {session : Session} (found : debugger.session? id = some session) :
    session.id = id := by
  simpa using find?_some found

/-- A change of the session with an id is found under that id and nowhere else. -/
theorem session?_updateSession {f : Session → Session}
    (keeps : ∀ session, session.id = id → (f session).id = id) :
    (debugger.updateSession id f).session? other =
      if other = id then (debugger.session? id).map f else debugger.session? other := by
  simp only [updateSession, session?]
  induction debugger.sessions with
  | nil =>
    split <;> rfl
  | cons session sessions ih =>
    rw [map_cons]
    by_cases mine : session.id = id
    · have kept := keeps session mine
      rw [if_pos (by simpa using mine)]
      by_cases same : other = id
      · rw [if_pos same, same, find?_cons_of_pos (by simpa using kept),
          find?_cons_of_pos (by simpa using mine), Option.map_some]
      · rw [if_neg same] at ih ⊢
        rw [find?_cons_of_neg (by simpa [kept] using Ne.symm same), ih,
          find?_cons_of_neg (by simpa [mine] using Ne.symm same)]
    · rw [if_neg (by simpa using mine)]
      by_cases same : other = id
      · rw [if_pos same] at ih ⊢
        rw [find?_cons_of_neg (by simpa [same] using mine), ih,
          find?_cons_of_neg (by simpa using mine)]
      · rw [if_neg same] at ih ⊢
        rw [find?_cons, find?_cons, ih]

theorem session?_openSession (session : Session) :
    (debugger.openSession session).session? other =
      (debugger.session? other).or (if session.id = other then some session else none) := by
  simp only [openSession, session?, find?_append]
  congr 1
  split
  · rename_i same
    exact find?_cons_of_pos (by simpa using same)
  · rename_i apart
    exact find?_cons_of_neg (by simpa using apart)

theorem session?_closeSession (result : Except Fault Unit) :
    (debugger.closeSession id result).session? other =
      if other = id then none else debugger.session? other := by
  have found : (debugger.sessions.filter fun session => session.id != id).find?
      (fun session => session.id == other) =
        if other = id then none else debugger.session? other := by
    rw [find?_filter]
    split
    · rename_i same
      simp [same]
    · rename_i apart
      congr 1
      funext session
      by_cases same : session.id = other <;> simp [same, apart]
  rw [closeSession]
  cases present : debugger.session? id with
  | some => exact found
  | none =>
    by_cases same : other = id
    · rw [if_pos same, same]
      exact present
    · rw [if_neg same]

theorem beginPause_eq_some {node : String} {snapshot : Value}
    (begun : debugger.beginPause id node snapshot = some after) :
    ∃ session, debugger.session? id = some session ∧ session.status ≠ .stopped ∧
      after = (debugger.updateSession id (·.pause node snapshot)).publish
        ⟨id, session.graph, .paused session.invocation node snapshot⟩ := by
  rw [beginPause] at begun
  cases found : debugger.session? id with
  | none =>
    rw [found] at begun
    cases begun
  | some session =>
    simp only [found] at begun
    split at begun
    · cases begun
    · rename_i going
      refine ⟨session, rfl, ?_, (Option.some.inj begun).symm⟩
      simpa using going

/-- All that a change has done is to change the session `id` by `f` and to publish something. -/
structure Amended (debugger : Debugger) (id : String) (f : Session → Session)
    (after : Debugger) : Prop where
  keeps : ∀ session, session.id = id → (f session).id = id
  amends : ∃ channel, after = { debugger.updateSession id f with channel }

namespace Amended

variable {debugger after : Debugger} {f : Session → Session} (amended : debugger.Amended id f after)
include amended

theorem session? : after.session? other =
    if other = id then (debugger.session? id).map f else debugger.session? other := by
  obtain ⟨keeps, channel, rfl⟩ := amended
  exact debugger.session?_updateSession keeps

theorem own : after.session? id = (debugger.session? id).map f :=
  amended.session?.trans (if_pos rfl)

theorem session?_of_some {session : Session} (present : debugger.session? id = some session) :
    after.session? id = some (f session) := by
  rw [amended.own, present, Option.map_some]

theorem breakpoints : after.breakpoints = debugger.breakpoints := by
  obtain ⟨-, channel, rfl⟩ := amended
  rfl

theorem patience : after.patience = debugger.patience := by
  obtain ⟨-, channel, rfl⟩ := amended
  rfl

end Amended

theorem amended_beginPause {node : String} {snapshot : Value}
    (begun : debugger.beginPause id node snapshot = some after) :
    debugger.Amended id (·.pause node snapshot) after := by
  obtain ⟨session, -, -, rfl⟩ := debugger.beginPause_eq_some begun
  exact ⟨fun _ same => same, _, rfl⟩

theorem amended_endPause (command : Command) :
    debugger.Amended id (·.proceed command) (debugger.endPause id command) :=
  ⟨fun _ same => same, _, rfl⟩

/-- A pause that has lasted too long ends with a stop. -/
theorem amended_expire (node : String) : debugger.Amended id (·.proceed .stop)
    ((debugger.expirePause id node).endPause id .stop) := by
  rw [expirePause]
  split <;> exact ⟨fun _ same => same, _, rfl⟩

theorem amended_abandon : debugger.Amended id Session.abandon (debugger.abandon id) := by
  refine ⟨fun session same => ?_, _, rfl⟩
  rw [Session.abandon]
  split <;> exact same

theorem id_resume (session : Session) (overrides : List (String × Value)) :
    (session.resume overrides).2.id = session.id := by
  rw [Session.resume]
  split <;> rfl

theorem amended_resume {session : Session} (found : debugger.session? id = some session)
    (overrides : List (String × Value)) :
    debugger.Amended id (fun _ => (session.resume overrides).2)
      (debugger.resume id overrides).2 := by
  refine ⟨fun _ _ => (id_resume session overrides).trans (debugger.id_of_session? found), ?_⟩
  simp only [resume, found]
  split <;> exact ⟨_, rfl⟩

theorem resume_of_none (missing : debugger.session? id = none)
    (overrides : List (String × Value)) : (debugger.resume id overrides).2 = debugger := by
  simp only [resume, missing]

theorem resume_eq (id : String) (overrides : List (String × Value)) :
    ∃ channel sessions, (debugger.resume id overrides).2 = { debugger with channel, sessions } := by
  cases found : debugger.session? id with
  | none => exact ⟨_, _, debugger.resume_of_none found overrides⟩
  | some =>
    obtain ⟨-, channel, amends⟩ := debugger.amended_resume found overrides
    exact ⟨channel, _, amends⟩

theorem stop_eq_ok (stopped : debugger.stop id = .ok after) :
    (debugger.session? id).isSome = true ∧ after = debugger.updateSession id Session.stop := by
  rw [stop] at stopped
  cases found : debugger.session? id with
  | none =>
    rw [found] at stopped
    cases stopped
  | some =>
    rw [found] at stopped
    cases stopped
    exact ⟨rfl, rfl⟩

theorem amended_stop (stopped : debugger.stop id = .ok after) :
    debugger.Amended id Session.stop after := by
  rw [(debugger.stop_eq_ok stopped).2]
  exact ⟨fun _ same => same, _, rfl⟩

@[simp] theorem session?_edit (edit : Edit) :
    (debugger.edit edit).session? other = debugger.session? other := by
  obtain ⟨_, edited⟩ := debugger.edit_eq edit
  rw [edited]
  rfl

end Debugger

def Breakpoint.bare (breakpoint : Breakpoint) : Breakpoint := { breakpoint with hits := 0 }

namespace Breakpoints

variable (breakpoints : Breakpoints) (graph : String)

/-- The breakpoints but for their counts. -/
def bare (breakpoints : Breakpoints) : Breakpoints := breakpoints.map Breakpoint.bare

theorem bare_update (node : String) {f g : Breakpoint → Breakpoint}
    (same : ∀ breakpoint, (f breakpoint).bare = g breakpoint.bare) :
    (breakpoints.update graph node f).bare = breakpoints.bare.update graph node g := by
  simp only [update, bare, map_map]
  refine map_congr_left fun breakpoint _ => ?_
  simp only [Function.comp_apply]
  by_cases here : breakpoint.isAt graph node = true
  · have bare : breakpoint.bare.isAt graph node = true := here
    rw [if_pos here, if_pos bare, same]
  · have bare : ¬ breakpoint.bare.isAt graph node = true := here
    rw [if_neg here, if_neg bare]

theorem bare_remove (node : String) :
    (breakpoints.remove graph node).bare = breakpoints.bare.remove graph node := by
  simp only [remove, bare, filter_map]
  rfl

theorem bare_set (breakpoint : Breakpoint) :
    (breakpoints.set breakpoint).bare =
      breakpoints.bare.remove breakpoint.graph breakpoint.node ++ [breakpoint.bare] := by
  rw [← bare_remove]
  exact map_append

theorem find?_bare (node : String) :
    breakpoints.bare.find? graph node = (breakpoints.find? graph node).map Breakpoint.bare :=
  find?_map

/-- Whether a visit is stopped does not depend on the counts. -/
theorem isSome_visit (node : String) (vars : Fields) :
    (breakpoints.visit graph node vars).1.isSome =
      (breakpoints.bare.visit graph node vars).1.isSome := by
  rw [visit, visit, find?_bare]
  cases breakpoints.find? graph node with
  | none => rfl
  | some breakpoint =>
    have same : breakpoint.bare.stops vars = breakpoint.stops vars := rfl
    simp only [Option.map_some, same]
    split <;> rfl

/-- A visit changes nothing but counts. -/
theorem bare_visit (node : String) (vars : Fields) :
    (breakpoints.visit graph node vars).2.bare = breakpoints.bare := by
  rw [visit]
  split
  · split
    · have counted : ∀ breakpoint : Breakpoint,
          { breakpoint with hits := breakpoint.hits + 1 }.bare = id breakpoint.bare := fun _ => rfl
      refine (breakpoints.bare_update graph node counted).trans ?_
      refine (map_congr_left fun breakpoint _ => ?_).trans (map_id _)
      split <;> rfl
    · rfl
  · rfl

end Breakpoints

theorem Debugger.bare_edit {debugger other : Debugger}
    (same : debugger.breakpoints.bare = other.breakpoints.bare) (edit : Edit) :
    (debugger.edit edit).breakpoints.bare = (other.edit edit).breakpoints.bare := by
  cases edit with
  | set graph node condition =>
    simp only [Debugger.edit, setBreakpoint]
    cases condition.mapM Condition.parse with
    | error => exact same
    | ok =>
      change (Breakpoints.set _ _).bare = (Breakpoints.set _ _).bare
      rw [bare_set, bare_set, same]
  | remove graph node =>
    change (remove _ graph node).bare = (remove _ graph node).bare
    rw [bare_remove, bare_remove, same]
  | enable graph node enabled =>
    change (update _ graph node _).bare = (update _ graph node _).bare
    rw [bare_update (g := fun breakpoint => { breakpoint with enabled }) _ _ _ fun _ => rfl,
      bare_update (g := fun breakpoint => { breakpoint with enabled }) _ _ _ fun _ => rfl,
      same]

namespace Debugger

variable {debugger after : Debugger} {session : Session}

def ids (debugger : Debugger) : List String := debugger.sessions.map Session.id

theorem Amended.nodup {id : String} {f : Session → Session}
    (amended : debugger.Amended id f after) (nodup : debugger.ids.Nodup) : after.ids.Nodup := by
  obtain ⟨keeps, channel, rfl⟩ := amended
  simp only [ids, updateSession, List.map_map]
  refine (map_congr_left fun session _ => ?_) ▸ nodup
  simp only [Function.comp_apply]
  split
  · rename_i same
    have same : session.id = id := by simpa using same
    rw [keeps session same, same]
  · rfl

theorem nodup_openSession (free : debugger.session? session.id = none)
    (nodup : debugger.ids.Nodup) : (debugger.openSession session).ids.Nodup := by
  rw [ids, openSession, map_append]
  refine nodup.append (nodup_singleton _) (disjoint_singleton.mpr ?_)
  simpa [session?, ids] using free

theorem session?_of_mem (nodup : debugger.ids.Nodup) (member : session ∈ debugger.sessions) :
    debugger.session? session.id = some session := by
  have isSome : (debugger.session? session.id).isSome = true :=
    find?_isSome.mpr ⟨session, member, beq_self_eq_true _⟩
  obtain ⟨found, present⟩ := Option.isSome_iff_exists.mp isSome
  rw [present, inj_on_of_nodup_map nodup (mem_of_find?_eq_some present) member
    (debugger.id_of_session? present)]

end Debugger

/-- Between two states of the surroundings only the session `id` was changed, as far as
other invocations can tell, and the table got no second entry of a session. -/
structure Surroundings.Apart (id : String) (world after : Surroundings) : Prop where
  sessions : ∀ other, other ≠ id →
    after.debugger.session? other = world.debugger.session? other
  breakpoints : after.debugger.breakpoints.bare = world.debugger.breakpoints.bare
  patience : after.debugger.patience = world.debugger.patience
  clock : after.clock = world.clock
  now : after.now = world.now
  nodup : world.debugger.ids.Nodup → after.debugger.ids.Nodup

namespace Surroundings.Apart

variable {id : String} {world after last : Surroundings}

theorem refl (world : Surroundings) : Apart id world world :=
  ⟨fun _ _ => rfl, rfl, rfl, rfl, rfl, fun nodup => nodup⟩

theorem trans (first : Apart id world after) (second : Apart id after last) :
    Apart id world last where
  sessions other apart := (second.sessions other apart).trans (first.sessions other apart)
  breakpoints := second.breakpoints.trans first.breakpoints
  patience := second.patience.trans first.patience
  clock := second.clock.trans first.clock
  now := second.now.trans first.now
  nodup nodup := second.nodup (first.nodup nodup)

end Surroundings.Apart

theorem Debugger.Amended.apart {world : Surroundings} {id : String} {f : Session → Session}
    {debugger : Debugger} (amended : world.debugger.Amended id f debugger) :
    world.Apart id { world with debugger } :=
  ⟨fun _ differs => amended.session?.trans (if_neg differs), congrArg bare amended.breakpoints,
    amended.patience, rfl, rfl, amended.nodup⟩

end Pinflow
