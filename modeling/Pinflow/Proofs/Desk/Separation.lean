import Pinflow.Proofs.Desk.Agreement
import Pinflow.Proofs.Desk.Cancellation

/-!
# Invocations side by side

Invocations of circuits of built-in nodes do not interfere. Whatever else is done at the
desk, an invocation comes to the same as in a play in which it is alone and only the moves
that concern it are made: what is done to itself and to its session, edits of the
breakpoints, and the passing of time.
-/

namespace Pinflow

open Invocation

namespace Desk

/-- The moves that an invocation meets when it is alone. -/
def Move.concerns (name session : String) : Move → Bool
  | .wake other | .cancel other | .drop other | .release other _ => other == name
  | .resume other _ | .stop other => other == session
  | .advance _ | .edit _ => true
  | .start _ _ _ _ | .watch _ => false

variable {name id : String} {move : Move} {invocation : Invocation}
  {world other world' other' : Surroundings}

theorem Beside.of_unconcerned (unconcerned : move.concerns name id = false)
    (world : Surroundings) : Beside id move world world := by
  cases move with
  | resume session | stop session =>
    have apart : session ≠ id := by simpa [Move.concerns] using unconcerned
    exact .refl rfl rfl fun _ _ => if_neg apart
  | advance => cases unconcerned
  | edit => cases unconcerned
  | _ => exact .refl rfl rfl fun _ _ => rfl

theorem Move.onInvocation_of_unconcerned
    (unconcerned : move.concerns invocation.name id = false)
    (own : ∀ session, invocation.session = some session → session = id) (world : Surroundings) :
    move.onInvocation world invocation = invocation := by
  cases move with
  | stop session =>
    have apart : session ≠ id := by simpa [Move.concerns] using unconcerned
    refine if_neg fun both => apart (own session ?_)
    simpa using (Bool.and_eq_true_iff.mp both).2
  | wake | cancel | drop | release =>
    exact if_neg (by simpa [Move.concerns] using unconcerned)
  | _ => rfl

/-- The same move on both sides. -/
theorem Beside.agree (agree : world.Agree id other) (left : Beside id move world world')
    (right : Beside id move other other') : world'.Agree id other' where
  session := by
    rw [left.session, right.session]
    refine Surroundings.Agree.session_map agree.session fun s snapshot => ?_
    cases move with
    | resume =>
      obtain ⟨_, _, _, _, _, _, line⟩ := s
      simp only [Move.onSession]
      split
      · cases line <;> rfl
      · rfl
    | stop =>
      simp only [Move.onSession]
      split <;> rfl
    | _ => rfl
  breakpoints := by
    rw [left.breakpoints, right.breakpoints]
    cases move with
    | edit change => exact Debugger.bare_edit agree.breakpoints change
    | _ => exact agree.breakpoints
  patience := by rw [left.patience, right.patience, agree.patience]
  clock := by rw [left.clock, right.clock, agree.clock]
  now := by rw [left.now, right.now, agree.now]

/-- What a move does to an invocation does not depend on its stage, unless it has its turn
or is dropped. -/
theorem Move.onInvocation_stage (agree : world.Agree id other)
    (concerned : move.concerns invocation.name id = true)
    (turn : move ≠ .wake invocation.name) (drop : move ≠ .drop invocation.name) (stage : Stage) :
    move.onInvocation other { invocation with stage } =
      { move.onInvocation world invocation with stage } := by
  cases move with
  | wake => exact absurd (congrArg Move.wake (by simpa [concerns] using concerned)) turn
  | drop => exact absurd (congrArg Move.drop (by simpa [concerns] using concerned)) drop
  | stop session =>
    obtain rfl : session = id := by simpa [concerns] using concerned
    simp only [onInvocation, agree.isSome_session?]
    split <;> rfl
  | cancel =>
    simp only [onInvocation]
    split <;> rfl
  | release =>
    simp only [onInvocation, Invocation.release]
    split
    · split <;> rfl
    · rfl
  | _ => rfl

variable {desk lonely : Desk} {log log' : List Deed} {identity : Identity}

/-- An invocation that is admitted in the end could have been admitted before. -/
theorem Sound.admits_of_play (sound : desk.Sound log) (moves : List Move)
    (admits : (desk.play moves).admits name identity = true) :
    desk.admits name identity = true := by
  obtain ⟨-, carries⟩ := sound.play moves
  rw [Desk.admits, List.all_eq_true] at admits ⊢
  intro someone member
  obtain ⟨birth, past, -, kept⟩ := sound.kept someone member
  obtain ⟨after, isAfter, past', -, kept'⟩ := carries someone member birth past kept
  have admitted := admits after isAfter
  rwa [kept'.name, kept'.identity, ← kept.name, ← kept.identity] at admitted

/-- Moves other than a start leave an empty desk empty. -/
theorem invocations_make_of_nil (empty : desk.invocations = [])
    (concerned : move.concerns name id = true) : (desk.make move).invocations = [] := by
  have missing : ∀ name, desk.invocation? name = none := by
    intro name
    rw [invocation?, empty]
    rfl
  cases move with
  | start => cases concerned
  | watch => cases concerned
  | wake => simp only [make, wake, missing, empty]
  | cancel name => rw [make, updateInvocation_of_none (missing name), empty]
  | drop => simp only [make, Desk.drop, missing, empty]
  | release => simp only [make, missing, Option.map_none, empty]
  | stop =>
    rw [make]
    split
    · simp only [cancelSession, withDebugger, empty, List.map_nil]
    · exact empty
  | _ => exact empty

/-- A desk, and one where nothing is but what concerns an invocation that has not begun. -/
structure Apart (identity : Identity) (desk lonely : Desk) : Prop where
  sound : ∃ log, desk.Sound log
  empty : lonely.invocations = []
  sound' : ∃ log, lonely.Sound log
  settings : desk.settings = lonely.settings
  agree : desk.world.Agree identity.session lonely.world

theorem Apart.make (apart : Apart identity desk lonely) (move : Move)
    (admits : (desk.make move).admits name identity = true) :
    Apart identity (desk.make move)
      (if move.concerns name identity.session then lonely.make move else lonely) := by
  obtain ⟨⟨log, sound⟩, empty, ⟨log', sound'⟩, settings, agree⟩ := apart
  have before : desk.admits name identity = true :=
    sound.admits_of_play [move] admits
  have left : Beside identity.session move desk.world (desk.make move).world := by
    refine sound.beside_session _ move ?_ ?_
    · exact fun someone member same => absurd same ((sound.admitted before).1 someone member).2
    · rintro other identity' circuit request rfl isAdmitted same
      obtain ⟨others, -⟩ := (sound.make (.start other identity' circuit request)).1.admitted admits
      have found := invocation?_make_start isAdmitted circuit request
      refine (others _ (mem_of_invocation? found).1).2 ?_
      rw [(begin_identity _ _ _ _ _ _).2, same]
  have kept := (sound.make move).1
  by_cases concerned : move.concerns name identity.session = true
  · rw [if_pos concerned]
    refine ⟨⟨_, kept⟩, invocations_make_of_nil empty concerned, ⟨_, (sound'.make move).1⟩, ?_, ?_⟩
    · rw [settings_make, settings_make, settings]
    · refine Beside.agree agree left (sound'.beside_session _ move ?_ ?_)
      · intro someone member
        rw [empty] at member
        cases member
      · rintro other identity' circuit request rfl
        cases concerned
  · rw [if_neg concerned]
    refine ⟨⟨_, kept⟩, empty, ⟨_, sound'⟩, ?_, ?_⟩
    · rw [settings_make, settings]
    · exact Beside.agree agree left (.of_unconcerned (by simpa using concerned) _)

theorem play_filter_cons (desk : Desk) (p : Move → Bool) (move : Move) (moves : List Move) :
    desk.play ((move :: moves).filter p) =
      (if p move then desk.make move else desk).play (moves.filter p) := by
  rw [List.filter_cons]
  split <;> rfl

theorem Apart.play (apart : Apart identity desk lonely) (moves : List Move)
    (admits : (desk.play moves).admits name identity = true) :
    Apart identity (desk.play moves)
      (lonely.play (moves.filter (Move.concerns name identity.session))) := by
  induction moves generalizing desk lonely with
  | nil => exact apart
  | cons move moves ih =>
    obtain ⟨log, sound⟩ := apart.sound
    have next := (sound.make move).1.admits_of_play moves admits
    rw [play_filter_cons]
    exact ih (apart.make move next) admits

structure Along (name : String) (identity : Identity) (desk lonely : Desk) : Prop where
  sound : ∃ log, desk.Sound log
  sound' : ∃ log, lonely.Sound log
  abreast : ∃ invocation other, desk.invocation? name = some invocation ∧
    lonely.invocation? name = some other ∧ invocation.identity = identity ∧
    Abreast (invocation, desk.world) (other, lonely.world)

theorem Apart.start {circuit : Circuit} (apart : Apart identity desk lonely) (request : Request)
    (wired : Circuit.Wired Registry.builtin circuit)
    (admits : desk.admits name identity = true) :
    Along name identity (desk.make (.start name identity circuit request))
      (lonely.make (.start name identity circuit request)) := by
  obtain ⟨⟨log, sound⟩, empty, ⟨log', sound'⟩, settings, agree⟩ := apart
  have admits' : lonely.admits name identity = true := by rw [Desk.admits, empty, List.all_nil]
  refine ⟨⟨_, (sound.make _).1⟩, ⟨_, (sound'.make _).1⟩, _, _,
    invocation?_make_start admits circuit request, invocation?_make_start admits' circuit request,
    (begin_identity _ _ _ _ _ _).2, ?_⟩
  rw [make_start_of_admits admits, make_start_of_admits admits', ← settings]
  exact begin_abreast wired agree desk.settings name request

/-- An invocation is dropped where it stands. -/
theorem drop_abreast {stage : Stage} (found : desk.invocation? name = some invocation)
    (found' : lonely.invocation? name = some { invocation with stage })
    (agree : desk.world.Agree invocation.identity.session lonely.world)
    (rests : Stage.Abreast invocation.identity.session invocation.stage stage) :
    Abreast (invocation.drop, (desk.make (.drop name)).world)
      ({ invocation with stage }.drop, (lonely.make (.drop name)).world) := by
  simp only [make, Desk.drop, Invocation.drop, found, found']
  have same := rests
  generalize isOwn : invocation.stage = own at rests
  cases rests with
  | paused => exact ⟨⟨_, rfl, .dropped⟩, agree.abandon⟩
  | waiting => exact ⟨⟨_, rfl, .dropped⟩, agree⟩
  | _ => exact ⟨⟨_, rfl, same⟩, agree⟩

theorem Along.make (along : Along name identity desk lonely) (move : Move) :
    Along name identity (desk.make move)
      (if move.concerns name identity.session then lonely.make move else lonely) := by
  obtain ⟨⟨log, sound⟩, ⟨log', sound'⟩, invocation, other, found, found', rfl,
    ⟨stage, same, rests⟩, agree⟩ := along
  obtain rfl : other = { invocation with stage } := same
  obtain ⟨member, named⟩ := mem_of_invocation? found
  have next := invocation?_make found move
  have next' := invocation?_make found' move
  have kept := (sound.make move).1
  have kept' := (sound'.make move).1
  by_cases turn : move = .wake name
  · subst turn
    rw [Move.onInvocation, if_pos named.symm] at next next'
    rw [Move.concerns, beq_self_eq_true, if_pos rfl]
    refine ⟨⟨_, kept⟩, ⟨_, kept'⟩, _, _, next, next', (invocation.wake_identity _).2, ?_⟩
    rw [world_make_wake found, world_make_wake found']
    exact wake_abreast agree rests
  by_cases drop : move = .drop name
  · subst drop
    rw [Move.onInvocation, if_pos named.symm] at next next'
    rw [Move.concerns, beq_self_eq_true, if_pos rfl]
    refine ⟨⟨_, kept⟩, ⟨_, kept'⟩, _, _, next, next', ?_, drop_abreast found found' agree rests⟩
    rw [Invocation.drop]
    split <;> rfl
  obtain ⟨cancelled, owed, change, -⟩ :=
    Move.onInvocation_eq desk.world (named ▸ turn) (named ▸ drop)
  have left := sound.beside found move turn drop
  by_cases concerned : move.concerns name invocation.identity.session = true
  · rw [if_pos concerned]
    refine ⟨⟨_, kept⟩, ⟨_, kept'⟩, _, _, next, next', by rw [change], ?_⟩
    rw [Move.onInvocation_stage agree (named ▸ concerned) (named ▸ turn) (named ▸ drop), change]
    exact ⟨⟨stage, rfl, rests⟩, Beside.agree agree left (sound'.beside found' move turn drop)⟩
  · rw [if_neg concerned]
    have unconcerned := Bool.eq_false_iff.mpr concerned
    have own : ∀ session, invocation.session = some session →
        session = invocation.identity.session := by
      obtain ⟨birth, past, -, standing, rest, follows, -⟩ := sound.kept invocation member
      intro session isOpen
      rw [follows.own isOpen, follows.session_eq]
    rw [Move.onInvocation_of_unconcerned (named ▸ unconcerned) own] at next
    refine ⟨⟨_, kept⟩, ⟨_, sound'⟩, _, _, next, found', rfl, ⟨stage, rfl, rests⟩, ?_⟩
    exact Beside.agree agree left (.of_unconcerned unconcerned _)

theorem Along.play (along : Along name identity desk lonely) (moves : List Move) :
    Along name identity (desk.play moves)
      (lonely.play (moves.filter (Move.concerns name identity.session))) := by
  induction moves generalizing desk lonely with
  | nil => exact along
  | cons move moves ih =>
    rw [play_filter_cons]
    exact ih (along.make move)

/-- An invocation among others comes to what it comes to alone: the same outcome, if it ends,
and the same pauses and calls until then. -/
theorem view_eq_alone {desk : Desk} (idle : desk.Idle) (before after : List Move)
    {circuit : Circuit} {graph : Graph} (request : Request)
    (loaded : Circuit.load Registry.builtin graph = .ok circuit)
    (admits : (desk.play before).admits name identity = true) :
    let start := Move.start name identity circuit request
    let alone := List.filter (Move.concerns name identity.session)
    ∃ invocation lonely,
      (desk.play (before ++ start :: after)).invocation? name = some invocation ∧
      (desk.play (alone before ++ start :: alone after)).invocation? name = some lonely ∧
      invocation.stage.view = lonely.stage.view ∧ invocation.callsRev = lonely.callsRev := by
  intro start alone
  have apart : Apart identity desk desk :=
    ⟨⟨[], idle.sound⟩, idle.invocations, ⟨[], idle.sound⟩, rfl, .refl _⟩
  have begun := (apart.play before admits).start request (Circuit.wired_of_load loaded) admits
  obtain ⟨-, -, invocation, lonely, found, found', -, ⟨stage, same, rests⟩, -⟩ := begun.play after
  obtain rfl : lonely = { invocation with stage } := same
  refine ⟨invocation, { invocation with stage }, ?_, ?_, rests.view_eq.symm, rfl⟩
  · rw [play_append]
    exact found
  · rw [play_append]
    exact found'

/-- Another invocation that pauses at the same breakpoint. -/
def neighbour : Move := .start "y" ⟨"j", "u", "v"⟩ (.ofGraph entryOnly) { entry := "start" }

/-- It is stopped while this one is paused, and this one completes. -/
theorem view_eq_alone_neighbour :
    let moves := [neighbour] ++ entryStart :: [.stop "u", .wake "y", .resume "s" [], .wake "x"]
    let alone := [] ++ entryStart :: [.resume "s" [], .wake "x"]
    (pausingDesk.play moves).status? "y" = some .stopped ∧
    (pausingDesk.play moves).status? "x" = some .completed ∧
    ∃ invocation lonely, (pausingDesk.play moves).invocation? "x" = some invocation ∧
      (pausingDesk.play alone).invocation? "x" = some lonely ∧
      invocation.stage.view = lonely.stage.view ∧ invocation.callsRev = lonely.callsRev :=
  ⟨by decide +kernel, by decide +kernel,
    view_eq_alone (vacant_idle _) [neighbour] [.stop "u", .wake "y", .resume "s" [], .wake "x"]
      { entry := "start" } (rfl : Circuit.load Registry.builtin entryOnly = .ok _)
      (by decide +kernel)⟩

end Desk

end Pinflow
