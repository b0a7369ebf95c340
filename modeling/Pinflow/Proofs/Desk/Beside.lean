import Pinflow.Proofs.Desk.Invariant

/-!
# What reaches an invocation that rests

As long as an invocation neither gets its turn nor is dropped, a move changes what it will
find when it goes on in a few ways only: a command for its own session, an edit of the
breakpoints, and the time. `Beside` lists them, so nothing else can pass from one
invocation to another.
-/

namespace Pinflow

namespace Desk

theorem lasting_now (now : Instant) : Lasting fun world _ => world.now = now where
  replies same reply := by cases reply <;> exact same
  waits same wait := by cases wait <;> exact same
  prompts same prompted := by cases prompted <;> exact same
  ends _ _ _ same := same
  notes _ same := same
  abandons _ same := same
  advances _ same := same
  edits _ same := same
  resumes _ _ same := same
  stops _ same := same
  watches _ same := same

/-- No move changes the date. -/
theorem now_make (desk : Desk) (move : Move) : (desk.make move).world.now = desk.world.now :=
  @Lasting.make desk [] _ (lasting_now desk.world.now) rfl move

variable {id : String} {world after : Surroundings} {move : Move}

/-- A move that tells nobody anything, with the changes that other invocations make. -/
theorem Beside.of_apart {other : String} (apart : world.Apart other after) (differs : id ≠ other)
    (silent : ∀ session, move.onSession id session = session)
    (breakpoints : move.onBreakpoints world.debugger = world.debugger.breakpoints)
    (instant : move.time = 0) : Beside id move world after where
  session := by
    rw [apart.sessions id differs, funext silent]
    exact (congrFun Option.map_id_fun _).symm
  breakpoints := by rw [breakpoints, apart.breakpoints]
  patience := apart.patience
  clock := by rw [instant, apart.clock, Nat.add_zero]
  now := apart.now
  nodup := apart.nodup

variable {desk : Desk} {log : List Deed} {name : String} {invocation : Invocation}

/-- Nothing else reaches a session whose invocation does not begin, has no turn and is not
dropped. -/
theorem Sound.beside_session (sound : desk.Sound log) (id : String) (move : Move)
    (turn : ∀ someone ∈ desk.invocations, someone.identity.session = id →
      move ≠ .wake someone.name ∧ move ≠ .drop someone.name)
    (begins : ∀ name identity circuit request, move = .start name identity circuit request →
      desk.admits name identity = true → id ≠ identity.session) :
    Beside id move desk.world (desk.make move).world := by
  cases move with
  | start other identity circuit request =>
    by_cases admits : desk.admits other identity = true
    · obtain ⟨others, free, unknown⟩ := sound.admitted admits
      obtain ⟨past, kept, since⟩ :=
        Invocation.kept_begin ⟨desk.settings, other, identity, circuit, request⟩ free unknown
      rw [make_start_of_admits admits]
      exact .of_apart since.apart (begins _ _ _ _ rfl admits) (fun _ => rfl) rfl rfl
    · rw [Desk.make, if_neg admits]
      exact .refl rfl rfl fun _ _ => rfl
  | wake other =>
    rw [Desk.make, Desk.wake]
    cases isFound : desk.invocation? other with
    | none => exact .refl rfl rfl fun _ _ => rfl
    | some waking =>
      obtain ⟨member, named⟩ := mem_of_invocation? isFound
      obtain ⟨birth, past, -, kept⟩ := sound.kept waking member
      obtain ⟨past', -, since⟩ := kept.wake
      refine .of_apart since.apart (fun same => ?_) (fun _ => rfl) rfl rfl
      have own : waking.identity.session = id := kept.identity ▸ same.symm
      exact (turn waking member own).1 (congrArg Move.wake named.symm)
  | drop other =>
    rw [Desk.make, Desk.drop]
    cases isFound : desk.invocation? other with
    | none => exact .refl rfl rfl fun _ _ => rfl
    | some dropping =>
      obtain ⟨member, named⟩ := mem_of_invocation? isFound
      obtain ⟨birth, past, -, kept⟩ := sound.kept dropping member
      cases stage : dropping.stage with
      | paused session =>
        simp only [stage]
        have own : session = dropping.identity.session := by
          rw [kept.identity]
          exact (kept.drop_paused stage).1
        refine .of_apart desk.world.debugger.amended_abandon.apart (fun same => ?_) (fun _ => rfl)
          rfl rfl
        exact (turn dropping member (own ▸ same.symm)).2 (congrArg Move.drop named.symm)
      | _ =>
        simp only [stage]
        exact .refl rfl rfl fun _ _ => rfl
  | _ => exact desk.beside_make id _ trivial

/-- Nothing else reaches an invocation that has no turn and is not dropped. -/
theorem Sound.beside (sound : desk.Sound log) (found : desk.invocation? name = some invocation)
    (move : Move) (turn : move ≠ .wake name) (drop : move ≠ .drop name) :
    Beside invocation.identity.session move desk.world (desk.make move).world := by
  obtain ⟨member, named⟩ := mem_of_invocation? found
  refine sound.beside_session _ move ?_ ?_
  · intro someone isMember same
    rw [sound.sessions someone isMember invocation member same, named]
    exact ⟨turn, drop⟩
  · exact fun other identity _ _ _ admits => ((sound.admitted admits).1 invocation member).2

end Desk

end Pinflow
