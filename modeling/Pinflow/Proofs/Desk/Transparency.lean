import Pinflow.Proofs.Desk.Agreement
import Pinflow.Proofs.Desk.FloorInvariant
import Pinflow.Proofs.Desk.Shadow
import Pinflow.Proofs.Desk.Stopping

/-!
# Debugging is transparent

An invocation of a circuit of built-in nodes that is paused at breakpoints, and each time
resumed without overrides, comes to the same as on a desk without breakpoints where the
host gives the same answers. The breakpoints may be edited at any time, between any two
questions of the walk, and other invocations may run beside it.
-/

namespace Pinflow

open Dialogue Invocation List

open Desk (Move)

variable {invocation : Invocation}

/-- The answer that goes on record with a deed, if it is for the invocation of that name. -/
def Deed.answer? (name : String) : Deed → Option (Except Fault Value)
  | .answered other answer => if other = name then some answer else none
  | _ => none

/-- The answers that an invocation got from the host, oldest first. -/
def answersTo (name : String) (log : List Deed) : List (Except Fault Value) :=
  (log.filterMap (Deed.answer? name)).reverse

variable {name : String} {deed : Deed} {log later : List Deed}

theorem answersTo_append : answersTo name (later ++ log) = answersTo name log ++ answersTo name later := by
  rw [answersTo, filterMap_append, reverse_append]
  rfl

theorem answersTo_eq_nil (silent : ∀ deed ∈ log, deed.answer? name = none) :
    answersTo name log = [] := by
  rw [answersTo, filterMap_eq_nil_iff.mpr silent]
  rfl

theorem Deed.answer?_of_name? (other : deed.name? ≠ some name) : deed.answer? name = none := by
  cases deed with
  | answered => exact if_neg fun same => other (congrArg some same)
  | _ => rfl

theorem answersTo_of_nobody (nobody : ∀ deed ∈ log, deed.name? = none) :
    answersTo name log = [] := by
  refine answersTo_eq_nil fun deed member => Deed.answer?_of_name? ?_
  simp [nobody deed member]

namespace Invocation

variable {after : Invocation} {world world' : Surroundings} {run : Run} {deeds : List Deed}

theorem answersTo_expiry {session node : String} :
    answersTo name (invocation.expiry world session node) = [] := by
  rw [expiry]
  split
  · change answersTo name (world.debugger.report session _) = _
    exact answersTo_of_nobody fun _ => name?_of_report
  · rfl

theorem Replies.answersTo_eq_nil {q : Query} {answer : q.Answer}
    (reply : Replies invocation world q answer after world' deeds) : answersTo name deeds = [] := by
  cases reply with
  | impatient =>
    rw [answersTo_append, answersTo_expiry, append_nil]
    exact answersTo_of_nobody fun _ => name?_of_report
  | _ => rfl

theorem commanded_mem_obedience (invocation : Invocation) (command : Command) :
    .commanded invocation.name command ∈ invocation.obedience command := by
  cases command with
  | resume => exact mem_cons_self
  | stop => exact mem_cons_of_mem _ mem_cons_self

end Invocation

namespace Desk

variable {plain : Desk}

/-- The host gives its answers one after another, and the invocation goes on with each. -/
def replay (name : String) (answers : List (Except Fault Value)) : List Move :=
  answers.flatMap fun answer => [.release name answer, .wake name]

theorem replay_append (first second : List (Except Fault Value)) :
    replay name (first ++ second) = replay name first ++ replay name second :=
  flatMap_append

/-- An answer that is owed is taken. -/
theorem play_replay_singleton {shadow : Invocation} {rest : Except Fault Value → Run}
    (found : plain.invocation? name = some shadow) (waiting : shadow.stage = .waiting rest)
    (owed : shadow.owed = .answer) (answer : Except Fault Value) :
    let driven := { shadow with owed := .nothing }.drive plain.world (rest answer)
    (plain.play (replay name [answer])).invocation? name = some driven.1 ∧
      (plain.play (replay name [answer])).world = driven.2 := by
  intro driven
  have named := (mem_of_invocation? found).2
  have released := invocation?_make found (.release name answer)
  rw [Move.onInvocation, if_pos named.symm, Invocation.release, owed] at released
  let owing : Invocation := { shadow with owed := .given answer }
  have waits : owing.stage = .waiting rest := waiting
  have given : owing.wake plain.world = driven := wake_of_answer waits rfl plain.world
  have world : (plain.make (.release name answer)).world = plain.world := by
    rw [make]
    split <;> rfl
  have woken := invocation?_make released (.wake name)
  rw [Move.onInvocation, if_pos named.symm, world, given] at woken
  refine ⟨woken, ?_⟩
  refine (world_make_wake released).trans ?_
  rw [world, given]

end Desk

namespace Invocation

/-- A walk begins with a look at its token. -/
theorem origin_eq (settings : EngineSettings) (circuit : Circuit) (identity : Identity)
    (request : Request) :
    ∃ next : Bool → Run,
      origin settings circuit identity request = Dialogue.ask Query.isCancelled next ∧
      next true = Dialogue.done (.error (.stopped identity.invocation),
        { context := { args := request.args, event := request.event } }) := by
  obtain ⟨depth, deep⟩ : ∃ depth, nesting circuit = depth + 1 :=
    Nat.exists_eq_add_one.mpr (by rw [nesting]; omega)
  rw [origin, deep]
  exact ⟨_, rfl, rfl⟩

end Invocation

/-- The token of the first run, unless it changes, and what it is owed do not show in the second
one. -/
theorem Ahead.update {now : Instant} {run : Run} {shadow : Invocation × Surroundings} {cancelled : Bool}
    (ahead : Ahead now invocation run shadow) (same : cancelled = invocation.cancelled) (owed : Owed) :
    Ahead now { invocation with cancelled, owed } run shadow := by
  subst same
  obtain ⟨_, world, rest, rfl, ⟨session, owes, stage, rfl⟩, unbroken, paired⟩ := ahead
  exact ⟨_, world, rest, rfl, ⟨session, owes, stage, rfl⟩, unbroken, paired⟩

/-- The second run, while the walk of the first one is under way. A walk whose token was cancelled
beforehand has ended, or is about to look at it. -/
def Pursued (now : Instant) (invocation : Invocation) (run : Run)
    (shadow : Invocation × Surroundings) : Prop :=
  Ahead now invocation run shadow ∧ (invocation.cancelled = true → ∃ result, run = done result) ∨
    invocation.cancelled = true ∧ ∃ next result, run = ask Query.isCancelled next ∧
      next true = done result ∧ Ahead now invocation (next true) shadow

/-- Where the second run is while the first one walks or rests. -/
def Coupled (now : Instant) (invocation : Invocation) (shadow : Invocation × Surroundings) :
    Option Run → Prop
  | some run => Pursued now invocation run shadow
  | none => Shadowed now invocation shadow ∧ (invocation.Live → invocation.cancelled = false)

section paces

variable {after : Invocation} {world world' : Surroundings} {q : Query} {deeds : List Deed}

section pursued

variable {shadow : Invocation × Surroundings} {next : q.Answer → Run}

/-- A walk gets the answer to its question. -/
theorem Pursued.hears {answer : q.Answer}
    (pursued : Pursued world.now invocation (ask q next) shadow)
    (reply : Replies invocation world q answer after world' deeds)
    (resumed : Resumed invocation.name deeds) :
    after.cancelled = invocation.cancelled ∧ Pursued world'.now after (next answer) shadow := by
  obtain ⟨-, now, token⟩ := reply.keeps
  have token := token resumed
  rw [now]
  refine ⟨token, ?_⟩
  rcases pursued with ⟨ahead, ended⟩ | ⟨isCancelled, going, result, asks, ends, ahead⟩
  · have going : invocation.cancelled = false := by
      rw [Bool.eq_false_iff]
      intro isCancelled
      cases (ended isCancelled).choose_spec
    refine .inl ⟨reply.ahead ahead going resumed, fun isCancelled => ?_⟩
    rw [token, going] at isCancelled
    cases isCancelled
  · cases asks
    cases reply with
    | token =>
      rw [isCancelled]
      exact .inl ⟨ahead, fun _ => ⟨result, ends⟩⟩

/-- A walk has to wait for an answer. -/
theorem Pursued.waits (pursued : Pursued world.now invocation (ask q next) shadow)
    (wait : Waits invocation world q next after world' deeds) :
    after.cancelled = invocation.cancelled ∧ Coupled world'.now after shadow none := by
  have keeps : after.cancelled = invocation.cancelled ∧ world'.now = world.now := by
    cases wait with
    | acts =>
      rw [noteCall_eq]
      exact ⟨rfl, rfl⟩
    | _ => exact ⟨rfl, rfl⟩
  rcases pursued with ⟨ahead, ended⟩ | ⟨-, going, result, asks, -⟩
  · refine ⟨keeps.1, keeps.2 ▸ wait.shadowed ahead, fun _ => ?_⟩
    rw [keeps.1, Bool.eq_false_iff]
    intro isCancelled
    cases (ended isCancelled).choose_spec
  · cases asks
    cases wait

/-- A walk has ended. -/
theorem Pursued.ends {result : Except Fault Unit} {walker : Walker}
    (pursued : Pursued world.now invocation (done (result, walker)) shadow) :
    let left := invocation.finish world result walker
    left.1.cancelled = invocation.cancelled ∧ Coupled left.2.now left.1 shadow none := by
  intro left
  rcases pursued with ⟨ahead, -⟩ | ⟨-, _, _, asks, -⟩
  · have shadowed := finish_shadowed ahead rfl
    obtain ⟨archive, finished⟩ := invocation.finish_eq world result walker
    simp only [left]
    rw [finished] at shadowed ⊢
    exact ⟨rfl, shadowed, False.elim⟩
  · cases asks

end pursued

variable {plain : Desk} {shadow : Invocation}

/-- An invocation that rests goes on, and with the answer that it takes so does the second run. -/
theorem Coupled.goesOn {run : Run}
    (coupled : Coupled world.now invocation (shadow, plain.world) none)
    (found : plain.invocation? invocation.name = some shadow)
    (prompted : Prompted invocation world after world' run deeds)
    (resumed : Resumed invocation.name deeds) :
    let plain' := plain.play (Desk.replay invocation.name (answersTo invocation.name deeds))
    after.cancelled = invocation.cancelled ∧
      ∃ shadow', plain'.invocation? invocation.name = some shadow' ∧
        Pursued world'.now after run (shadow', plain'.world) := by
  obtain ⟨shadowed, going⟩ := coupled
  have going := going prompted.live
  cases prompted with
  | @command session node number deadline next command paused =>
    obtain rfl : command = .resume [] :=
      resumed command (invocation.commanded_mem_obedience command)
    simp only [Shadowed, paused] at shadowed
    refine ⟨rfl, shadow, found, .inl ⟨shadowed, fun cancelled => ?_⟩⟩
    cases going.symm.trans cancelled
  | expired => exact absurd mem_cons_self resumed.not_stop
  | @answer next answer waiting =>
    simp only [Shadowed, waiting] at shadowed
    obtain ⟨rest, isRest, owes, ⟨session, owed, stage, same⟩, unbroken, paired⟩ := shadowed
    have taken : answersTo invocation.name [.answered invocation.name answer] = [answer] := by
      simp [answersTo, Deed.answer?]
    obtain ⟨isFound, isWorld⟩ := Desk.play_replay_singleton found isRest owes answer
    rw [taken]
    refine ⟨rfl, _, isFound, .inl ⟨?_, fun cancelled => ?_⟩⟩
    · rw [isWorld]
      obtain rfl : shadow = { invocation with session, owed, stage } := same
      exact ⟨_, plain.world, rest answer, rfl, ⟨session, .nothing, stage, rfl⟩, unbroken,
        paired answer⟩
    · cases going.symm.trans cancelled

/-- An invocation does what it does next, and the second run gets the answer that it takes. -/
theorem Floor.Pace.coupled {walk rest : Option Run} {marks : List Mark}
    (pace : Floor.Pace invocation world walk after world' rest marks)
    (coupled : Coupled world.now invocation (shadow, plain.world) walk)
    (found : plain.invocation? invocation.name = some shadow)
    (resumed : Resumed invocation.name (deedsOn marks)) :
    let plain' := plain.play (Desk.replay invocation.name (answersTo invocation.name (deedsOn marks)))
    after.cancelled = invocation.cancelled ∧
      ∃ shadow', plain'.invocation? invocation.name = some shadow' ∧
        Coupled world'.now after (shadow', plain'.world) rest := by
  intro plain'
  -- Nothing is to be given when no answer is taken.
  have quiet (silent : answersTo invocation.name (deedsOn marks) = [])
      (kept : after.cancelled = invocation.cancelled ∧
        Coupled world'.now after (shadow, plain.world) rest) :
      after.cancelled = invocation.cancelled ∧
        ∃ shadow', plain'.invocation? invocation.name = some shadow' ∧
          Coupled world'.now after (shadow', plain'.world) rest := by
    simp only [plain', silent]
    exact ⟨kept.1, shadow, found, kept.2⟩
  cases pace with
  | goesOn prompted =>
    simp only [plain', deedsOn_map_deed] at resumed ⊢
    exact coupled.goesOn found prompted resumed
  | overlooks nothing =>
    exact quiet rfl (Pursued.hears coupled (replies_of_disabled _ nothing) nofun)
  | hears reply =>
    rw [deedsOn_append, deedsOn_notes, deedsOn_map_deed, nil_append] at resumed
    refine quiet ?_ (Pursued.hears coupled reply resumed.of_append.1)
    rw [deedsOn_append, deedsOn_notes, deedsOn_map_deed, nil_append, answersTo_append,
      reply.answersTo_eq_nil]
    rfl
  | waits wait =>
    refine quiet ?_ (Pursued.waits coupled wait)
    rw [deedsOn_map_deed, answersTo_append, answersTo_of_nobody fun _ => wait.aside]
    rfl
  | ends =>
    refine quiet ?_ (Pursued.ends coupled)
    rw [deedsOn_map_deed]
    exact answersTo_of_nobody fun _ => name?_of_record_done

end paces

namespace Floor

variable {floor next : Floor} {plain : Desk} {name : String} {request : Request} {marks : List Mark}

/-- A floor with an invocation, and a desk without breakpoints with a second run of it. -/
def Doubled (name : String) (request : Request) (floor : Floor) (plain : Desk) : Prop :=
  ∃ invocation shadow, floor.desk.invocation? name = some invocation ∧
    plain.invocation? name = some shadow ∧ invocation.cancelled = request.cancelled ∧
    Coupled floor.desk.world.now invocation (shadow, plain.world) (floor.walks name)

namespace Doubled

/-- Others do something. -/
theorem elsewhere (doubled : Doubled name request floor plain)
    (same : next.desk.invocation? name = floor.desk.invocation? name)
    (under : next.walks name = floor.walks name)
    (now : next.desk.world.now = floor.desk.world.now) : Doubled name request next plain := by
  obtain ⟨invocation, shadow, found, found', token, coupled⟩ := doubled
  refine ⟨invocation, shadow, same.trans found, found', token, ?_⟩
  rw [under, now]
  exact coupled

/-- A move leaves the token as it is if nobody cancels it on the way. -/
theorem cancelled_eq (sound : floor.Sound) {move : Move} (aside : move.Aside floor.walks)
    (found : floor.desk.invocation? name = some invocation)
    (same : invocation.cancelled = request.cancelled)
    (token : .deed (.cancelled name) ∈ floor.marks move ++ floor.log → request.cancelled = true) :
    (move.onInvocation floor.desk.world invocation).cancelled = invocation.cancelled := by
  have turn : ∀ other, move ≠ .wake other := by
    rintro other rfl
    exact aside
  cases cancelled : invocation.cancelled with
  | true =>
    by_cases drop : move = .drop invocation.name
    · rw [drop, Move.onInvocation, if_pos rfl, Invocation.drop]
      split <;> exact cancelled
    · obtain ⟨_, _, changed, grows⟩ := Move.onInvocation_eq floor.desk.world (turn _) drop
      rw [changed]
      exact grows cancelled
  | false =>
    rw [Bool.eq_false_iff]
    intro isCancelled
    have found' := Desk.invocation?_make found move
    obtain ⟨birth, _, rfl, -, ⟨_, _, follows, -⟩, -⟩ := (sound.step (.moves aside)).known found'
    rw [same, token (mem_deedsOn.mp (follows.token.mp isCancelled))] at cancelled
    cases cancelled

/-- Somebody makes a move. -/
theorem moves (doubled : Doubled name request floor plain) (sound : floor.Sound) {move : Move}
    (aside : move.Aside floor.walks)
    (token : .deed (.cancelled name) ∈ floor.marks move ++ floor.log → request.cancelled = true) :
    Doubled name request { floor with
      desk := floor.desk.make move, log := floor.marks move ++ floor.log } plain := by
  obtain ⟨invocation, shadow, found, found', same, coupled⟩ := doubled
  have kept := cancelled_eq sound aside found same token
  have turn : move ≠ .wake invocation.name := by
    rintro rfl
    exact aside
  refine ⟨_, shadow, Desk.invocation?_make found move, found', kept.trans same, ?_⟩
  dsimp only
  rw [Desk.now_make]
  cases walks : floor.walks name with
  | some run =>
    rw [walks] at coupled
    have drop : move ≠ .drop invocation.name := by
      rintro rfl
      rw [(Desk.mem_of_invocation? found).2] at aside
      cases walks.symm.trans aside
    obtain ⟨cancelled, owed, changed, -⟩ := Move.onInvocation_eq floor.desk.world turn drop
    rw [changed] at kept ⊢
    rcases coupled with ⟨ahead, ended⟩ | ⟨isCancelled, going, result, asks, ends, ahead⟩
    · exact .inl ⟨ahead.update kept owed, fun isCancelled => ended (kept ▸ isCancelled)⟩
    · exact .inr ⟨kept.trans isCancelled, going, result, asks, ends, ahead.update kept owed⟩
  | none =>
    rw [walks] at coupled
    obtain ⟨shadowed, going⟩ := coupled
    refine ⟨?_, fun live => ?_⟩
    · by_cases drop : move = .drop invocation.name
      · rw [drop, Move.onInvocation, if_pos rfl]
        exact shadowed.drop
      · obtain ⟨cancelled, owed, changed, -⟩ := Move.onInvocation_eq floor.desk.world turn drop
        rw [changed] at kept ⊢
        exact shadowed.update (fun _ => kept) owed
    · rw [kept]
      refine going ?_
      by_contra ended
      rw [Live, Move.onInvocation_stage_of_not_live floor.desk.world ended move] at live
      exact ended live

theorem answersTo_opening {circuit : Circuit} {other : String} {identity : Identity} :
    answersTo name (opening circuit other identity request) = [] := by
  refine answersTo_eq_nil fun deed member => ?_
  rcases mem_opening.mp member with rfl | ⟨-, rfl⟩ <;> rfl

theorem answersTo_marks {move : Move} (aside : move.Aside floor.walks) :
    answersTo name (deedsOn (floor.marks move)) = [] := by
  rw [deedsOn_marks]
  refine answersTo_eq_nil fun deed member => ?_
  obtain ⟨_, _, _, _, rfl, -⟩ | ⟨_, _, rfl, -⟩ | ⟨_, _, -, reported⟩ | ⟨_, rfl⟩ | ⟨_, rfl⟩ :=
    Desk.mem_deeds_cases member
  · exact aside.elim
  · exact aside.elim
  · exact Deed.answer?_of_name? (by simp [name?_of_report reported])
  · rfl
  · rfl

/-- One thing happens, and on the second desk the answer is given that the first run took. -/
theorem step (doubled : Doubled name request floor plain) (sound : floor.Sound)
    (step : Step floor next)
    (token : .deed (.cancelled name) ∈ next.log → request.cancelled = true)
    (resumed : Resumed name (deedsOn next.log)) :
    ∃ marks, next.log = marks ++ floor.log ∧
      Doubled name request next (plain.play (Desk.replay name (answersTo name (deedsOn marks)))) := by
  have now := step.lasting (Desk.lasting_now floor.desk.world.now) rfl
  cases step with
  | moves aside =>
    refine ⟨_, rfl, ?_⟩
    rw [answersTo_marks aside]
    exact doubled.moves sound aside token
  | @begins other identity circuit request' new _ admits enters =>
    refine ⟨_, rfl, ?_⟩
    have named : new.name = other := by cases enters <;> rfl
    have differs : name ≠ other := by
      rintro rfl
      obtain ⟨_, _, found, -⟩ := doubled
      cases (Desk.invocation?_of_admits admits).symm.trans found
    rw [deedsOn_map_deed, answersTo_opening]
    refine doubled.elsewhere ?_ (Function.update_of_ne differs _ _) rfl
    exact (Desk.invocation?_join admits named name).trans (if_neg differs)
  | @paces other invocation after _ _ _ marks found walks pace =>
    refine ⟨_, rfl, ?_⟩
    have named := (Desk.mem_of_invocation? found).2
    by_cases differs : name = other
    · subst differs
      rw [log_put, deedsOn_append] at resumed
      obtain ⟨_, shadow, isFound, found', same, coupled⟩ := doubled
      cases found.symm.trans isFound
      subst named
      rw [walks] at coupled
      obtain ⟨kept, shadow', twin, coupled⟩ := pace.coupled coupled found' resumed.of_append.1
      refine ⟨after, shadow', (invocation?_put found pace.named _).trans (if_pos rfl), twin,
        kept.trans same, ?_⟩
      rw [walks_put_self]
      exact coupled
    · have silent : answersTo name (deedsOn marks) = [] := by
        refine answersTo_eq_nil fun deed member => Deed.answer?_of_name? fun same => ?_
        rcases pace.own (mem_deedsOn.mp member) with own | nobody
        · exact differs (Option.some.inj (same.symm.trans (own.trans (congrArg some named))))
        · cases nobody.symm.trans same
      rw [silent]
      refine doubled.elsewhere ?_ (Function.update_of_ne differs _ _) now
      rw [invocation?_put found (pace.named.trans named), if_neg differs]

section begins

variable {identity : Identity} {circuit : Circuit}

/-- Both runs begin. -/
theorem begins (wired : Circuit.Wired Registry.builtin circuit)
    (unbroken : plain.world.Unbroken floor.desk.world.now)
    (settings : plain.settings = floor.desk.settings)
    (admits : floor.desk.admits name identity = true) (admits' : plain.admits name identity = true)
    (entry : circuit.contains request.entry = true) (log : List Mark) :
    Doubled name request {
      desk := { floor.desk with invocations := floor.desk.invocations ++
        [fresh floor.desk.settings floor.desk.world circuit name identity request] }
      walks := Function.update floor.walks name
        (some (origin floor.desk.settings circuit identity request))
      log } (plain.make (.start name identity circuit request)) := by
  have same : fresh plain.settings plain.world circuit name identity request =
      fresh floor.desk.settings floor.desk.world circuit name identity request := by
    rw [fresh, fresh, unbroken.now, settings]
  have begun : begin plain.settings plain.world circuit name identity request =
      (fresh floor.desk.settings floor.desk.world circuit name identity request).drive plain.world
        (origin floor.desk.settings circuit identity request) := by
    rw [begin_eq, if_pos entry, same, settings]
  refine ⟨_, _, (Desk.invocation?_join admits rfl name).trans (if_pos rfl),
    Desk.invocation?_make_start admits' circuit request, rfl, ?_⟩
  simp only [Desk.make_start_of_admits admits', begun, Function.update_self]
  cases cancelled : request.cancelled with
  | true =>
    obtain ⟨next, begins, ends⟩ := origin_eq floor.desk.settings circuit identity request
    refine .inr ⟨cancelled, next, _, begins, ends, ?_⟩
    have drives : (fresh floor.desk.settings floor.desk.world circuit name identity request).drive
          plain.world (origin floor.desk.settings circuit identity request) =
        (fresh floor.desk.settings floor.desk.world circuit name identity request).drive
          plain.world (next true) := by
      rw [begins, ← cancelled]
      rfl
    rw [drives, ends]
    exact ⟨_, plain.world, _, rfl, .refl _, unbroken, .done ⟨rfl, rfl, rfl, rfl, rfl⟩⟩
  | false =>
    refine .inl ⟨⟨_, plain.world, _, rfl, .refl _, unbroken,
      Walk.start_parallel Walk.undisturbed_respects wired _ _ _ rfl⟩, fun isCancelled => ?_⟩
    cases cancelled.symm.trans isCancelled

/-- Both are told that the graph lacks the entry. -/
theorem rejects (admits : floor.desk.admits name identity = true)
    (admits' : plain.admits name identity = true)
    (missing : circuit.contains request.entry = false) (log : List Mark) :
    Doubled name request {
      desk := { floor.desk with invocations := floor.desk.invocations ++
        [rejected floor.desk.settings floor.desk.world circuit name identity request] }
      walks := Function.update floor.walks name none
      log } (plain.make (.start name identity circuit request)) := by
  have found' := Desk.invocation?_make_start admits' circuit request
  rw [begin_eq, missing] at found'
  refine ⟨_, _, (Desk.invocation?_join admits rfl name).trans (if_pos rfl), found', rfl, ?_⟩
  simp only [Function.update_self]
  exact ⟨⟨rfl, rfl⟩, False.elim⟩

/-- Whoever comes in has been started. -/
theorem of_step (sound : floor.Sound) (missing : floor.desk.invocation? name = none)
    (step : Step floor next) (started : .deed (.started name identity circuit request) ∈ next.log)
    (wired : Circuit.Wired Registry.builtin circuit)
    (unbroken : plain.world.Unbroken floor.desk.world.now)
    (settings : plain.settings = floor.desk.settings)
    (admits' : plain.admits name identity = true) :
    answersTo name (deedsOn next.log) = [] ∧
      Doubled name request next (plain.make (.start name identity circuit request)) := by
  have nobody : ∀ mark ∈ floor.log, mark.name? ≠ some name := by
    intro mark member same
    obtain ⟨_, found⟩ := sound.found member same
    cases missing.symm.trans found
  have unknown : .deed (.started name identity circuit request) ∉ floor.log :=
    fun member => nobody _ member rfl
  have silent : answersTo name (deedsOn floor.log) = [] :=
    answersTo_eq_nil fun deed member =>
      Deed.answer?_of_name? (nobody _ (mem_deedsOn.mp member))
  cases step with
  | moves aside =>
    exact (silent_of_mem_marks aside ((mem_append.mp started).resolve_right unknown)).elim
  | begins admits enters =>
    have member := (mem_append.mp started).resolve_right unknown
    rw [← mem_deedsOn, deedsOn_map_deed] at member
    rcases mem_opening.mp member with same | ⟨-, same⟩
    · cases same
      refine ⟨?_, ?_⟩
      · rw [deedsOn_append, deedsOn_map_deed, answersTo_append, silent, answersTo_opening]
        rfl
      · cases enters with
        | begins entry => exact begins wired unbroken settings admits admits' entry _
        | rejects lacks => exact rejects admits admits' lacks _
    · cases same
  | @paces other invocation after world _ _ marks found walks pace =>
    -- Those who are there already are not the one that comes in.
    obtain ⟨invocation', found'⟩ := (sound.step (.paces found walks pace)).found started rfl
    rw [invocation?_put found (pace.named.trans (Desk.mem_of_invocation? found).2), missing] at found'
    split at found'
    · rename_i same
      cases missing.symm.trans (same ▸ found)
    · cases found'

end begins

end Doubled

theorem Step.suffix (step : Step floor next) : floor.log <:+ next.log := by
  cases step <;> exact suffix_append _ _

/-- Whoever has been started under a name is the only one. -/
theorem Sound.started_unique {identity identity' : Identity} {circuit circuit' : Circuit}
    {request' : Request} (sound : floor.Sound)
    (started : .deed (.started name identity circuit request) ∈ floor.log)
    (started' : .deed (.started name identity' circuit' request') ∈ floor.log) :
    identity = identity' ∧ circuit = circuit' ∧ request = request' := by
  have unique := @Desk.Sound.born_unique _ _ ⟨floor.desk.settings, name, identity, circuit, request⟩
    _ _ sound.desk ⟨floor.desk.settings, name, identity', circuit', request'⟩
    (mem_deedsOn.mpr started) (mem_deedsOn.mpr started') rfl rfl
  cases unique
  exact ⟨rfl, rfl, rfl⟩

/-- Whoever is on record has a second run that has come as far. -/
theorem Reaches.doubled {desk : Desk} {identity : Identity} {circuit : Circuit} (idle : desk.Idle)
    (vacant : plain.Idle) (settings : plain.settings = desk.settings)
    (now : plain.world.now = desk.world.now)
    (breakpoints : plain.world.debugger.breakpoints = [])
    (wired : Circuit.Wired Registry.builtin circuit) (reaches : Reaches { desk } floor)
    (started : .deed (.started name identity circuit request) ∈ floor.log)
    (token : .deed (.cancelled name) ∈ floor.log → request.cancelled = true)
    (resumed : Resumed name (deedsOn floor.log)) :
    Doubled name request floor (plain.play (.start name identity circuit request ::
      Desk.replay name (answersTo name (deedsOn floor.log)))) := by
  induction reaches with
  | refl => cases started
  | @tail floor next reaches step ih =>
    have sound := Reaches.sound idle reaches
    have earlier := step.suffix.subset
    cases found : floor.desk.invocation? name with
    | some invocation =>
      obtain ⟨birth, _, rfl, born, -⟩ := sound.known found
      obtain ⟨rfl, rfl, rfl⟩ := (sound.step step).started_unique started (earlier born)
      have before := ih born (fun member => token (earlier member))
        fun command member => resumed command (mem_deedsOn.mpr (earlier (mem_deedsOn.mp member)))
      obtain ⟨marks, log, doubled⟩ := before.step sound step token resumed
      rw [log, deedsOn_append, answersTo_append, Desk.replay_append, ← cons_append,
        Desk.play_append]
      exact doubled
    | none =>
      have isNow := Reaches.lasting reaches (Desk.lasting_now desk.world.now) rfl
      have admits : plain.admits name identity = true := by
        rw [Desk.admits, vacant.invocations, all_nil]
      obtain ⟨silent, doubled⟩ := Doubled.of_step sound found step started wired
        ⟨breakpoints, now.trans isNow.symm⟩ (settings.trans (Reaches.settings reaches).symm) admits
      rw [silent]
      exact doubled

end Floor

/-- When the first run is not paused, both stand at the same stage. -/
theorem Shadowed.view_eq {now : Instant} {shadow : Invocation × Surroundings}
    (shadowed : Shadowed now invocation shadow) (awake : ¬ invocation.IsPaused)
    (kept : invocation.stage ≠ .dropped) :
    shadow.1.stage.view = invocation.stage.view ∧ shadow.1.callsRev = invocation.callsRev := by
  obtain ⟨_, _, _, _, _, _, _, _, _, _, stage⟩ := invocation
  cases stage with
  | paused => exact absurd trivial awake
  | waiting =>
    obtain ⟨rest, isRest, -, ⟨session, owed, stage, twin⟩, -⟩ := shadowed
    rw [isRest, twin]
    exact ⟨rfl, rfl⟩
  | finished | refused => exact ⟨congrArg Stage.view shadowed.1, shadowed.2⟩
  | dropped => exact absurd rfl kept

namespace Desk

/-- Debugging is transparent. An invocation whose pauses are all ended by a resume without
overrides, and whose token is not cancelled on the way, comes to the same on a desk without
breakpoints where the host gives it the same answers. That holds after every play, and on a floor,
where the breakpoints are edited while the invocation walks as well, whenever it rests. -/
theorem view_eq_unbroken {desk plain : Desk} (idle : desk.Idle) (vacant : plain.Idle)
    (settings : plain.settings = desk.settings) (now : plain.world.now = desk.world.now)
    (breakpoints : plain.world.debugger.breakpoints = [])
    {graph : Graph} {circuit : Circuit} (loaded : Circuit.load Registry.builtin graph = .ok circuit)
    {identity : Identity} {request : Request} :
    let start := Move.start name identity circuit request
    (∀ before after, (desk.play before).admits name identity = true →
      let chronicle := desk.chronicle (before ++ start :: after)
      (.cancelled name ∈ chronicle → request.cancelled = true) →
      (∀ command, .commanded name command ∈ chronicle → command = .resume []) →
      ∃ invocation unbroken,
        (desk.play (before ++ start :: after)).invocation? name = some invocation ∧
        (plain.play (start :: replay name (answersTo name chronicle))).invocation? name =
          some unbroken ∧
        (¬ invocation.IsPaused → invocation.stage ≠ .dropped →
          unbroken.stage.view = invocation.stage.view ∧
            unbroken.callsRev = invocation.callsRev)) ∧
    ∀ floor, Floor.Reaches { desk } floor →
      .deed (.started name identity circuit request) ∈ floor.log →
      (.deed (.cancelled name) ∈ floor.log → request.cancelled = true) →
      (∀ command, .deed (.commanded name command) ∈ floor.log → command = .resume []) →
      ∃ invocation unbroken,
        floor.desk.invocation? name = some invocation ∧
        (plain.play (start :: replay name (answersTo name (deedsOn floor.log)))).invocation? name =
          some unbroken ∧
        (floor.walks name = none → ¬ invocation.IsPaused → invocation.stage ≠ .dropped →
          unbroken.stage.view = invocation.stage.view ∧
            unbroken.callsRev = invocation.callsRev) := by
  intro start
  refine (and_iff_right_of_imp fun onFloor before after admits token resumed => ?_).mpr
    fun floor reaches started token resumed => ?_
  · -- A play is a run of the floor on which nobody walks in the end.
    obtain ⟨marks, same, reaches⟩ := idle.reaches (before ++ start :: after)
    have started : .started name identity circuit request ∈
        desk.chronicle (before ++ start :: after) := by
      rw [chronicle_append, chronicle]
      exact mem_append_left _ (mem_append_right _ (started_mem admits))
    rw [← same] at token resumed started ⊢
    obtain ⟨invocation, unbroken, found, found', agree⟩ := onFloor _ reaches (mem_deedsOn.mp started)
      (fun member => token (mem_deedsOn.mpr member))
      fun command member => resumed command (mem_deedsOn.mpr member)
    exact ⟨invocation, unbroken, found, found', agree rfl⟩
  · obtain ⟨invocation, shadow, found, found', -, coupled⟩ := Floor.Reaches.doubled idle vacant
      settings now breakpoints (Circuit.wired_of_load loaded) reaches started token
      fun command member => resumed command (mem_deedsOn.mp member)
    refine ⟨_, _, found, found', fun rests => ?_⟩
    rw [rests] at coupled
    exact coupled.1.view_eq

/-- A deed that neither cancels a token nor ends a pause but by a resume without overrides. -/
def isCalm : Deed → Bool
  | .cancelled _ => false
  | .commanded _ (.resume overrides) => overrides.isEmpty
  | .commanded _ .stop => false
  | _ => true

theorem resumed_of_calm (calm : log.all isCalm = true) : .cancelled name ∉ log ∧ Resumed name log := by
  rw [all_eq_true] at calm
  refine ⟨fun member => ?_, fun command member => ?_⟩
  · cases calm _ member
  cases command with
  | resume overrides =>
    have empty : overrides.isEmpty = true := calm _ member
    rw [isEmpty_iff.mp empty]
  | stop => cases calm _ member

theorem status?_eq_some_iff {desk : Desk} {status : OutcomeStatus}
    (found : desk.invocation? name = some invocation) :
    desk.status? name = some status ↔
      ∃ outcome, invocation.stage = .finished outcome ∧ outcome.status = status := by
  rw [status?, found, Option.map_some]
  cases invocation.stage <;> simp

theorem status?_of_view {desk desk' : Desk} {status : OutcomeStatus} {unbroken : Invocation}
    (found : desk.invocation? name = some invocation)
    (found' : desk'.invocation? name = some unbroken)
    (same : ¬ invocation.IsPaused → invocation.stage ≠ .dropped →
      unbroken.stage.view = invocation.stage.view ∧ unbroken.callsRev = invocation.callsRev)
    (ends : desk.status? name = some status) : desk'.status? name = some status := by
  obtain ⟨outcome, finished, rfl⟩ := (status?_eq_some_iff found).mp ends
  rw [Invocation.IsPaused, finished] at same
  have view := (same id (by simp)).1
  refine (status?_eq_some_iff found').mpr ⟨outcome, ?_, rfl⟩
  cases stage : unbroken.stage <;> simp_all [Stage.view]

def actionStart : Move :=
  .start "x" ⟨"i", "s", "t"⟩ (.ofGraph lastAction) { entry := "start", capability := .gate }

/-- Paused before its first node, and at a breakpoint that is set meanwhile. -/
def actionMoves : List Move := [.edit (.set "last" "act" none), .resume "s" [], .wake "x",
  .edit (.remove "last" "act"), .resume "s" [], .wake "x", .release "x" (.ok (.int 1)), .wake "x"]

def brokenDesk : Desk := .vacant [⟨"last", "start", true, none, 0⟩]

def actionChronicle : List Deed := brokenDesk.chronicle ([] ++ actionStart :: actionMoves)

/-- Two pauses and an answer of the host, and a breakpoint that is removed while an invocation
walks towards it. -/
theorem view_eq_unbroken_lastAction :
    (brokenDesk.play ([] ++ actionStart :: actionMoves)).status? "x" = some .completed ∧
    ((vacant []).play (actionStart :: replay "x" (answersTo "x" actionChronicle))).status? "x" =
      some .completed ∧
    ∃ floor, Floor.Reaches { desk := brokenDesk } floor ∧
      .edited (.remove "last" "start") ∈ floor.log ∧
      ((vacant []).play (.start "x" ⟨"i", "s", "t"⟩ (.ofGraph lastAction)
        { entry := "start", capability := .echo } ::
          replay "x" (answersTo "x" (deedsOn floor.log)))).status? "x" = some .completed := by
  have loaded : Circuit.load Registry.builtin lastAction = .ok (.ofGraph lastAction) := rfl
  have transparent := fun request => @view_eq_unbroken "x" brokenDesk (vacant []) (vacant_idle _)
    (vacant_idle []) rfl rfl rfl lastAction _ loaded ⟨"i", "s", "t"⟩ request
  have completed : (brokenDesk.play ([] ++ actionStart :: actionMoves)).status? "x" =
      some .completed := by decide +kernel
  refine ⟨completed, ?_, ?_⟩
  · have calm : actionChronicle.all isCalm = true := by decide +kernel
    obtain ⟨kept, resumed⟩ := @resumed_of_calm "x" _ calm
    obtain ⟨invocation, unbroken, found, found', same⟩ :=
      (transparent { entry := "start", capability := .gate }).1 [] actionMoves rfl
        (fun member => absurd member kept) resumed
    exact status?_of_view found found' same completed
  · have begun : Floor.Reaches { desk := brokenDesk } _ := .single
      (@Floor.Step.begins _ "x" ⟨"i", "s", "t"⟩ (.ofGraph lastAction)
        { entry := "start", capability := .echo } _ _ rfl (.begins rfl))
    have edited := begun.tail (@Floor.Step.moves _ (.edit (.remove "last" "start")) trivial)
    obtain ⟨marks, record, -, reaches⟩ := @Floor.Reaches.drive _ "x" _ _ _ edited rfl rfl
    have calm : (deedsOn (marks ++ [.edited (.remove "last" "start"),
        .deed (.started "x" ⟨"i", "s", "t"⟩ (.ofGraph lastAction)
          { entry := "start", capability := .echo })])).all isCalm = true := by
      rw [deedsOn_append, record]
      decide +kernel
    obtain ⟨kept, resumed⟩ := @resumed_of_calm "x" _ calm
    obtain ⟨invocation, unbroken, found, found', same⟩ :=
      (transparent { entry := "start", capability := .echo }).2 _ reaches
        (mem_append_right _ (by simp [opening]))
        (fun member => absurd (mem_deedsOn.mpr member) kept)
        fun command member => resumed command (mem_deedsOn.mpr member)
    refine ⟨_, reaches, mem_append_right _ mem_cons_self, ?_⟩
    refine status?_of_view found found' (same rfl) ?_
    dsimp only [Floor.put]
    decide +kernel

end Desk

end Pinflow
