import Pinflow.Proofs.Desk.Following
import Pinflow.Proofs.Desk.Lookup
import Pinflow.Proofs.Walk.Matchings

/-!
# A second run that is never paused

Beside an invocation that is paused now and then, and always told to go on, stands another
one of the same walk in surroundings without breakpoints. It does not wait where the first
one is paused, so it is ahead then: it already stands where the rest of its walk leads.
`Shadowed` says where it stands as soon as the first one rests.
-/

namespace Pinflow

open Dialogue (Paired)
open Walk (Alike undisturbed)

variable {name : String} {shadow : Invocation × Surroundings} {invocation : Invocation}
  {log : List Deed} {now : Instant}

theorem Debugger.visit_of_nil {debugger : Debugger} (none : debugger.breakpoints = [])
    (graph node : String) (vars : Fields) :
    debugger.visit graph node vars = (.none, debugger) := by
  obtain ⟨channel, breakpoints, sessions, patience⟩ := debugger
  cases none
  rfl

/-- Every pause of an invocation was ended by a resume without overrides. -/
def Resumed (name : String) (log : List Deed) : Prop :=
  ∀ command, .commanded name command ∈ log → command = .resume []

theorem Resumed.of_append {deeds : List Deed} (resumed : Resumed name (deeds ++ log)) :
    Resumed name deeds ∧ Resumed name log :=
  ⟨fun command member => resumed command (List.mem_append_left _ member),
    fun command member => resumed command (List.mem_append_right _ member)⟩

/-- A pause that was not resumed. -/
theorem Resumed.not_stop (resumed : Resumed name log) : .commanded name .stop ∉ log := by
  intro member
  cases resumed .stop member

/-- Walks of which the first may be paused and the second is not. -/
def Undisturbed (run other : Run) : Prop :=
  Paired undisturbed (fun p q => p.1 = q.1 ∧ Alike (fun _ session => session = none) p.2 q.2)
    run other

def Twin (invocation other : Invocation) : Prop :=
  ∃ session owed stage, other = { invocation with session, owed, stage }

theorem Twin.refl (invocation : Invocation) : Twin invocation invocation := ⟨_, _, _, rfl⟩

/-- Both put the same action on record. -/
theorem Twin.noteCall {other : Invocation} (twin : Twin invocation other) (action : String)
    (payload : Value) :
    Twin (invocation.noteCall action payload) (other.noteCall action payload) := by
  obtain ⟨session, owed, stage, rfl⟩ := twin
  rw [Invocation.noteCall, Invocation.noteCall]
  split <;> exact ⟨session, owed, stage, rfl⟩

/-- Nothing stops a walk in these surroundings. -/
structure Surroundings.Unbroken (now : Instant) (world : Surroundings) : Prop where
  breakpoints : world.debugger.breakpoints = []
  now : world.now = now

/-- The second run, when the first one has `run` still before it. -/
def Ahead (now : Instant) (invocation : Invocation) (run : Run)
    (shadow : Invocation × Surroundings) : Prop :=
  ∃ twin world rest, shadow = Invocation.drive twin world rest ∧ Twin invocation twin ∧
    world.Unbroken now ∧ Undisturbed run rest

/-- Where the second run stands when the first one rests. -/
def Shadowed (now : Instant) (invocation : Invocation) (shadow : Invocation × Surroundings) :
    Prop :=
  match invocation.stage with
  | .paused _ _ _ _ next => Ahead now invocation (next (.resume [])) shadow
  | .waiting next =>
    ∃ rest, shadow.1.stage = .waiting rest ∧ shadow.1.owed = .answer ∧ Twin invocation shadow.1 ∧
      shadow.2.Unbroken now ∧ ∀ answer, Undisturbed (next answer) (rest answer)
  | .finished outcome =>
    shadow.1.stage = .finished outcome ∧ shadow.1.callsRev = invocation.callsRev
  | .refused fault =>
    shadow.1.stage = .refused fault ∧ shadow.1.callsRev = invocation.callsRev
  | .dropped => True

/-- The token of the first run and what it is owed do not show in the second one. -/
theorem Shadowed.update {cancelled : Bool} (shadowed : Shadowed now invocation shadow)
    (same : invocation.Live → cancelled = invocation.cancelled) (owed : Owed) :
    Shadowed now { invocation with cancelled, owed } shadow := by
  obtain ⟨_, _, _, _, _, _, _, token, _, _, stage⟩ := invocation
  cases stage with
  | paused session =>
    obtain rfl : cancelled = token := same trivial
    obtain ⟨_, world, rest, rfl, ⟨session, owes, stage, rfl⟩, unbroken, paired⟩ := shadowed
    exact ⟨_, world, rest, rfl, ⟨session, owes, stage, rfl⟩, unbroken, paired⟩
  | waiting =>
    obtain rfl : cancelled = token := same trivial
    obtain ⟨rest, isRest, owes, ⟨session, due, stage, twin⟩, unbroken, paired⟩ := shadowed
    exact ⟨rest, isRest, owes, ⟨session, due, stage, twin⟩, unbroken, paired⟩
  | finished => exact shadowed
  | refused => exact shadowed
  | dropped => trivial

theorem Shadowed.drop (shadowed : Shadowed now invocation shadow) :
    Shadowed now invocation.drop shadow := by
  rw [Invocation.drop]
  split
  · trivial
  · trivial
  · exact shadowed
  · exact shadowed
  · exact shadowed

namespace Invocation

variable {after : Invocation} {world world' : Surroundings} {q : Query} {deeds : List Deed}

/-- A question that is answered at once leaves the second run ahead. -/
theorem Replies.ahead {next : q.Answer → Run} {answer : q.Answer}
    (reply : Replies invocation world q answer after world' deeds)
    (ahead : Ahead now invocation (Dialogue.ask q next) shadow)
    (going : invocation.cancelled = false) (resumed : Resumed invocation.name deeds) :
    Ahead now after (next answer) shadow := by
  obtain ⟨twin, others, rest, rfl, ⟨session, owed, stage, rfl⟩, unbroken, paired⟩ := ahead
  cases paired with
  | apart asks more =>
    cases reply with
    | opens => exact ⟨_, others, rest, rfl, ⟨session, owed, stage, rfl⟩, unbroken, more _ trivial⟩
    | refused | impatient => exact absurd List.mem_cons_self resumed.not_stop
    | _ => exact asks.elim
  | @together _ r _ other asks more =>
    cases reply with
    | token =>
      cases r with
      | isCancelled =>
        exact ⟨_, others, other invocation.cancelled, rfl, ⟨session, owed, stage, rfl⟩, unbroken,
          more _ _ ⟨going, going⟩⟩
      | _ => exact asks.elim
    | visit node vars =>
      cases r with
      | visit =>
        obtain ⟨rfl, rfl⟩ : node = _ ∧ vars = _ := asks
        have passes := Debugger.visit_of_nil unbroken.breakpoints invocation.graph node vars
        let visited := others.debugger.visit invocation.graph node vars
        refine ⟨_, { others with debugger := visited.2 }, other visited.1, rfl,
          ⟨session, owed, stage, rfl⟩, ⟨?_, unbroken.now⟩, more _ _ ?_⟩
        · simp only [visited, passes, unbroken.breakpoints]
        · exact congrArg Prod.fst passes
      | _ => exact asks.elim
    | @acts action payload answer replied =>
      cases r with
      | act =>
        obtain ⟨rfl, rfl⟩ : action = _ ∧ payload = _ := asks
        have twin : Twin invocation { invocation with session, owed, stage } := ⟨_, _, _, rfl⟩
        refine ⟨_, others, other answer, ?_, twin.noteCall action payload, unbroken, more _ _ rfl⟩
        simp only [drive, noteCall_capability, replied]
      | _ => exact asks.elim
    | announce moment =>
      cases r with
      | announce moment' =>
        obtain ⟨happening, alike⟩ := asks
        have observed : invocation.recorder.map (·.observe moment') =
            invocation.recorder.map (·.observe moment) :=
          Option.map_congr fun recorder _ => by
            simp only [Recorder.observe, Recorder.recordedVars, happening, alike.context]
        refine ⟨_, others, other (), ?_, ⟨session, owed, stage, rfl⟩, unbroken, more _ _ trivial⟩
        rw [drive]
        simp only [observed]
      | _ => exact asks.elim
    | _ => exact asks.elim

/-- What an answer leaves as it is, if it is not to stop. -/
theorem Replies.keeps {answer : q.Answer}
    (reply : Replies invocation world q answer after world' deeds) :
    after.name = invocation.name ∧ world'.now = world.now ∧
      (Resumed invocation.name deeds → after.cancelled = invocation.cancelled) := by
  cases reply with
  | impatient =>
    exact ⟨rfl, rfl, fun resumed => absurd List.mem_cons_self resumed.not_stop⟩
  | acts =>
    rw [invocation.noteCall_eq]
    exact ⟨rfl, rfl, fun _ => rfl⟩
  | _ => exact ⟨rfl, rfl, fun _ => rfl⟩

/-- On a question that has to wait both stand, or the second run is ahead. -/
theorem Waits.shadowed {next : q.Answer → Run}
    (wait : Waits invocation world q next after world' deeds)
    (ahead : Ahead now invocation (Dialogue.ask q next) shadow) : Shadowed now after shadow := by
  obtain ⟨twin, others, rest, rfl, same, unbroken, paired⟩ := ahead
  cases paired with
  | apart asks more =>
    cases wait with
    | pauses =>
      obtain ⟨session, owed, stage, rfl⟩ := same
      exact ⟨_, others, rest, rfl, ⟨session, owed, stage, rfl⟩, unbroken, more _ rfl⟩
    | _ => exact asks.elim
  | @together _ r _ other asks more =>
    cases wait with
    | pauses => exact asks.elim
    | @acts action payload next later =>
      cases r with
      | act =>
        obtain ⟨rfl, rfl⟩ : action = _ ∧ payload = _ := asks
        obtain ⟨session, owed, stage, noted⟩ := same.noteCall action payload
        have capability : twin.capability = invocation.capability := by
          obtain ⟨_, _, _, rfl⟩ := same
          rfl
        have drives : twin.drive others (Dialogue.ask (.act action payload) other) =
            ({ twin.noteCall action payload with owed := .answer, stage := .waiting other },
              others) := by
          simp only [drive, noteCall_capability, capability, later]
        rw [drives, noted]
        exact ⟨other, rfl, rfl, ⟨session, .answer, _, rfl⟩, unbroken, fun answer => more _ _ rfl⟩
      | _ => exact asks.elim
    | exhausted => trivial

/-- At the end of its walk the first run has caught up. -/
theorem finish_shadowed {result : Except Fault Unit} {walker : Walker}
    (ahead : Ahead now invocation (Dialogue.done (result, walker)) shadow)
    (instant : world.now = now) : Shadowed now (invocation.finish world result walker).1 shadow := by
  obtain ⟨twin, others, rest, rfl, ⟨session, owed, stage, rfl⟩, unbroken, paired⟩ := ahead
  cases paired with
  | @done _ ended ends =>
    obtain ⟨result', walker'⟩ := ended
    obtain ⟨same, alike⟩ := ends
    obtain rfl : result = result' := same
    obtain ⟨archive, finished⟩ := invocation.finish_eq world result walker
    obtain ⟨archive', finished'⟩ :=
      { invocation with session, owed, stage }.finish_eq others result walker'
    have context : walker.context = walker'.context := alike.context
    rw [finished, drive, finished']
    refine ⟨?_, rfl⟩
    simp only [outcome, unbroken.now, instant, context]
    rfl

end Invocation

end Pinflow
