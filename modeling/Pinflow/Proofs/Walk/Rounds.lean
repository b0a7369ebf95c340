import Pinflow.Proofs.Circuit.Scope
import Pinflow.Proofs.Walk.Errands
import Pinflow.Proofs.Walk.Recall

/-!
# The rounds of a loop

Both loops run their body in rounds: they forget what depends on the iteration, put down what
is new in it and follow the body pin, and whichever way the last round ended they follow
`completed`. `Rounds` says what can be seen of this in the errands of a loop. It holds of
every walk, whatever the body does on the way.
-/

namespace Pinflow

namespace Loop

open Walk

variable {outcome : Option (Except Fault Signal × Walker)} {errands : List Errand}

def finish (loop : String) : Script (Except Fault Signal) :=
  .ask (.traverse loop completedPin) .done

def turn (loop : String) (entries : List (String × Value))
    (next : Script (Except Fault Signal)) : Script (Except Fault Signal) :=
  .ask (.reenter loop bodyPin) fun _ => .ask (.store loop entries) fun _ =>
    .ask (.traverse loop bodyPin) fun
      | .error fault => .done (.error fault)
      | .ok signal => if signal.isBreak then finish loop else next

def rest (loop : String) (rounds : Routine Unit) : Script (Except Fault Signal) :=
  ExceptT.run (do rounds; Routine.traverse loop completedPin)

theorem rest_turn (loop : String) (entries : List (String × Value)) (next : Routine Unit) :
    rest loop (do
        Routine.reenter loop bodyPin
        Routine.store loop entries
        let signal ← Routine.traverse loop bodyPin
        if signal.isBreak then return
        next) =
      turn loop entries (rest loop next) := by
  refine congrArg (Dialogue.ask _) (funext fun _ => congrArg (Dialogue.ask _) (funext fun _ =>
    congrArg (Dialogue.ask _) (funext fun answer => ?_)))
  rcases answer with fault | _ | origin <;> rfl

theorem rest_whileFrom_succ (loop : String) (ceiling left : Nat) :
    rest loop (whileFrom loop ceiling (left + 1)) =
      .ask (.refresh loop bodyPin) fun _ => .ask (.input loop "condition") fun
        | .error fault => .done (.error fault)
        | .ok condition =>
          if condition.truthy then
            turn loop [("iteration", .ofNat (ceiling - (left + 1)))]
              (rest loop (whileFrom loop ceiling left))
          else finish loop := by
  refine congrArg (Dialogue.ask _) (funext fun _ => congrArg (Dialogue.ask _)
    (funext fun answer => ?_))
  rcases answer with fault | condition
  · rfl
  cases holds : condition.truthy with
  | false =>
    simp only [Dialogue.bind, ExceptT.bindCont, holds]
    rfl
  | true =>
    simp only [Dialogue.bind, ExceptT.bindCont, holds, if_true]
    exact rest_turn loop _ _

/-- The memo holds what the loop has put down for an iteration, and nothing that another one
has left behind. -/
structure Ready (circuit : Circuit) (loop : String) (entries : List (String × Value))
    (memo : Memo) : Prop where
  stored : ∀ entry ∈ entries, memo.get? ⟨loop, entry.1⟩ = some entry.2
  fresh : ∀ ref, (circuit.loopScope loop bodyPin).contains ref.node = true → memo.get? ref = none

variable {setting : Setting} {depth : Nat} {loop : String} {entries : List (String × Value)}
  {walker middle after : Walker} {first past : Past}

theorem memo_of_reentered
    (course : ((serve setting depth (.reenter loop bodyPin)).run walker).Leads past
      (.done ((), after))) :
    after.memo = (walker.memo.invalidate (setting.circuit.loopScope loop bodyPin).executed).invalidate
      (setting.circuit.loopScope loop bodyPin).derived := by
  refine WP.of_answered (fun _ after _ => after.memo = _) ?_ course
  cases depth with
  | zero => exact WP.exhausted_iff.mpr trivial
  | succ => exact WP.change_iff.mpr ⟨trivial, rfl⟩

theorem memo_of_refreshed
    (course : ((serve setting depth (.refresh loop bodyPin)).run walker).Leads past
      (.done ((), after))) :
    after.memo = walker.memo.invalidate (setting.circuit.loopScope loop bodyPin).derived := by
  refine WP.of_answered (fun _ after _ => after.memo = _) ?_ course
  cases depth with
  | zero => exact WP.exhausted_iff.mpr trivial
  | succ => exact WP.change_iff.mpr ⟨trivial, rfl⟩

theorem memo_of_stored
    (course : ((serve setting depth (.store loop entries)).run walker).Leads past
      (.done ((), after))) : after.memo = walker.memo.storeMany loop entries := by
  refine WP.of_answered (fun _ after _ => after.memo = _) ?_ course
  cases depth with
  | zero => exact WP.exhausted_iff.mpr trivial
  | succ => exact WP.change_iff.mpr ⟨trivial, rfl⟩

theorem ready_of_answered (distinct : (entries.map Prod.fst).Nodup)
    (reentered : ((serve setting depth (.reenter loop bodyPin)).run walker).Leads first
      (.done ((), middle)))
    (stored : ((serve setting depth (.store loop entries)).run middle).Leads past
      (.done ((), after))) : Ready setting.circuit loop entries after.memo := by
  rw [memo_of_stored stored, memo_of_reentered reentered]
  refine ⟨fun entry member => ?_, fun ref inside => ?_⟩ <;> rw [get?_storeMany]
  · exact Recollection.storeMany_of_mem _ distinct member
  have other : ref.node ≠ loop := by
    intro same
    rw [same, Circuit.not_contains_loop] at inside
    cases inside
  rw [Recollection.storeMany_of_ne _ fun same => absurd same other, Memo.get?_invalidate,
    Memo.get?_invalidate]
  rw [LoopScope.contains, Bool.or_eq_true] at inside
  rcases inside with body | derived
  · simp only [body, if_true, ite_self]
  · rw [if_pos derived]

theorem finish_cases {server : Server}
    (run : Runs server (finish loop) walker errands outcome past) :
    ∃ answer, errands = [⟨.traverse loop completedPin, walker, answer⟩] ∧
      outcome.map Prod.fst = answer := by
  cases run with
  | underway => exact ⟨none, rfl, rfl⟩
  | answered course more =>
    cases more with
    | done => exact ⟨_, rfl, rfl⟩

inductive Turned (setting : Setting) (depth : Nat) (loop : String)
    (entries : List (String × Value)) (next : Script (Except Fault Signal)) :
    List Errand → Option (Except Fault Signal × Walker) → Prop
  | entering {walker : Walker} :
      Turned setting depth loop entries next [⟨.reenter loop bodyPin, walker, none⟩] none
  | storing {walker middle : Walker} : Turned setting depth loop entries next
      [⟨.reenter loop bodyPin, walker, some ()⟩, ⟨.store loop entries, middle, none⟩] none
  | inside {walker middle before : Walker} {answer : Option (Except Fault Signal)}
      {outcome : Option (Except Fault Signal × Walker)}
      (ready : Ready setting.circuit loop entries before.memo)
      (same : outcome.map Prod.fst = answer) (stops : ∀ signal, answer ≠ some (.ok signal)) :
      Turned setting depth loop entries next
        [⟨.reenter loop bodyPin, walker, some ()⟩, ⟨.store loop entries, middle, some ()⟩,
          ⟨.traverse loop bodyPin, before, answer⟩] outcome
  | back {walker middle before after : Walker} {signal : Signal} {errands : List Errand}
      {outcome : Option (Except Fault Signal × Walker)} {past : Past}
      (ready : Ready setting.circuit loop entries before.memo)
      (more : Runs (serve setting depth) (if signal.isBreak then finish loop else next) after
        errands outcome past) :
      Turned setting depth loop entries next
        (⟨.reenter loop bodyPin, walker, some ()⟩ :: ⟨.store loop entries, middle, some ()⟩ ::
          ⟨.traverse loop bodyPin, before, some (.ok signal)⟩ :: errands) outcome

theorem turned_of_runs {next : Script (Except Fault Signal)}
    (run : Runs (serve setting depth) (turn loop entries next) walker errands outcome past)
    (distinct : (entries.map Prod.fst).Nodup) :
    Turned setting depth loop entries next errands outcome := by
  cases run with
  | underway => exact .entering
  | answered reentered run =>
    cases run with
    | underway => exact .storing
    | answered stored run =>
      have ready := ready_of_answered distinct reentered stored
      cases run with
      | underway => exact .inside ready rfl (by simp)
      | @answered _ _ _ _ answer _ _ _ _ course more =>
        cases answer with
        | error =>
          cases more with
          | done => exact .inside ready rfl (by simp)
        | ok => exact .back ready more

/-- The times a loop has followed its body pin and its `completed` pin, given what it puts down
for each iteration, and what it has come to. -/
structure Rounds (circuit : Circuit) (loop : String) (values : List (List (String × Value)))
    (bodies completing : List Passage) (result : Option (Except Fault Signal)) : Prop where
  body : ∀ passage ∈ bodies, passage.source = ⟨loop, bodyPin⟩
  completed : ∀ passage ∈ completing, passage.source = ⟨loop, completedPin⟩
  once : completing.length ≤ 1
  bounded : bodies.length ≤ values.length
  /-- An iteration begins with its own values and without those of other iterations. -/
  ready : ∀ (i : Nat) passage entries, bodies[i]? = some passage →
    values[i]? = some entries → Ready circuit loop entries passage.before.memo
  /-- An iteration that has not come back, broke or failed is the last. -/
  last : ∀ (i : Nat) passage, bodies[i]? = some passage →
    passage.answer ≠ some (.ok .done) → i + 1 = bodies.length
  /-- Only if every iteration has come back without a fault is `completed` followed. -/
  whole : completing ≠ [] → ∀ passage ∈ bodies, ∃ signal, passage.answer = some (.ok signal)
  /-- The result of the loop is what comes back from `completed`. -/
  returned : ∀ passage ∈ completing, result = passage.answer
  failed : ∀ passage ∈ bodies, ∀ fault, passage.answer = some (.error fault) →
    result = some (.error fault)
  ended : ∀ signal, result = some (.ok signal) → completing ≠ []

namespace Rounds

variable {circuit : Circuit} {values : List (List (String × Value))}
  {bodies completing : List Passage} {result : Option (Except Fault Signal)}

theorem nothing (values : List (List (String × Value)))
    (stops : ∀ signal, result ≠ some (.ok signal)) :
    Rounds circuit loop values [] [] result where
  body := by simp
  completed := by simp
  once := Nat.zero_le 1
  bounded := Nat.zero_le _
  ready := by simp
  last := by simp
  whole := by simp
  returned := by simp
  failed := by simp
  ended signal same := absurd same (stops signal)

theorem finish (values : List (List (String × Value))) (before : Walker)
    (answer : Option (Except Fault Signal)) :
    Rounds circuit loop values [] [⟨⟨loop, completedPin⟩, before, answer⟩] answer where
  body := by simp
  completed := by simp
  once := Nat.le_refl 1
  bounded := Nat.zero_le _
  ready := by simp
  last := by simp
  whole := by simp
  returned := by simp
  failed := by simp
  ended := by simp

/-- One more round before the others. If it does not come back done, there are none. -/
theorem cons {before : Walker} {answer : Option (Except Fault Signal)}
    (rounds : Rounds circuit loop values bodies completing result)
    (ready : Ready circuit loop entries before.memo)
    (last : answer ≠ some (.ok .done) → bodies = [])
    (whole : completing ≠ [] → ∃ signal, answer = some (.ok signal))
    (failed : ∀ fault, answer = some (.error fault) → result = some (.error fault)) :
    Rounds circuit loop (entries :: values) (⟨⟨loop, bodyPin⟩, before, answer⟩ :: bodies) completing
      result where
  body := by simpa using rounds.body
  completed := rounds.completed
  once := rounds.once
  bounded := Nat.succ_le_succ rounds.bounded
  ready := by
    intro i passage entries here known
    cases i with
    | zero =>
      cases here
      cases known
      exact ready
    | succ i => exact rounds.ready i passage entries here known
  last := by
    intro i passage here pending
    cases i with
    | zero =>
      cases here
      rw [last pending]
      rfl
    | succ i => exact congrArg (· + 1) (rounds.last i passage here pending)
  whole completes := List.forall_mem_cons.mpr ⟨whole completes, rounds.whole completes⟩
  returned := rounds.returned
  failed := List.forall_mem_cons.mpr ⟨failed, rounds.failed⟩
  ended := rounds.ended

end Rounds

end Loop

end Pinflow
