import Pinflow.Proofs.Walk.Rounds

/-!
# What a loop does

A for-each loop runs its body once per item it was given, in order, and a while loop as long
as its condition holds, up to its ceiling. A break ends either of them early, and whichever
way they end they follow `completed` once.
-/

namespace Pinflow.Loop

open List Walk

variable {setting : Setting} {depth : Nat} {circuit : Circuit} {loop : String}
  {entries : List (String × Value)} {values : List (List (String × Value))}
  {first walker before : Walker} {past : Past} {errands more : List Errand}
  {bodies completing : List Passage} {answer result : Option (Except Fault Signal)}
  {outcome : Option (Except Fault Signal × Walker)}

variable {asking middle : Walker} {ceiling : Nat} {items : List Value} {condition : Value}

/-- What can be seen of a for-each loop, given what it puts down for each item. -/
structure EachRun (circuit : Circuit) (loop : String) (values : List (List (String × Value)))
    (errands : List Errand) (bodies completing : List Passage)
    (result : Option (Except Fault Signal)) : Prop
    extends Rounds circuit loop values bodies completing result where
  order : passages errands = bodies ++ completing
  /-- The loop follows pins and writes to the memo. It reads nothing. -/
  own : ∀ errand ∈ errands, (∃ pin, errand.call = .traverse loop pin) ∨
    (∃ pin, errand.call = .reenter loop pin) ∨ ∃ entries, errand.call = .store loop entries
  /-- The body is run up to the first break, or else once per item. -/
  count : completing ≠ [] → bodies.length =
    match bodies.findIdx? Passage.broke with
    | some i => i + 1
    | none => values.length
  blame : ∀ fault, result = some (.error fault) →
    ∃ passage ∈ bodies ++ completing, passage.answer = some (.error fault)

/-- One more item before the others. -/
theorem EachRun.cons (others : EachRun circuit loop values more bodies completing result)
    (ready : Ready circuit loop entries before.memo) :
    EachRun circuit loop (entries :: values)
      (⟨.reenter loop bodyPin, walker, some ()⟩ :: ⟨.store loop entries, middle, some ()⟩ ::
        ⟨.traverse loop bodyPin, before, some (.ok .done)⟩ :: more)
      (⟨⟨loop, bodyPin⟩, before, some (.ok .done)⟩ :: bodies) completing result where
  toRounds := others.toRounds.cons ready (by simp) (fun _ => ⟨_, rfl⟩) (by simp)
  order := congrArg (_ :: ·) others.order
  own := by simpa using others.own
  count completes := by
    rw [findIdx?_cons, length_cons, others.count completes]
    cases bodies.findIdx? Passage.broke <;> simp [Passage.broke, Signal.isBreak]
  blame fault same := by
    obtain ⟨passage, member, blamed⟩ := others.blame fault same
    exact ⟨passage, mem_cons_of_mem _ member, blamed⟩

theorem eachRun_of_runs {index : Nat}
    (run : Runs (serve setting depth) (rest loop (eachFrom loop index items)) walker errands outcome
      past) :
    ∃ bodies completing, EachRun setting.circuit loop
      ((items.zipIdx index).map fun entry => [("element", entry.1), ("index", .ofNat entry.2)])
      errands bodies completing (outcome.map Prod.fst) := by
  induction items generalizing index walker errands past with
  | nil =>
    obtain ⟨answer, rfl, same⟩ := finish_cases run
    rw [same]
    exact ⟨[], _, .finish _ walker answer, rfl, by simp, by simp, by simp⟩
  | cons item items ih =>
    rw [eachFrom, rest_turn] at run
    have distinct : ["element", "index"].Nodup := by decide
    have turned := turned_of_runs run distinct
    cases turned with
    | entering | storing =>
      exact ⟨[], [], .nothing _ (by simp), rfl, by simp, by simp, by simp⟩
    | inside ready same stops =>
      rw [same]
      refine ⟨_, [], (Rounds.nothing _ stops).cons ready (fun _ => rfl) (by simp) (fun _ => id),
        rfl, by simp, by simp, fun fault failed => ?_⟩
      exact ⟨_, mem_cons_self, failed⟩
    | @back _ _ _ after signal _ _ _ ready more =>
      cases signal with
      | done =>
        obtain ⟨bodies, completing, others⟩ := ih more
        exact ⟨_, _, others.cons ready⟩
      | broken =>
        obtain ⟨answer, rfl, same⟩ := finish_cases more
        rw [same]
        exact ⟨_, _, (Rounds.finish _ after answer).cons ready (fun _ => rfl) (fun _ => ⟨_, rfl⟩)
          (by simp), rfl, by simp, fun _ => rfl, by simp⟩

/-- What a for-each loop puts down for each of its items. -/
def iterations (items : List Value) : List (List (String × Value)) :=
  items.mapIdx fun i item => [("element", item), ("index", .ofNat i)]

theorem eachRun_of_forEach
    (run : Runs (serve setting depth) (ExceptT.run (forEach loop items)) walker errands outcome past) :
    ∃ bodies completing, EachRun setting.circuit loop (iterations items) errands bodies completing
      (outcome.map Prod.fst) := by
  rw [iterations, mapIdx_eq_zipIdx_map]
  exact eachRun_of_runs run

/-- A loop node sends on what comes back from its loop. -/
theorem run_forward (x : Routine Signal) :
    ExceptT.run (do let signal ← x; return Flow.forward signal) =
      Except.map .forward <$> ExceptT.run x := by
  rw [bind_pure_comp, ExceptT.run_map]

/-- The items that a for-each node takes from its array. -/
def items? : Value → Option (List Value)
  | .arr items => some items
  | .null => some []
  | _ => none

theorem execute_forEach (node : Node) :
    ExceptT.run (Kinds.forEach.execute node) =
      .ask (.input node.id "array") fun
        | .error fault => .done (.error fault)
        | .ok array =>
          match items? array with
          | some items => Except.map .forward <$> ExceptT.run (forEach node.id items)
          | none => .done (.error (.evaluation node.id (.notAnArray array))) := by
  refine congrArg (Dialogue.ask _) (funext fun answer => ?_)
  rcases answer with fault | array
  · rfl
  · cases array with
    | arr items => exact run_forward (forEach node.id items)
    | null => exact run_forward (forEach node.id [])
    | _ => rfl

/-- A for-each loop runs its body once per item, in order, up to the first break, and then
follows `completed` once, whatever the body does. A for-each node reads its array once, before
the loop, so no write of the body changes the items. -/
theorem forEach_once_per_item (setting : Setting) (depth : Nat) (walker : Walker) :
    (∀ loop items, Traced (serve setting depth) (ExceptT.run (forEach loop items)) walker
      fun errands result => ∃ bodies completing,
        EachRun setting.circuit loop (iterations items) errands bodies completing result) ∧
    ∀ node : Node, Traced (serve setting depth) (ExceptT.run (Kinds.forEach.execute node)) walker
      fun errands result =>
        (passages errands = [] ∧ ∀ flow, result ≠ some (.ok flow)) ∨
        ∃ array items more bodies completing outcome,
          errands = ⟨.input node.id "array", walker, some (.ok array)⟩ :: more ∧
          items? array = some items ∧
          EachRun setting.circuit node.id (iterations items) more bodies completing outcome ∧
          result = outcome.map (Except.map .forward) := by
  refine ⟨fun loop items => traced_of_runs fun _ _ _ run => eachRun_of_forEach run,
    fun node => traced_of_runs fun errands outcome past run => ?_⟩
  rw [execute_forEach] at run
  cases run with
  | underway => exact .inl ⟨rfl, by simp⟩
  | @answered _ _ _ _ answer _ _ _ _ course run =>
    cases answer with
    | error =>
      cases run with
      | done => exact .inl ⟨rfl, by simp⟩
    | ok array =>
      cases known : items? array with
      | none =>
        simp only [known] at run
        cases run with
        | done => exact .inl ⟨rfl, by simp⟩
      | some items =>
        simp only [known] at run
        obtain ⟨inner, run, same⟩ := run.of_map
        obtain ⟨bodies, completing, each⟩ := eachRun_of_forEach run
        refine .inr ⟨array, items, _, bodies, completing, _, rfl, known, each, ?_⟩
        rw [same, Option.map_map, Option.map_map]
        rfl

/-- What a while loop does between its errands that only touch the memo. -/
inductive Moment where
  | check
  | round
  | note
  | completed
deriving DecidableEq

def moment? : Errand → Option Moment
  | ⟨.input .., _, _⟩ => some .check
  | ⟨.traverse _ pin, _, _⟩ => some (if pin = bodyPin then .round else .completed)
  | ⟨.note .., _, _⟩ => some .note
  | _ => none

/-- The three ways out of a while loop: the condition did not hold, the body broke, or the
ceiling was reached. -/
inductive Exit (loop : String) (ceiling most : Nat) (checks : List Reading) (bodies : List Passage)
    (noted : List (String × String)) : Prop
  | falsy {check : Reading} {value : Value} (read : checks.length = bodies.length + 1)
      (latest : checks.getLast? = some check) (known : check.answer = some (.ok value))
      (refuted : value.truthy = false) (unbroken : ∀ passage ∈ bodies, passage.broke = false)
      (below : bodies.length < most) (silent : noted = [])
  | broken {passage : Passage} (read : checks.length = bodies.length)
      (latest : bodies.getLast? = some passage) (broke : passage.broke = true) (silent : noted = [])
  | ceiling (read : checks.length = bodies.length) (reached : bodies.length = most)
      (unbroken : ∀ passage ∈ bodies, passage.broke = false)
      (told : noted = [(loop, s!"while loop reached its iteration ceiling of {ceiling}")])

theorem Exit.cons {most : Nat} {checks : List Reading} {noted : List (String × String)}
    (exit : Exit loop ceiling most checks bodies noted) (check : Reading) {body : Passage}
    (unbroken : body.broke = false) :
    Exit loop ceiling (most + 1) (check :: checks) (body :: bodies) noted := by
  cases exit with
  | falsy read latest known refuted others below silent =>
    exact .falsy (congrArg (· + 1) read) (by rw [getLast?_cons, latest]; rfl) known refuted
      (forall_mem_cons.mpr ⟨unbroken, others⟩) (Nat.succ_lt_succ below) silent
  | broken read latest broke silent =>
    exact .broken (congrArg (· + 1) read) (by rw [getLast?_cons, latest]; rfl) broke silent
  | ceiling read reached others told =>
    exact .ceiling (congrArg (· + 1) read) (congrArg (· + 1) reached)
      (forall_mem_cons.mpr ⟨unbroken, others⟩) told

structure Checked (circuit : Circuit) (loop : String) (values : List (List (String × Value)))
    (errands : List Errand) (bodies completing : List Passage)
    (result : Option (Except Fault Signal)) : Prop
    extends Rounds circuit loop values bodies completing result where
  order : passages errands = bodies ++ completing
  /-- The condition is read with nothing left that was computed from the loop or its body. -/
  asked : ∀ check ∈ readings errands, check.target = ⟨loop, "condition"⟩ ∧
    ∀ ref, ref.node ∈ (circuit.loopScope loop bodyPin).derived → check.before.memo.get? ref = none
  /-- Every iteration comes right after a check, and nothing comes after `completed`. -/
  alternate : ∃ closing, Moment.round ∉ closing ∧ Moment.completed ∉ closing.dropLast ∧
    errands.filterMap moment? =
      (List.replicate bodies.length [Moment.check, .round]).flatten ++ closing
  held : ∀ (i : Nat) check, (readings errands)[i]? = some check → i < bodies.length →
    ∃ value, check.answer = some (.ok value) ∧ value.truthy = true

/-- What can be seen of a while loop, given what it puts down for each iteration that its ceiling
allows. -/
structure WhileRun (circuit : Circuit) (loop : String) (ceiling : Nat)
    (values : List (List (String × Value))) (errands : List Errand)
    (bodies completing : List Passage) (result : Option (Except Fault Signal)) : Prop
    extends Checked circuit loop values errands bodies completing result where
  exits : completing ≠ [] →
    Exit loop ceiling values.length (readings errands) bodies (notes errands)
  blame : ∀ fault, result = some (.error fault) →
    (∃ check ∈ readings errands, check.answer = some (.error fault)) ∨
      ∃ passage ∈ bodies ++ completing, passage.answer = some (.error fault)

theorem fresh_of_refreshed
    (course : ((serve setting depth (.refresh loop bodyPin)).run walker).Leads past
      (.done ((), asking))) (ref : PinRef)
    (derived : ref.node ∈ (setting.circuit.loopScope loop bodyPin).derived) :
    asking.memo.get? ref = none := by
  rw [memo_of_refreshed course, Memo.get?_invalidate, if_pos (contains_iff_mem.mpr derived)]

/-- One more iteration before the others. -/
theorem Checked.cons (others : Checked circuit loop values more bodies completing result)
    (fresh : ∀ ref, ref.node ∈ (circuit.loopScope loop bodyPin).derived →
      asking.memo.get? ref = none) (holds : condition.truthy = true)
    (ready : Ready circuit loop entries before.memo)
    (last : answer ≠ some (.ok .done) → bodies = [])
    (whole : completing ≠ [] → ∃ signal, answer = some (.ok signal))
    (failed : ∀ fault, answer = some (.error fault) → result = some (.error fault)) :
    Checked circuit loop (entries :: values)
      (⟨.refresh loop bodyPin, first, some ()⟩ ::
        ⟨.input loop "condition", asking, some (.ok condition)⟩ ::
        ⟨.reenter loop bodyPin, walker, some ()⟩ :: ⟨.store loop entries, middle, some ()⟩ ::
        ⟨.traverse loop bodyPin, before, answer⟩ :: more)
      (⟨⟨loop, bodyPin⟩, before, answer⟩ :: bodies) completing result where
  toRounds := others.toRounds.cons ready last whole failed
  order := congrArg (_ :: ·) others.order
  asked := forall_mem_cons.mpr ⟨⟨rfl, fresh⟩, others.asked⟩
  alternate := by
    obtain ⟨closing, absent, last, split⟩ := others.alternate
    exact ⟨closing, absent, last, congrArg (Moment.check :: Moment.round :: ·) split⟩
  held := by
    intro i check here inside
    cases i with
    | zero =>
      cases here
      exact ⟨condition, rfl, holds⟩
    | succ i => exact others.held i check here (Nat.lt_of_succ_lt_succ inside)

theorem Checked.nothing (values : List (List (String × Value)))
    (stops : ∀ signal, result ≠ some (.ok signal)) :
    Checked circuit loop values [] [] [] result :=
  ⟨.nothing values stops, rfl, by simp [readings], ⟨[], by simp, by simp, rfl⟩, by simp⟩

theorem Checked.finish (values : List (List (String × Value))) (before : Walker)
    (answer : Option (Except Fault Signal)) :
    Checked circuit loop values [⟨.traverse loop completedPin, before, answer⟩] []
      [⟨⟨loop, completedPin⟩, before, answer⟩] answer :=
  ⟨.finish values before answer, rfl, by simp [readings, Errand.reading?],
    ⟨[.completed], by decide, by decide, rfl⟩, by simp⟩

/-- A while loop that has not begun another iteration, nor followed `completed`. -/
theorem WhileRun.waiting (ceiling : Nat) (values : List (List (String × Value)))
    (silent : passages errands = []) (unfinished : result = none)
    (asked : ∀ check ∈ readings errands, check.target = ⟨loop, "condition"⟩ ∧
      ∀ ref, ref.node ∈ (circuit.loopScope loop bodyPin).derived →
        check.before.memo.get? ref = none)
    (absent : ∀ moment ∈ errands.filterMap moment?, moment = .check ∨ moment = .note) :
    WhileRun circuit loop ceiling values errands [] [] result := by
  subst unfinished
  refine ⟨⟨.nothing values (by simp), silent, asked, ⟨_, ?_, ?_, rfl⟩, by simp⟩, by simp, by simp⟩
  · intro member
    rcases absent _ member with same | same <;> cases same
  · intro member
    rcases absent _ (dropLast_subset _ member) with same | same <;> cases same

/-- The turn after a check that held. -/
theorem whileRun_of_turned {next : Script (Except Fault Signal)}
    (fresh : ∀ ref, ref.node ∈ (setting.circuit.loopScope loop bodyPin).derived →
      asking.memo.get? ref = none) (holds : condition.truthy = true)
    (turned : Turned setting depth loop entries next errands outcome)
    (onward : ∀ {walker errands past}, Runs (serve setting depth) next walker errands outcome past →
      ∃ bodies completing, WhileRun setting.circuit loop ceiling values errands bodies completing
        (outcome.map Prod.fst)) :
    ∃ bodies completing, WhileRun setting.circuit loop ceiling (entries :: values)
      (⟨.refresh loop bodyPin, first, some ()⟩ ::
        ⟨.input loop "condition", asking, some (.ok condition)⟩ :: errands)
      bodies completing (outcome.map Prod.fst) := by
  cases turned with
  | entering | storing =>
    exact ⟨[], [], .waiting _ _ rfl rfl (forall_mem_singleton.mpr ⟨rfl, fresh⟩)
      (by simp [moment?])⟩
  | inside ready same stops =>
    rw [same]
    refine ⟨_, _, (Checked.nothing values stops).cons fresh holds ready (fun _ => rfl) (by simp)
      (fun _ => id), by simp, fun fault failed => ?_⟩
    exact .inr ⟨_, mem_cons_self, failed⟩
  | @back _ _ _ after signal _ _ _ ready more =>
    cases signal with
    | done =>
      obtain ⟨bodies, completing, others⟩ := onward more
      refine ⟨_, _, others.toChecked.cons fresh holds ready (by simp) (fun _ => ⟨_, rfl⟩) (by simp),
        fun completes => (others.exits completes).cons _ rfl, fun fault failed => ?_⟩
      rcases others.blame fault failed with ⟨check, member, blamed⟩ | ⟨passage, member, blamed⟩
      · exact .inl ⟨check, mem_cons_of_mem _ member, blamed⟩
      · exact .inr ⟨passage, mem_cons_of_mem _ member, blamed⟩
    | broken =>
      obtain ⟨answer, rfl, same⟩ := finish_cases more
      rw [same]
      refine ⟨_, _, (Checked.finish values after answer).cons fresh holds ready (fun _ => rfl)
        (fun _ => ⟨_, rfl⟩) (by simp), fun _ => .broken rfl rfl rfl rfl, fun fault failed => ?_⟩
      exact .inr ⟨_, mem_cons_of_mem _ mem_cons_self, failed⟩

theorem whileRun_of_runs {left : Nat} (within : left ≤ ceiling)
    (run : Runs (serve setting depth) (rest loop (whileFrom loop ceiling left)) walker errands
      outcome past) :
    ∃ bodies completing, WhileRun setting.circuit loop ceiling
      ((List.range' (ceiling - left) left).map fun i => [("iteration", .ofNat i)])
      errands bodies completing (outcome.map Prod.fst) := by
  induction left generalizing walker errands past with
  | zero =>
    cases run with
    | underway =>
      exact ⟨[], [], .waiting _ _ rfl rfl (forall_mem_nil _) (by simp [moment?])⟩
    | answered course run =>
      obtain ⟨answer, rfl, same⟩ := finish_cases run
      rw [same]
      refine ⟨[], _, ⟨.finish _ _ answer, rfl, forall_mem_nil _,
        ⟨[.note, .completed], by decide, by decide, rfl⟩, by simp⟩, fun _ => ?_, fun fault failed => ?_⟩
      · exact .ceiling rfl rfl (by simp) rfl
      · exact .inr ⟨_, mem_cons_self, failed⟩
  | succ left ih =>
    have later : ceiling - (left + 1) + 1 = ceiling - left := by omega
    rw [rest_whileFrom_succ] at run
    rw [range'_succ, map_cons, later]
    cases run with
    | underway =>
      exact ⟨[], [], .waiting _ _ rfl rfl (forall_mem_nil _) (forall_mem_nil _)⟩
    | answered refreshed run =>
      have fresh := fresh_of_refreshed refreshed
      cases run with
      | underway =>
        exact ⟨[], [], .waiting _ _ rfl rfl (forall_mem_singleton.mpr ⟨rfl, fresh⟩)
          (by simp [moment?])⟩
      | @answered _ _ _ _ reply _ _ _ _ course run =>
        cases reply with
        | error fault =>
          cases run with
          | done =>
            refine ⟨[], [], ⟨.nothing _ (by simp), rfl, forall_mem_singleton.mpr ⟨rfl, fresh⟩,
              ⟨[.check], by decide, by decide, rfl⟩, by simp⟩, by simp, fun fault failed => ?_⟩
            cases failed
            exact .inl ⟨_, mem_cons_self, rfl⟩
        | ok condition =>
          cases holds : condition.truthy with
          | false =>
            simp only [holds, Bool.false_eq_true, if_false] at run
            obtain ⟨answer, rfl, same⟩ := finish_cases run
            rw [same]
            refine ⟨[], _, ⟨.finish _ _ answer, rfl, forall_mem_singleton.mpr ⟨rfl, fresh⟩,
              ⟨[.check, .completed], by decide, by decide, rfl⟩, by simp⟩, fun _ => ?_, fun fault failed => ?_⟩
            · exact .falsy rfl rfl rfl holds (by simp) (by simp) rfl
            · exact .inr ⟨_, mem_cons_self, failed⟩
          | true =>
            simp only [holds, if_true] at run
            have distinct : ["iteration"].Nodup := by decide
            exact whileRun_of_turned fresh holds (turned_of_runs run distinct)
              (ih (Nat.le_of_succ_le within))

def ceilingOf (about : About) (node : Node) : Nat :=
  match node.configNat? "max_iterations" with
  | some n => min n about.maxIterations
  | none => about.maxIterations

theorem execute_whileLoop (node : Node) :
    ExceptT.run (Kinds.whileLoop.execute node) =
      .ask .about fun about =>
        Except.map .forward <$> ExceptT.run (whileLoop node.id (ceilingOf about node)) := by
  refine congrArg (Dialogue.ask _) (funext fun about => ?_)
  exact run_forward (whileLoop node.id (ceilingOf about node))

/-- A while node reads its condition before every iteration and runs at most as many of them as
its ceiling allows, whatever the body and the condition do. Whichever way it ends it follows
`completed` once, and reaching the ceiling leaves one note and is no fault. -/
theorem whileLoop_checks_each_iteration (setting : Setting) (depth : Nat) (walker : Walker)
    (node : Node) :
    Traced (serve setting depth) (ExceptT.run (Kinds.whileLoop.execute node)) walker
      fun errands result =>
        (errands = [⟨.about, walker, none⟩] ∧ result = none) ∨
        ∃ more bodies completing outcome,
          errands = ⟨.about, walker, some setting.about⟩ :: more ∧
          WhileRun setting.circuit node.id (ceilingOf setting.about node)
            ((List.range (ceilingOf setting.about node)).map fun i => [("iteration", .ofNat i)])
            more bodies completing outcome ∧
          result = outcome.map (Except.map .forward) := by
  refine traced_of_runs fun errands outcome past run => ?_
  rw [execute_whileLoop] at run
  cases run with
  | underway => exact .inl ⟨rfl, rfl⟩
  | @answered _ _ _ _ about _ _ _ _ course run =>
    obtain rfl : about = setting.about := by
      refine WP.of_answered (fun about _ _ => about = setting.about) ?_ course
      cases depth with
      | zero => exact WP.exhausted_iff.mpr trivial
      | succ => rfl
    obtain ⟨inner, run, same⟩ := run.of_map
    obtain ⟨bodies, completing, seen⟩ := whileRun_of_runs (Nat.le_refl _) run
    rw [Nat.sub_self, ← List.range_eq_range'] at seen
    refine .inr ⟨_, bodies, completing, _, rfl, seen, ?_⟩
    rw [same, Option.map_map, Option.map_map]
    rfl

end Pinflow.Loop
