import Pinflow.Proofs.Circuit.Fresh
import Pinflow.Proofs.Walk.Orderly
import Pinflow.Proofs.Walk.Recall

/-!
# The memo is coherent

Whatever a walk over built-in kinds remembers of a data node is what computing it afresh
would give, with one exception: when an action writes its outputs, the data computed from
its earlier ones is not forgotten. `outdated` describes these entries, and `Coherent` says
that all other entries can be computed from them, the context and what loops and actions
have written.

The invariant is shown under the assumption that the order of happenings has been kept,
which is what `Pinflow.Proofs.Walk.Orderly` provides.
-/

namespace Pinflow.Walk

open Circuit Kinds Recollection

variable {ref : PinRef} {happening : Happening} {loop pin : String} {past' : Past} {q : Query}

/-- The kinds whose outputs are there only once they have been written. -/
def holding : List Kind := loops ++ actions

/-- Does a happening leave the data of a node as it was before an action wrote its outputs? -/
def outdates (circuit : Circuit) (node : String) : Happening → Bool
  | .stored action _ =>
    circuit.isOf actions action && circuit.isOf data node &&
      (circuit.fed action).contains node
  | _ => false

/-- The entries of data nodes that were there before the latest writing of an action that
they are computed from, and have been there ever since. -/
def outdated (circuit : Circuit) : Past → Held
  | [], _ => none
  | ⟨.announce moment, _⟩ :: earlier, ref =>
    match moment.walker.memo.get? ref with
    | none => none
    | some value =>
      (outdated circuit earlier ref).or
        (if outdates circuit ref.node moment.happening then some value else none)
  | _ :: earlier, ref => outdated circuit earlier ref

/-- What a walk has in hand to compute data from. -/
def inHand (circuit : Circuit) (memory : Recollection) (past : Past) : Held := fun ref =>
  if circuit.isOf holding ref.node then memory ref else outdated circuit past ref

/-- The output can be computed to this value. -/
def Yields (circuit : Circuit) (context : Context) (held : Held) (ref : PinRef) (value : Value) :
    Prop :=
  ∃ depth, circuit.unfolded context held depth ref = some (.ok value)

/-- Whatever is remembered of data nodes can be computed from what is in hand. -/
structure Coherent (circuit : Circuit) (walker : Walker) (past : Past) : Prop where
  sound : ∀ ref value, walker.memo.get? ref = some value →
    circuit.isOf data ref.node = true →
    Yields circuit walker.context (inHand circuit walker.memo.get? past) ref value
  remembered : ∀ ref old, outdated circuit past ref = some old → walker.memo.get? ref = some old
  cleared : ∀ loop pin, (happenings past).head? = some (.reentered loop pin) →
    ∀ ref value, walker.memo.get? ref = some value → circuit.isOf data ref.node = true →
      ref.node ∉ circuit.readers loop pin

variable {circuit : Circuit} {walker walker' : Walker} {past : Past}

theorem outdated_told (happening : Happening) (walker : Walker) (past : Past) (ref : PinRef) :
    outdated circuit (told happening walker :: past) ref =
      match walker.memo.get? ref with
      | none => none
      | some value => (outdated circuit past ref).or
          (if outdates circuit ref.node happening then some value else none) := rfl

theorem outdated_silent (answer : q.Answer) (silent : happening? q = none) :
    outdated circuit (⟨q, answer⟩ :: past) = outdated circuit past := by
  cases q with
  | announce => cases silent
  | _ => rfl

/-- Outdated entries are of data nodes that an action feeds. -/
theorem exists_of_outdated {old : Value} (known : outdated circuit past ref = some old) :
    circuit.isOf data ref.node = true ∧
      ∃ action, circuit.isOf actions action = true ∧ ref.node ∈ circuit.fed action := by
  induction past generalizing old with
  | nil => cases known
  | cons exchange past ih =>
    obtain ⟨q, answer⟩ := exchange
    cases q with
    | announce moment =>
      rw [outdated] at known
      split at known
      · cases known
      · rcases Option.or_eq_some_iff.mp known with before | ⟨-, now⟩
        · exact ih before
        · split at now
          · rename_i marks
            cases isStored : moment.happening with
            | stored action =>
              simp only [isStored, outdates, Bool.and_eq_true, List.contains_iff_mem] at marks
              exact ⟨marks.1.2, action, marks.1.1, marks.2⟩
            | _ => simp [isStored, outdates] at marks
          · cases now
    | _ => exact ih known

theorem inHand_of_holding (memory : Recollection) (past : Past)
    (isHolding : circuit.isOf holding ref.node = true) :
    inHand circuit memory past ref = memory ref := if_pos isHolding

theorem inHand_of_data (memory : Recollection) (past : Past)
    (isData : circuit.isOf data ref.node = true) :
    inHand circuit memory past ref = outdated circuit past ref :=
  if_neg (by rw [isOf_eq_false (by decide) isData]; exact Bool.false_ne_true)

/-- Whatever is in hand was written or is outdated. -/
theorem written_or_outdated {memory : Recollection} {value : Value}
    (known : inHand circuit memory past ref = some value) :
    circuit.isOf holding ref.node = true ∧ memory ref = some value ∨
      outdated circuit past ref = some value := by
  rw [inHand] at known
  split at known
  · rename_i isHolding
    exact .inl ⟨isHolding, known⟩
  · exact .inr known

theorem outdated_of_holding (isHolding : circuit.isOf holding ref.node = true) :
    outdated circuit past ref = none := by
  cases known : outdated circuit past ref with
  | none => rfl
  | some =>
    rw [isOf_eq_false (by decide) (exists_of_outdated known).1] at isHolding
    cases isHolding

theorem inHand_congr (memory : Recollection)
    (same : outdated circuit past' = outdated circuit past) :
    inHand circuit memory past' = inHand circuit memory past := by
  unfold inHand
  rw [same]

/-- Remembering an output of a data node puts nothing in hand. -/
theorem inHand_store {source : PinRef} (memo : Memo) (past : Past)
    (isData : circuit.isOf data source.node = true) (value : Value) :
    inHand circuit (memo.store source value).get? past = inHand circuit memo.get? past := by
  funext ref
  by_cases isHolding : circuit.isOf holding ref.node = true
  · have other : ref ≠ source := by
      rintro rfl
      rw [isOf_eq_false (by decide) isData] at isHolding
      cases isHolding
    rw [inHand_of_holding _ _ isHolding, inHand_of_holding _ _ isHolding, Memo.get?_store,
      if_neg other]
  · rw [inHand, inHand, if_neg isHolding, if_neg isHolding]

namespace Coherent

theorem transport (coherent : Coherent circuit walker past)
    (memo : walker'.memo.get? = walker.memo.get?) (context : walker'.context = walker.context)
    (same : outdated circuit past' = outdated circuit past)
    (last : ∀ loop pin, (happenings past').head? = some (.reentered loop pin) →
      (happenings past).head? = some (.reentered loop pin)) :
    Coherent circuit walker' past' where
  sound := by
    rw [memo, context, inHand_congr walker.memo.get? same]
    exact coherent.sound
  remembered := by
    rw [memo, same]
    exact coherent.remembered
  cleared loop pin reentered := by
    rw [memo]
    exact coherent.cleared loop pin (last loop pin reentered)

/-- Intents and log lines are nothing that data is computed from. -/
theorem recorded (wired : Circuit.Wired Registry.builtin circuit) {context : Context}
    (coherent : Coherent circuit walker past) (alike : walker.context.Alike true context) :
    Coherent circuit { walker with context } past where
  sound ref value found isData := by
    obtain ⟨depth, known⟩ := coherent.sound ref value found isData
    refine ⟨depth, unfolded_congr wired (fun _ => False) (fun _ _ _ => id) ?_ ?_ ?_
      known id⟩
    · exact fun _ _ _ _ => ⟨alike.args, alike.event, fun _ => alike.vars rfl⟩
    · exact fun _ _ _ known => known
    · exact fun _ _ _ bare => bare
  remembered := coherent.remembered
  cleared := coherent.cleared

/-- A happening that affects some nodes keeps the memo coherent, if all that remains of the
data among them is outdated by it. -/
theorem change (wired : Circuit.Wired Registry.builtin circuit)
    (coherent : Coherent circuit walker past) (affected : String → Prop)
    (closed : ∀ edge ∈ circuit.dataEdges, circuit.isOf data edge.target.node = true →
      affected edge.source.node → affected edge.target.node)
    (alike : ∀ node part, circuit.part? node = some part → ¬ affected node →
      walker.context.Alike part.kind.volatile walker'.context)
    (kept : ∀ ref value, ¬ affected ref.node → walker.memo.get? ref = some value →
      walker'.memo.get? ref = some value)
    (marked : ∀ node, outdates circuit node happening = true → affected node)
    (survives : ∀ ref value, circuit.isOf data ref.node = true →
      walker'.memo.get? ref = some value → walker.memo.get? ref = some value ∧
        (affected ref.node → outdates circuit ref.node happening = true))
    (cleared : ∀ loop pin, happening = .reentered loop pin → ∀ ref value,
      walker'.memo.get? ref = some value → circuit.isOf data ref.node = true →
      ref.node ∉ circuit.readers loop pin) :
    Coherent circuit walker' (told happening walker' :: past) where
  remembered ref old known := by
    have isData := (exists_of_outdated known).1
    rw [outdated_told] at known
    cases found : walker'.memo.get? ref with
    | none => simp [found] at known
    | some value =>
      simp only [found] at known
      rcases Option.or_eq_some_iff.mp known with before | ⟨-, now⟩
      · rw [← (survives ref value isData found).1]
        exact coherent.remembered ref old before
      · split at now
        · exact now
        · cases now
  sound ref value found isData := by
    obtain ⟨before, stale⟩ := survives ref value isData found
    by_cases safe : affected ref.node
    · -- What is affected and still there is in hand.
      have marks := stale safe
      refine ⟨1, ?_⟩
      have now : outdated circuit (told happening walker' :: past) ref = some value := by
        rw [outdated_told, found]
        simp only [marks, if_true]
        cases earlier : outdated circuit past ref with
        | none => rfl
        | some old =>
          rw [coherent.remembered ref old earlier] at before
          exact before
      rw [Circuit.unfolded, inHand_of_data _ _ isData, now]
    · obtain ⟨depth, known⟩ := coherent.sound ref value before isData
      refine ⟨depth, unfolded_congr wired affected closed alike ?_ ?_ known safe⟩
      · intro other value safe isHeld
        by_cases isHolding : circuit.isOf holding other.node = true
        · rw [inHand_of_holding _ _ isHolding] at isHeld ⊢
          exact kept other value safe isHeld
        · rw [inHand, if_neg isHolding] at isHeld ⊢
          rw [outdated_told, kept other value safe (coherent.remembered other value isHeld), isHeld]
          rfl
      · intro other safe isData isBare
        rw [inHand_of_data _ _ isData] at isBare ⊢
        have unmarked : outdates circuit other.node happening = false :=
          Bool.eq_false_iff.mpr fun marks => safe (marked other.node marks)
        rw [outdated_told, isBare, unmarked]
        cases walker'.memo.get? other <;> rfl
  cleared loop pin last := cleared loop pin (Option.some.inj last)

/-- Happenings that neither write outputs nor start a loop's body again. -/
def Neutral : Happening → Prop
  | .stored _ _ | .reentered _ _ => False
  | _ => True

section

variable (coherent : Coherent circuit walker past)
include coherent

theorem outdated_neutral (neutral : Neutral happening) :
    outdated circuit (told happening walker :: past) = outdated circuit past := by
  have quiet : ∀ node, outdates circuit node happening = false := by
    cases happening <;> first | exact fun _ => rfl | cases neutral
  funext ref
  rw [outdated_told, quiet]
  cases before : outdated circuit past ref with
  | none => cases walker.memo.get? ref <;> rfl
  | some old =>
    rw [coherent.remembered ref old before]
    rfl

theorem silent (answer : q.Answer) (silent : happening? q = none) :
    Coherent circuit walker (⟨q, answer⟩ :: past) := by
  refine coherent.transport rfl rfl (outdated_silent answer silent) fun loop pin last => ?_
  rwa [happenings_cons_of_silent answer past silent] at last

theorem neutral (neutral : Neutral happening) :
    Coherent circuit walker (told happening walker :: past) := by
  refine coherent.transport rfl rfl (coherent.outdated_neutral neutral) fun loop pin last => ?_
  cases Option.some.inj last
  cases neutral

end

section writing

variable (wired : Circuit.Wired Registry.builtin circuit)
include wired

section

variable (coherent : Coherent circuit walker past)
include coherent

/-- Forgetting all that data nodes compute from some nodes, and these nodes with them, keeps
the memo coherent. -/
theorem forgotten (nodes : List String)
    (closed : ∀ edge ∈ circuit.dataEdges, circuit.isOf data edge.target.node = true →
      edge.source.node ∈ nodes → edge.target.node ∈ nodes)
    (alike : ∀ node part, circuit.part? node = some part → node ∉ nodes →
      walker.context.Alike part.kind.volatile walker'.context)
    (memo : walker'.memo.get? = forget walker.memo.get? nodes)
    (quiet : ∀ node, outdates circuit node happening = false)
    (cleared : ∀ loop pin, happening = .reentered loop pin → ∀ ref : PinRef,
      circuit.isOf data ref.node = true → ref.node ∈ circuit.readers loop pin →
      ref.node ∈ nodes) :
    Coherent circuit walker' (told happening walker' :: past) := by
  have remaining : ∀ ref value, walker'.memo.get? ref = some value →
      walker.memo.get? ref = some value ∧ ref.node ∉ nodes := by
    intro ref value found
    rw [memo, forget] at found
    split at found
    · cases found
    · rename_i safe
      exact ⟨found, fun stale => safe (List.contains_iff_mem.mpr stale)⟩
  refine coherent.change wired (· ∈ nodes) closed alike ?_ ?_ ?_ ?_
  · intro ref value safe found
    rw [memo, forget, if_neg fun stale => safe (List.contains_iff_mem.mp stale)]
    exact found
  · intro node marks
    rw [quiet] at marks
    cases marks
  · intro ref value _ found
    obtain ⟨before, safe⟩ := remaining ref value found
    exact ⟨before, fun stale => absurd stale safe⟩
  · intro loop pin same ref value found isData reads
    exact (remaining ref value found).2 (cleared loop pin same ref isData reads)

/-- Whatever reads a variable is forgotten when a variable is written. -/
theorem assigned (path : String) (value : Value) : let new : Walker := { walker with
      context := walker.context.assign path value
      memo := walker.memo.invalidate circuit.volatileScope }
    Coherent circuit new (told (.assigned path value) new :: past) := by
  refine coherent.forgotten wired circuit.volatileScope ?_ ?_ ?_ (fun _ => rfl)
    nofun
  · exact fun edge member _ stale => Arrows.mem_reach_of_arrow stale (mem_dataArrows member)
  · intro node part found safe
    refine ⟨rfl, rfl, fun volatile => ?_⟩
    exact absurd (mem_volatileScope_of_volatile found volatile) safe
  · exact funext fun ref => Memo.get?_invalidate walker.memo ref _

/-- What is derived in the scope of a loop is forgotten when the loop goes on to look at its
condition. -/
theorem refreshed (isLoop : circuit.isOf loops loop = true) :
    let new : Walker := { walker with
      memo := walker.memo.invalidate (circuit.loopScope loop pin).derived }
    Coherent circuit new (told (.refreshed loop pin) new :: past) := by
  refine coherent.forgotten wired (circuit.loopScope loop pin).derived ?_ ?_ ?_ (fun _ => rfl)
    nofun
  · intro edge member isData stale
    have reads := readers_closed member (mem_derived_iff.mp stale).1
    exact wired.mem_derived_of_data isLoop isData reads
  · exact fun _ _ _ _ => ⟨rfl, rfl, fun _ => rfl⟩
  · exact funext fun ref => Memo.get?_invalidate walker.memo ref _

/-- The whole scope of a loop is forgotten when its body starts again. -/
theorem reentered (isLoop : circuit.isOf loops loop = true) :
    let scope := circuit.loopScope loop pin
    let new : Walker := { walker with
      memo := (walker.memo.invalidate scope.executed).invalidate scope.derived }
    Coherent circuit new (told (.reentered loop pin) new :: past) := by
  let scope := circuit.loopScope loop pin
  refine coherent.forgotten wired (scope.executed ++ scope.derived) ?_ ?_ ?_ (fun _ => rfl) ?_
  · intro edge member isData stale
    have source : edge.source.node ∈ circuit.readers loop pin := by
      rcases List.mem_append.mp stale with body | derived
      · exact Arrows.mem_reach_of_seed (List.mem_cons_of_mem _ body)
      · exact (mem_derived_iff.mp derived).1
    have reads := readers_closed member source
    exact List.mem_append_right _ (wired.mem_derived_of_data isLoop isData reads)
  · exact fun _ _ _ _ => ⟨rfl, rfl, fun _ => rfl⟩
  · funext ref
    rw [Memo.get?_invalidate, Memo.get?_invalidate, forget, List.contains_append]
    cases scope.executed.contains ref.node <;> cases scope.derived.contains ref.node <;> rfl
  · intro loop' pin' same ref isData reads
    cases same
    exact List.mem_append_right _ (wired.mem_derived_of_data isLoop isData reads)

/-- Writing the outputs of a node keeps the memo coherent, if it outdates all that is left of
what was computed from the earlier ones. -/
theorem stored {node : String} (values : List (String × Value))
    (plain : circuit.isOf data node = false) (affected : String → Prop)
    (closed : ∀ edge ∈ circuit.dataEdges, circuit.isOf data edge.target.node = true →
      affected edge.source.node → affected edge.target.node)
    (self : affected node)
    (marked : ∀ other, outdates circuit other (.stored node values) = true → affected other)
    (left : ∀ ref value, walker.memo.get? ref = some value →
      circuit.isOf data ref.node = true → affected ref.node →
      outdates circuit ref.node (.stored node values) = true) :
    let new : Walker := { walker with memo := walker.memo.storeMany node values }
    Coherent circuit new (told (.stored node values) new :: past) := by
  have others : ∀ ref : PinRef, ref.node ≠ node →
      (walker.memo.storeMany node values).get? ref = walker.memo.get? ref := by
    intro ref other
    rw [get?_storeMany]
    exact storeMany_of_ne _ fun same => absurd same other
  refine coherent.change wired affected closed (fun _ _ _ _ => ⟨rfl, rfl, fun _ => rfl⟩) ?_ marked
    ?_ (by simp)
  · intro ref value safe found
    rw [others ref fun same => safe (same ▸ self)]
    exact found
  · intro ref value isData found
    have other : ref.node ≠ node := by
      rintro rfl
      rw [plain] at isData
      cases isData
    rw [others ref other] at found
    exact ⟨found, left ref value found isData⟩

/-- A loop writes its outputs right after its body has started again, when nothing is left
that was computed from the earlier ones. -/
theorem storedByLoop (values : List (String × Value))
    (isLoop : circuit.isOf loops loop = true)
    (last : (happenings past).head? = some (.reentered loop pin)) :
    let new : Walker := { walker with memo := walker.memo.storeMany loop values }
    Coherent circuit new (told (.stored loop values) new :: past) := by
  refine coherent.stored wired values (isOf_eq_false (by decide) isLoop)
    (· ∈ circuit.readers loop pin) ?_ (loop_mem_readers loop pin) ?_ ?_
  · exact fun edge member _ => readers_closed member
  · intro node marks
    rw [outdates, isOf_eq_false (by decide) isLoop] at marks
    cases marks
  · intro ref value found isData stale
    exact absurd stale (coherent.cleared loop pin last ref value found isData)

/-- What was computed from the earlier outputs of an action stays, outdated. -/
theorem storedByAction {action : String} (values : List (String × Value))
    (isAction : circuit.isOf actions action = true) :
    let new : Walker := { walker with memo := walker.memo.storeMany action values }
    Coherent circuit new (told (.stored action values) new :: past) := by
  have outdates_iff : ∀ node, outdates circuit node (.stored action values) = true ↔
      circuit.isOf data node = true ∧ node ∈ circuit.fed action := by
    intro node
    simp [outdates, isAction]
  refine coherent.stored wired values (isOf_eq_false (by decide) isAction)
    (· ∈ circuit.fed action) ?_ (self_mem_fed action) ?_ ?_
  · exact fun edge member isData => fed_closed member isData
  · exact fun node marks => ((outdates_iff node).mp marks).2
  · exact fun ref _ _ isData stale => (outdates_iff ref.node).mpr ⟨isData, stale⟩

end

end writing

end Coherent

end Pinflow.Walk
