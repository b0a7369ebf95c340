import Pinflow.Proofs.Json.Rereading
import Pinflow.Proofs.Trace.Story

/-!
# Recordings

What a recorder holds when it has heard a story. Its steps are those that have begun, in
their order and numbered from zero; while a step is open it collects the inputs of its node,
when it ends it gets its outputs, and afterwards nothing touches it. `Recorder.hear_closed`
and `Recorder.hear_edge` say so for the two sorts of steps.
-/

namespace Pinflow

open List

variable {step : Step} {moment : Moment} {inputs : Value} {inside story : Story}

/-- The entries of an object; nothing for any other value. -/
def Value.entries (value : Value) : Fields := value.asFields?.getD []

/-- A bounded object with one field has no other, unless it is a marker. -/
theorem entries_bounded {key : String} (value : Value) (most : Nat) (other : key ≠ "pins") :
    ((Value.object [(key, value)]).bounded most).entries.get? "pins" = none := by
  rw [Value.bounded, boundedText]
  split
  · simp only [marker, Value.entries, Value.object, Value.asFields?, Fields.ofList,
      foldl_cons, foldl_nil, Option.getD_some]
    rfl
  · have reads : Value.read? (Value.object [(key, value)]).render =
        (value.reread?.bind fun tree => tree.value? 126).map fun value => .object [(key, value)] := by
      rw [Value.read?, Value.read?_render]
      show ((Value.rereadFields? [(key, value)]).map Json.Raw.table).bind _ = _
      rw [Value.rereadFields?]
      cases value.reread? with
      | none => rfl
      | some tree =>
        show ((Json.Raw.entries? [(some key, tree)] 126).map Value.object) = _
        cases found : tree.value? 126 <;> simp [found, Json.Raw.entries?]
    rw [reads]
    cases value.reread?.bind fun tree => tree.value? 126 with
    | none => rfl
    | some => exact if_neg other

namespace Recorder

open Story

def hear (recorder : Recorder) (story : Story) : Recorder :=
  story.foldr (fun moment recorder => recorder.observe moment) recorder

def heed (recorder : Recorder) : Report → Recorder
  | .opening heading given =>
    (recorder.begin heading.node heading.kind heading.pin given).opening heading.node
  | .closing _ gives fault => recorder.closing gives fault
  | .supply node pin value =>
    match recorder.opened.find? fun entry => entry.1 == node with
    | some (_, sequence) => recorder.supply sequence pin value
    | none => recorder
  | .edge source target => recorder.traversal source target
  | .note node message => recorder.note node message
  | .other => recorder

theorem observe_eq (recorder : Recorder) (moment : Moment) :
    recorder.observe moment = recorder.heed moment.report := by
  obtain ⟨happening, walker⟩ := moment
  cases happening with
  | evaluated source result | executed node result => cases result <;> rfl
  | _ => rfl

def revise (recorder : Recorder) (number : Nat) (report : Report) (step : Step) : Step :=
  match report with
  | .closing _ gives fault =>
    if recorder.opened.head?.map Prod.snd = some number then
      { step with outputs := gives.bounded recorder.most, error := fault.map Fault.message }
    else step
  | .supply node pin value =>
    if (recorder.opened.find? fun entry => entry.1 == node).map Prod.snd = some number then
      { step with inputs := withPin step.inputs pin (value.bounded recorder.most) }
    else step
  | _ => step

variable {recorder : Recorder} {number : Nat}

@[simp] theorem heed_most (recorder : Recorder) (report : Report) :
    (recorder.heed report).most = recorder.most := by
  cases report with
  | closing =>
    rw [heed, closing]
    split <;> rfl
  | supply =>
    rw [heed]
    split <;> rfl
  | _ => rfl

theorem lt_size (holds : recorder.steps[number]? = some step) :
    number < recorder.steps.size := (Array.getElem?_eq_some_iff.mp holds).1

/-- What a report makes of a step that has begun. -/
theorem getElem?_heed (holds : recorder.steps[number]? = some step) (report : Report) :
    (recorder.heed report).steps[number]? = some (recorder.revise number report step) := by
  have old : ∀ step, (recorder.steps.push step)[number]? = recorder.steps[number]? := by
    intro step
    rw [Array.getElem?_push, if_neg (Nat.ne_of_lt (lt_size holds))]
  cases report with
  | opening => exact (old _).trans holds
  | closing =>
    simp only [heed, closing, revise]
    cases recorder.opened with
    | nil => exact holds
    | cons =>
      simp only [finish, Array.getElem?_modify, holds, head?_cons, Option.map_some,
        Option.some.injEq]
      split <;> rfl
  | supply node =>
    simp only [heed, revise]
    cases recorder.opened.find? fun entry => entry.1 == node with
    | none => exact holds
    | some =>
      simp only [supply, Array.getElem?_modify, holds, Option.map_some, Option.some.injEq]
      split <;> rfl
  | edge =>
    simp only [heed, traversal, finish, begin, Array.getElem?_modify]
    rw [if_neg (Nat.ne_of_gt (lt_size holds)), old]
    exact holds
  | note => exact holds
  | other => exact holds

/-- A report changes neither the number of a step nor what it is about. -/
theorem revise_label (recorder : Recorder) (number : Nat) (report : Report) (step : Step) :
    (recorder.revise number report step).sequence = step.sequence ∧
      (recorder.revise number report step).heading = step.heading := by
  cases report with
  | closing | supply =>
    rw [revise]
    split <;> exact ⟨rfl, rfl⟩
  | _ => exact ⟨rfl, rfl⟩

def fresh? (recorder : Recorder) : Report → Option Step
  | .opening heading given => some {
      sequence := recorder.steps.size, node := heading.node, kind := heading.kind
      pin := heading.pin, inputs := given.bounded recorder.most }
  | .edge source target => some {
      sequence := recorder.steps.size, node := source.node, kind := .traversal
      pin := some source.pin, inputs := Value.null.bounded recorder.most
      outputs := (Value.object [("target", .str target.text)]).bounded recorder.most }
  | _ => none

/-- A new step stands at the end. -/
theorem getElem?_heed_size (recorder : Recorder) (report : Report) :
    (recorder.heed report).steps[recorder.steps.size]? = recorder.fresh? report := by
  have none : recorder.steps[recorder.steps.size]? = none := Array.getElem?_eq_none (Nat.le_refl _)
  cases report with
  | opening => exact Array.getElem?_push_size
  | closing =>
    rw [heed, closing]
    split
    · exact none
    · simp [finish, fresh?]
  | supply =>
    rw [heed]
    split
    · simp [supply, fresh?]
    · exact none
  | edge =>
    simp only [heed, traversal, finish, begin, Array.getElem?_modify, if_true,
      Array.getElem?_push_size]
    rfl
  | note => exact none
  | other => exact none

theorem begins?_eq (recorder : Recorder) (report : Report) :
    report.begins? = (recorder.fresh? report).map Step.heading := by
  cases report <;> rfl

theorem fresh?_sequence {report : Report} (begins : recorder.fresh? report = some step) :
    step.sequence = recorder.steps.size := by
  cases report with
  | opening | edge =>
    cases begins
    rfl
  | _ => cases begins

theorem size_heed (recorder : Recorder) (report : Report) :
    (recorder.heed report).steps.size = recorder.steps.size + report.begins?.toList.length := by
  cases report with
  | opening => exact Array.size_push _
  | closing =>
    rw [heed, closing]
    split
    · rfl
    · exact Array.size_modify
  | supply =>
    rw [heed]
    split
    · exact Array.size_modify
    · rfl
  | edge => exact Array.size_modify.trans (Array.size_push _)
  | _ => rfl

/-- A step was there before, or is the one that begins. -/
theorem heed_cases {report : Report}
    (holds : (recorder.heed report).steps[number]? = some step) :
    (∃ old, recorder.steps[number]? = some old ∧ recorder.revise number report old = step) ∨
      number = recorder.steps.size ∧ recorder.fresh? report = some step := by
  obtain old | new := Nat.lt_or_ge number recorder.steps.size
  · have before := Array.getElem?_eq_getElem old
    rw [getElem?_heed before, Option.some.injEq] at holds
    exact .inl ⟨_, before, holds⟩
  · have most : report.begins?.toList.length ≤ 1 := by
      cases report.begins? <;> simp
    have isLast : number = recorder.steps.size := by
      have has := lt_size holds
      rw [size_heed] at has
      omega
    rw [isLast, getElem?_heed_size] at holds
    exact .inr ⟨isLast, holds⟩

theorem opened_closing (recorder : Recorder) (gives : Value) (fault : Option Fault) :
    (recorder.closing gives fault).opened = recorder.opened.tail := by
  rw [closing]
  cases same : recorder.opened with
  | nil => exact same
  | cons => rfl

/-- What a recorder that has heard a story says about its steps and notes. -/
structure Tracks (recorder : Recorder) (story : Story) : Prop where
  opened : recorder.opened = story.opened.map fun entry => (entry.1.node, entry.2)
  size : recorder.steps.size = story.begun
  labels : ∀ {i : Nat} {step : Step}, recorder.steps[i]? = some step →
    step.sequence = i ∧ story.headings.reverse[i]? = some step.heading
  notes : recorder.notesRev = story.notes

namespace Tracks

variable {story : Story} (tracks : Tracks recorder story)
include tracks

theorem last : recorder.steps.back?.map Step.sequence = story.last? := by
  rw [Array.back?_eq_getElem?, tracks.size, last?]
  cases count : story.begun with
  | zero =>
    have none : recorder.steps[0 - 1]? = none := Array.getElem?_eq_none (by rw [tracks.size]; omega)
    rw [none]
    rfl
  | succ n =>
    have has : n < recorder.steps.size := by rw [tracks.size]; omega
    have holds := Array.getElem?_eq_getElem has
    rw [Nat.add_sub_cancel, holds, Option.map_some, (tracks.labels holds).1]

/-- A step that has begun keeps its label, and a new one gets the next number. -/
theorem labels_heed {i : Nat} (holds : (recorder.heed moment.report).steps[i]? = some step) :
    step.sequence = i ∧ (headings (moment :: story)).reverse[i]? = some step.heading := by
  have count : story.headings.reverse.length = recorder.steps.size := by
    rw [length_reverse, tracks.size]
    rfl
  rw [headings_cons, reverse_append]
  rcases heed_cases holds with ⟨old, before, rfl⟩ | ⟨rfl, begins⟩
  · obtain ⟨sameNumber, sameHeading⟩ := recorder.revise_label i moment.report old
    rw [sameNumber, sameHeading, getElem?_append_left (count ▸ lt_size before)]
    exact tracks.labels before
  · rw [getElem?_append_right (Nat.le_of_eq count), count, Nat.sub_self, begins?_eq recorder,
      begins]
    exact ⟨fresh?_sequence begins, rfl⟩

theorem observe (moment : Moment) : Tracks (recorder.observe moment) (moment :: story) := by
  rw [observe_eq]
  refine ⟨?_, ?_, tracks.labels_heed, ?_⟩
  · rw [Story.opened]
    cases moment.report with
    | opening => simp [heed, begin, opening, tracks.opened, tracks.size]
    | closing =>
      rw [heed, opened_closing, tracks.opened]
      exact (map_tail ..).symm
    | supply =>
      rw [heed]
      split <;> exact tracks.opened
    | _ => exact tracks.opened
  · rw [size_heed, tracks.size, begun, begun, headings_cons, length_append, Nat.add_comm]
  · rw [Story.notes, ← tracks.notes, ← tracks.last]
    cases moment.report with
    | closing =>
      simp only [heed, closing]
      split <;> rfl
    | supply =>
      simp only [heed]
      split <;> rfl
    | _ => rfl

end Tracks

/-- A recorder that has heard a story from its beginning. -/
theorem tracks_hear (most : Nat) (story : Story) : Tracks (hear { most } story) story := by
  induction story with
  | nil => exact ⟨rfl, rfl, fun holds => by simp [hear] at holds, rfl⟩
  | cons moment story ih => exact ih.observe moment

@[simp] theorem most_hear (recorder : Recorder) (story : Story) :
    (recorder.hear story).most = recorder.most := by
  induction story with
  | nil => rfl
  | cons moment story ih =>
    show ((recorder.hear story).observe moment).most = recorder.most
    rw [observe_eq, heed_most, ih]

/-- The inputs of a step with its pins. A step without any has no field for them. -/
def withPins (inputs : Value) (pins : Fields) : Value :=
  if pins.isEmpty then inputs else .obj (inputs.entries.insert "pins" (.obj pins))

/-- The bounded values of the inputs resolved for a step, the last of each pin. -/
def pinsOf (most number : Nat) (story : Story) : Fields :=
  (story.resolved number).foldr
    (fun entry pins => pins.insert entry.1 (entry.2.bounded most)) []

theorem isEmpty_insert (fields : Fields) (key : String) (value : Value) :
    (fields.insert key value).isEmpty = false := by
  cases fields with
  | nil => rfl
  | cons =>
    rw [Fields.insert]
    split
    · rfl
    · split <;> rfl

theorem withPin_of_none (bare : inputs.entries.get? "pins" = none) (pin : String) (value : Value) :
    withPin inputs pin value = .obj (inputs.entries.insert "pins" (.obj [(pin, value)])) := by
  cases inputs with
  | obj fields =>
    have bare : Fields.get? fields "pins" = none := bare
    simp only [withPin, bare]
    rfl
  | _ => rfl

theorem withPin_of_some {fields pins : Fields} (has : fields.get? "pins" = some (.obj pins))
    (pin : String) (value : Value) :
    withPin (.obj fields) pin value = .obj (fields.insert "pins" (.obj (pins.insert pin value))) := by
  simp only [withPin, has]
  rfl

theorem withPin_withPins (bare : inputs.entries.get? "pins" = none) (pins : Fields) (pin : String)
    (value : Value) :
    withPin (withPins inputs pins) pin value = withPins inputs (pins.insert pin value) := by
  rw [withPins, withPins, isEmpty_insert, if_neg Bool.false_ne_true]
  cases pins with
  | nil =>
    rw [isEmpty_nil, if_pos rfl, withPin_of_none bare]
    rfl
  | cons =>
    rw [isEmpty_cons, if_neg Bool.false_ne_true,
      withPin_of_some (Fields.get?_insert_self ..), Fields.insert_insert]

section contents

variable {most : Nat} {start : Moment} {earlier : Story} {heading : Heading} {given : Value}

def openStep (most : Nat) (heading : Heading) (given : Value) (number : Nat) (story : Story) :
    Step where
  sequence := number
  node := heading.node
  kind := heading.kind
  pin := heading.pin
  inputs := withPins (given.bounded most) (pinsOf most number story)

def closedStep (most : Nat) (heading : Heading) (given : Value) (number : Nat) (story : Story)
    (gives : Value) (fault : Option Fault) : Step :=
  { openStep most heading given number story with
    outputs := gives.bounded most
    error := fault.map Fault.message }

/-- What is given to a step that opens is an object without pins. -/
theorem bare_of_opening (opens : start.report = .opening heading given) (most : Nat) :
    (given.bounded most).entries.get? "pins" = none := by
  obtain ⟨happening, walker⟩ := start
  cases happening with
  | evaluating | executing =>
    cases opens
    exact entries_bounded _ most (by decide)
  | evaluated source result | executed node result => cases result <;> cases opens
  | _ => cases opens

theorem hear_cons (recorder : Recorder) (moment : Moment) (story : Story) :
    recorder.hear (moment :: story) = (recorder.hear story).heed moment.report :=
  observe_eq _ moment

/-- Nothing is done to a step that is not open. -/
theorem Tracks.revise_eq (tracks : Tracks recorder story) (closed : ¬ StillOpen number story)
    (report : Report) (step : Step) : recorder.revise number report step = step := by
  cases report with
  | closing =>
    rw [revise, tracks.opened, head?_map, Option.map_map]
    refine if_neg fun isFirst => closed ?_
    obtain ⟨entry, first, rfl⟩ := Option.map_eq_some_iff.mp isFirst
    exact mem_map_of_mem (mem_of_mem_head? first)
  | supply node =>
    rw [revise, tracks.opened, find?_map, Option.map_map]
    exact if_neg (innermost?_ne closed node)
  | _ => rfl

/-- A step that has ended stays as it is. -/
theorem hear_untouched (ended : Ended number story) (later : Story) :
    (hear { most } (later ++ story)).steps[number]? = (hear { most } story).steps[number]? := by
  induction later with
  | nil => rfl
  | cons moment later ih =>
    have tracks := tracks_hear most (later ++ story)
    have ended := ended.append later
    have holds := Array.getElem?_eq_getElem (tracks.size ▸ ended.begun)
    rw [cons_append, hear_cons, getElem?_heed holds, tracks.revise_eq ended.closed, ← holds, ih]

/-- While a step is open it collects the inputs of its node. -/
theorem hear_open (opens : start.report = .opening heading given)
    (isOpen : StillOpen earlier.begun (inside ++ start :: earlier)) :
    (hear { most } (inside ++ start :: earlier)).steps[earlier.begun]? =
      some (openStep most heading given earlier.begun (inside ++ start :: earlier)) := by
  induction inside with
  | nil =>
    have none : resolved earlier.begun (start :: earlier) = [] := by
      rw [resolved, opens]
      exact resolved_of_unbegun (Nat.le_refl _)
    rw [nil_append, hear_cons, ← (tracks_hear most earlier).size, getElem?_heed_size, opens,
      fresh?, (tracks_hear most earlier).size, openStep, pinsOf, none, most_hear]
    rfl
  | cons moment inside ih =>
    have has : earlier.begun < begun (inside ++ start :: earlier) := by
      rw [begun_append, begun_cons_of_some (begins?_of_opening opens)]
      omega
    have before := StillOpen.before isOpen has
    have tracks := tracks_hear most (inside ++ start :: earlier)
    rw [cons_append, hear_cons, getElem?_heed (ih before), Option.some.injEq]
    cases report : moment.report with
    | closing other =>
      -- Another step is innermost, for otherwise this one would end here.
      obtain ⟨inner, stack, above⟩ := opened_of_stillOpen opens before
      cases inner with
      | nil =>
        rw [cons_append, StillOpen, Story.opened, report, stack] at isOpen
        exact absurd (StillOpen.lt isOpen) (Nat.lt_irrefl _)
      | cons entry =>
        have other : entry.2 ≠ earlier.begun := Nat.ne_of_gt (above entry mem_cons_self)
        rw [revise, tracks.opened, stack, openStep, openStep, pinsOf, pinsOf, resolved, report]
        exact if_neg fun isFirst => other (Option.some.inj isFirst)
    | supply node =>
      rw [revise, tracks.opened, find?_map, Option.map_map, openStep, openStep, pinsOf, pinsOf,
        resolved, report]
      show (if innermost? node (inside ++ start :: earlier) = some earlier.begun then _ else _) = _
      simp only
      split
      · rw [foldr_cons, ← withPin_withPins (bare_of_opening opens most), most_hear]
      · rfl
    | _ =>
      rw [openStep, openStep, pinsOf, pinsOf, resolved, report]
      rfl

/-- A step that has ended holds what its node was given and resolved, and what it gave. -/
theorem hear_closed (opens : start.report = .opening heading given) {ending : Moment}
    {other : Heading} {gives : Value} {fault : Option Fault}
    (closes : ending.report = .closing other gives fault)
    (isInnermost : Story.opened (inside ++ start :: earlier) =
      (heading, earlier.begun) :: earlier.opened) (after : Story) :
    (hear { most } (after ++ ending :: (inside ++ start :: earlier))).steps[earlier.begun]? =
      some (closedStep most heading given earlier.begun
        (after ++ ending :: (inside ++ start :: earlier)) gives fault) := by
  have isOpen : StillOpen earlier.begun (inside ++ start :: earlier) := by
    rw [StillOpen, isInnermost]
    exact mem_cons_self
  have ended := ended_of_closing closes isInnermost
  have same : openStep most heading given earlier.begun
      (after ++ ending :: (inside ++ start :: earlier)) =
        openStep most heading given earlier.begun (inside ++ start :: earlier) := by
    rw [openStep, openStep, pinsOf, pinsOf, resolved_append ended, resolved, closes]
  have tracks := tracks_hear most (inside ++ start :: earlier)
  rw [hear_untouched ended, hear_cons, getElem?_heed (hear_open opens isOpen), closes,
    closedStep, same, revise, tracks.opened, isInnermost, most_hear]
  exact congrArg some (if_pos rfl)

def edgeStep (most : Nat) (source target : PinRef) (number : Nat) : Step where
  sequence := number
  node := source.node
  kind := .traversal
  pin := some source.pin
  inputs := Value.null.bounded most
  outputs := (Value.object [("target", .str target.text)]).bounded most

/-- A step that is over as soon as it has begun holds the edge that was followed. -/
theorem hear_edge {source target : PinRef} (follows : moment.report = .edge source target)
    (later : Story) :
    (hear { most } (later ++ moment :: earlier)).steps[earlier.begun]? =
      some (edgeStep most source target earlier.begun) := by
  have tracks := tracks_hear most earlier
  rw [hear_untouched (ended_of_edge follows), hear_cons, ← tracks.size, getElem?_heed_size, follows, fresh?,
    tracks.size, most_hear]
  rfl

/-- A step holds the last value of each pin. -/
theorem get?_pinsOf (most number : Nat) (story : Story) (pin : String) :
    (pinsOf most number story).get? pin =
      ((story.resolved number).find? fun entry => entry.1 == pin).map
        fun entry => entry.2.bounded most := by
  rw [pinsOf]
  induction story.resolved number with
  | nil => rfl
  | cons entry older ih =>
    rw [foldr_cons, find?_cons]
    by_cases same : entry.1 = pin
    · rw [same, Fields.get?_insert_self, beq_self_eq_true]
      rfl
    · rw [Fields.get?_insert_of_ne _ _ same, ih, beq_eq_false_iff_ne.mpr same]

end contents

/-- What the end of a recording makes of a step: if no step has an error, the last one gets
the error of a run that failed. -/
def blame (recorder : Recorder) (fault : Option Fault) (number : Nat) (step : Step) : Step :=
  match fault with
  | none => step
  | some fault =>
    if recorder.steps.any fun step => step.error.isSome then step
    else if number + 1 = recorder.steps.size then { step with error := some fault.message }
    else step

theorem getElem?_finalize (recorder : Recorder) (head : Trace) (now : Instant)
    (fault : Option Fault) (i : Nat) :
    (recorder.finalize head now fault).steps[i]? =
      recorder.steps[i]?.map (recorder.blame fault i) := by
  cases fault with
  | none => exact Array.getElem?_toList.trans Option.map_id'.symm
  | some =>
    simp only [finalize]
    rw [Array.getElem?_toList]
    cases holds : recorder.steps[i]? with
    | none =>
      split
      · exact holds
      · rw [markLast, Array.getElem?_modify, holds]
        exact ite_self _
    | some =>
      have isLast : recorder.steps.size - 1 = i ↔ i + 1 = recorder.steps.size := by
        have has := lt_size holds
        omega
      simp only [blame, Option.map_some]
      split
      · exact holds
      · rw [markLast, Array.getElem?_modify, holds]
        simp only [isLast]
        split <;> rfl

/-- The end of a recording changes nothing of a step but its error. -/
theorem blame_eq (recorder : Recorder) (fault : Option Fault) (number : Nat) (step : Step) :
    recorder.blame fault number step =
      { step with error := (recorder.blame fault number step).error } := by
  cases fault with
  | none => rfl
  | some =>
    rw [blame]
    split
    · rfl
    · split <;> rfl

theorem notes_finalize (recorder : Recorder) (head : Trace) (now : Instant)
    (fault : Option Fault) :
    (recorder.finalize head now fault).notes = recorder.notesRev.reverse := by
  cases fault <;> rfl

end Recorder

end Pinflow
