import Pinflow.Proofs.Walk.Order

/-!
# Executors keep the order

What the executors of the built-in kinds need of the server that answers their calls, and
what they give in return: when an executor ends, announcing its end is allowed. The loops
are shown to do so by induction on what is left of them.
-/

namespace Pinflow.Walk

open Kinds

variable {pin : String} {kind : Kind} {c : Call} {circuit : Circuit} {outer : List Frame}
  {past : Past} {live : Prop} {inner : Server} {walker : Walker}

/-- Nothing is due, and exactly these frames are open. -/
structure Calm (circuit : Circuit) (stack : List Frame) (past : Past) : Prop where
  idle : Idle circuit (happenings past)
  frames : frames (happenings past) = stack

/-- When a call may be put. Only a loop calls while something is due: it follows
`completed` after a break. -/
def Ready (circuit : Circuit) (live : Prop) (past : List Happening) : Call → Prop
  | .traverse node pin =>
    (Idle circuit past ∨ live ∧ due circuit past = some (.traversing ⟨node, pin⟩)) ∧
      Lawful circuit past (.traversing ⟨node, pin⟩)
  | .store node values => Idle circuit past ∧ Lawful circuit past (.stored node values)
  | .reenter loop pin => Idle circuit past ∧ Lawful circuit past (.reentered loop pin)
  | .refresh loop pin => Idle circuit past ∧ Lawful circuit past (.refreshed loop pin)
  | _ => Idle circuit past

/-- What is known once a call has been answered. -/
def Settled (circuit : Circuit) (past after : List Happening) : (c : Call) → c.Answer → Prop
  | .input _ _, result | .resolve _ _ _, result | .output _, result =>
    (Idle circuit after ∧ frames after = frames past) ∧ Unbroken result
  | .traverse node pin, result =>
    (∃ earlier, after = .traversed ⟨node, pin⟩ result :: earlier) ∧
      frames after = frames past ∧ Unbroken result
  | .run _, result => Returned circuit result after ∧ frames after = frames past ∧ Unbroken result
  | .reenter loop pin, _ => after = .reentered loop pin :: past
  | _, _ => Idle circuit after ∧ frames after = frames past

def Orderly (circuit : Circuit) (live : Prop) (inner : Server) : Prop :=
  ∀ c walker past, Ready circuit live (happenings past) c →
    WP (orderRule circuit) (inner c) (fun answer _ after =>
      live ∧ Settled circuit (happenings past) (happenings after) c answer) walker past

structure Ends (circuit : Circuit) (node : String) (stack : List Frame)
    (result : Except Fault Flow) (past : Past) : Prop where
  allowed : Allowed circuit (happenings past) (some (.executed node result))
  frames : frames (happenings past) = stack
  unbroken : Unbroken result
  next : ∀ pin, result = .ok (.next pin) → ¬ IsLoopPin pin

/-- Running a routine in place of an executor keeps the order. -/
def Verified (circuit : Circuit) (inner : Server) (node : String) (outer : List Frame)
    (routine : Routine Flow) (walker : Walker) (past : Past) : Prop :=
  WP (orderRule circuit) (perform inner (ExceptT.run routine))
    (fun result _ => Ends circuit node (.node node :: outer) result) walker past

section ends

variable {node : String}

section

variable (calm : Calm circuit (.node node :: outer) past)
include calm

/-- An executor that ends calmly may end with anything but a break. -/
theorem Calm.ends {result : Except Fault Flow} (quiet : carried (.executed node result) = none)
    (unbroken : Unbroken result) (next : ∀ pin, result = .ok (.next pin) → ¬ IsLoopPin pin) :
    Ends circuit node (.node node :: outer) result past := by
  refine ⟨calm.idle.allowed_of_lawful ⟨?_, ?_, ?_⟩, calm.frames, unbroken, next⟩
  · rw [calm.frames]
    rfl
  · rintro rfl
    cases quiet
  · rintro origin rfl
    cases quiet

theorem Calm.ends_error {fault : Fault} (known : Unbroken (.error fault : Except Fault Flow)) :
    Ends circuit node (.node node :: outer) (.error fault) past :=
  calm.ends rfl known (by simp)

theorem Calm.ends_next (other : ¬ IsLoopPin pin) :
    Ends circuit node (.node node :: outer) (.ok (.next pin)) past := by
  refine calm.ends rfl (.ok _) fun _ same => ?_
  cases same
  exact other

end

end ends

/-- Calls that open no frame and put nothing into the memo. -/
def Undemanding : Call → Prop
  | .context | .about | .assign _ _ | .persist _ | .log _ | .note _ _ | .act _ _ => True
  | _ => False

section routines

variable {α : Type} {node : String} {stack : List Frame} (orderly : Orderly circuit live inner)
include orderly

theorem Orderly.input (pin : String) (calm : Calm circuit stack past) :
    WP (orderRule circuit) (inner (.input node pin))
      (fun result _ after => Calm circuit stack after ∧ Unbroken result) walker past := by
  refine (orderly (.input node pin) walker past calm.idle).mono ?_
  rintro result _ after ⟨-, ⟨idle, same⟩, known⟩
  exact ⟨⟨idle, same.trans calm.frames⟩, known⟩

theorem Orderly.plain (plain : Undemanding c) (calm : Calm circuit stack past) :
    WP (orderRule circuit) (inner c) (fun _ _ after => Calm circuit stack after) walker past := by
  have settled : ∀ answer after, Settled circuit (happenings past) (happenings after) c answer →
      Calm circuit stack after := by
    intro answer after settled
    cases c <;> first
      | exact ⟨settled.1, settled.2.trans calm.frames⟩
      | exact plain.elim
  have ready : Ready circuit live (happenings past) c := by
    cases c <;> first
      | exact calm.idle
      | exact plain.elim
  exact (orderly c walker past ready).mono fun answer _ after known => settled answer after known.2

theorem verified_input {f : Value → Routine Flow} (calm : Calm circuit (.node node :: outer) past)
    (rest : ∀ value walker past, Calm circuit (.node node :: outer) past →
      Verified circuit inner node outer (f value) walker past) :
    Verified circuit inner node outer (Routine.input node pin >>= f) walker past := by
  refine WP.routine_bind_iff.mpr (WP.perform_call_iff.mpr ?_)
  refine (orderly.input pin calm).mono fun result walker past known => ?_
  cases result with
  | error => exact known.1.ends_error known.2.error_of
  | ok value => exact rest value walker past known.1

theorem verified_call (plain : Undemanding c) {f : c.Answer → Routine Flow}
    (calm : Calm circuit (.node node :: outer) past)
    (rest : ∀ answer walker past, Calm circuit (.node node :: outer) past →
      Verified circuit inner node outer (f answer) walker past) :
    Verified circuit inner node outer (ExceptT.lift (Script.call c) >>= f) walker past := by
  refine WP.routine_bind_iff.mpr (WP.routine_lift_iff.mpr (WP.perform_call_iff.mpr ?_))
  exact (orderly.plain plain calm).mono rest

omit orderly in
theorem verified_lift {x : Except Fault α} {f : α → Routine Flow} (known : Unbroken x)
    (calm : Calm circuit (.node node :: outer) past)
    (rest : ∀ a, Verified circuit inner node outer (f a) walker past) :
    Verified circuit inner node outer (liftM x >>= f) walker past := by
  refine WP.routine_bind_iff.mpr (WP.routine_liftExcept_iff.mpr ?_)
  cases x with
  | error => exact calm.ends_error known.error_of
  | ok a => exact rest a

omit orderly in
/-- A routine whose signal is handed on. -/
theorem verified_forward {x : Routine Signal}
    (ends : WP (orderRule circuit) (perform inner (ExceptT.run x)) (fun result _ =>
      Ends circuit node (.node node :: outer) (result.map .forward)) walker past) :
    Verified circuit inner node outer (x >>= fun signal => pure (.forward signal)) walker past := by
  refine WP.routine_bind_iff.mpr (ends.mono fun result walker past known => ?_)
  cases result <;> exact known

omit orderly in
theorem ends_of_returned {result : Except Fault Signal}
    (returned : Returned circuit result (happenings past)) (unbroken : Unbroken result)
    (same : frames (happenings past) = .node node :: outer) :
    Ends circuit node (.node node :: outer) (result.map .forward) past := by
  rcases result with fault | signal
  · exact Calm.ends_error ⟨returned, same⟩ unbroken.error_of
  · cases signal with
    | done => exact Calm.ends ⟨returned, same⟩ rfl (.ok _) fun _ eq => by cases eq
    | broken origin =>
      obtain ⟨isPending, isDue⟩ := returned
      have handed : due circuit (happenings past) =
          some (.executed node (.ok (.forward (.broken origin)))) := by
        rw [isDue, handedOn, isPending, same]
        rfl
      refine ⟨.of_due handed ⟨?_, ?_, ?_⟩, same, .ok _, fun _ eq => by cases eq⟩
      · rw [same]
        rfl
      · intro eq
        cases eq
      · rintro other eq
        cases eq
        exact isPending

omit orderly in
theorem not_isLoopPin_sequencePin (i : Nat) : ¬ IsLoopPin (sequencePin i) := by
  have first : (sequencePin i).toList.head? = some 't' := by
    rw [sequencePin, String.toList_append]
    rfl
  rintro (same | same)
  · rw [same] at first
    revert first
    decide
  · rw [same] at first
    revert first
    decide

theorem followAll_ends (list : List Nat) (calm : Calm circuit (.node node :: outer) past) :
    WP (orderRule circuit) (perform inner (ExceptT.run (followAll node list)))
      (fun result _ => Ends circuit node (.node node :: outer) (result.map .forward))
      walker past := by
  induction list generalizing walker past with
  | nil =>
    have done : Returned circuit (.ok .done) (happenings past) := calm.idle
    exact ends_of_returned done (.ok _) calm.frames
  | cons i list ih =>
    refine WP.routine_bind_iff.mpr (WP.perform_call_iff.mpr ?_)
    have other := not_isLoopPin_sequencePin i
    refine (orderly (.traverse node (sequencePin i)) walker past
      ⟨.inl calm.idle, fun isLoop => absurd isLoop other⟩).mono ?_
    rintro result walker after ⟨-, ⟨earlier, last⟩, same, unbroken⟩
    have same := same.trans calm.frames
    have returned : Returned circuit result (happenings after) := by
      rw [last]
      exact returned_of_traversed other
    rcases result with fault | signal
    · exact ends_of_returned returned unbroken same
    · cases signal with
      | done => exact ih ⟨returned, same⟩
      | broken => exact ends_of_returned returned unbroken same

end routines

/-- What is known when a loop is through with its body. After a break, `completed` is
due. -/
def BodyEnded (circuit : Circuit) (live : Prop) (node : String) (outer : List Frame)
    (result : Except Fault Unit) (past : Past) : Prop :=
  frames (happenings past) = .node node :: outer ∧
    match result with
    | .ok () => Idle circuit (happenings past) ∨
        live ∧ due circuit (happenings past) = some (.traversing ⟨node, Loop.completedPin⟩)
    | .error _ => Idle circuit (happenings past) ∧ Unbroken result

section loops

variable {node : String} (orderly : Orderly circuit live inner)
  (isLoop : circuit.isOf loops node = true)
include orderly isLoop

/-- One round of a loop: its outputs are written right after the body is started again,
and a break ends the loop. -/
theorem round_ends {values : List (String × Value)} {rest : Routine Unit}
    (distinct : (values.map Prod.fst).Nodup) (calm : Calm circuit (.node node :: outer) past)
    (next : ∀ walker past, Calm circuit (.node node :: outer) past →
      WP (orderRule circuit) (perform inner (ExceptT.run rest))
        (fun result _ => BodyEnded circuit live node outer result) walker past) :
    WP (orderRule circuit) (perform inner (ExceptT.run (do
        Routine.reenter node Loop.bodyPin
        Routine.store node values
        let signal ← Routine.traverse node Loop.bodyPin
        if signal.isBreak then return
        rest)))
      (fun result _ => BodyEnded circuit live node outer result) walker past := by
  refine WP.routine_bind_iff.mpr (WP.routine_lift_iff.mpr (WP.perform_call_iff.mpr ?_))
  refine (orderly (.reenter node Loop.bodyPin) walker past ⟨calm.idle, isLoop, rfl⟩).mono ?_
  rintro ⟨⟩ walker reentered ⟨-, last⟩
  have idle : Idle circuit (happenings reentered) := by
    rw [last]
    exact .cons_of_plain trivial
  have same : frames (happenings reentered) = .node node :: outer := by
    rw [last]
    exact calm.frames
  refine WP.routine_bind_iff.mpr (WP.routine_lift_iff.mpr (WP.perform_call_iff.mpr ?_))
  refine (orderly (.store node values) walker reentered
    ⟨idle, distinct, .inl ⟨isLoop, by rw [last]; rfl⟩⟩).mono ?_
  rintro ⟨⟩ walker stored ⟨-, idle, unchanged⟩
  have same := unchanged.trans same
  refine WP.routine_bind_iff.mpr (WP.perform_call_iff.mpr ?_)
  refine (orderly (.traverse node Loop.bodyPin) walker stored
    ⟨.inl idle, fun _ => ⟨isLoop, by rw [same]; rfl⟩⟩).mono ?_
  rintro result walker after ⟨isLive, ⟨earlier, last⟩, unchanged, unbroken⟩
  have same := unchanged.trans same
  rcases result with fault | signal
  · refine ⟨same, ?_, unbroken.error_of⟩
    rw [last]
    exact idle_of_body nofun
  · cases signal with
    | done =>
      refine next walker after ⟨?_, same⟩
      rw [last]
      exact idle_of_body nofun
    | broken =>
      refine ⟨same, .inr ⟨isLive, ?_⟩⟩
      rw [last]
      exact due_of_body

theorem eachFrom_ends (index : Nat) (items : List Value)
    (calm : Calm circuit (.node node :: outer) past) :
    WP (orderRule circuit) (perform inner (ExceptT.run (Loop.eachFrom node index items)))
      (fun result _ => BodyEnded circuit live node outer result) walker past := by
  induction items generalizing index walker past with
  | nil => exact ⟨calm.frames, .inl calm.idle⟩
  | cons item items ih =>
    exact round_ends orderly isLoop (by simp) calm fun walker past calm => ih (index + 1) calm

theorem whileFrom_ends (ceiling left : Nat) (calm : Calm circuit (.node node :: outer) past) :
    WP (orderRule circuit) (perform inner (ExceptT.run (Loop.whileFrom node ceiling left)))
      (fun result _ => BodyEnded circuit live node outer result) walker past := by
  induction left generalizing walker past with
  | zero =>
    refine WP.routine_lift_iff.mpr (WP.perform_call_iff.mpr ?_)
    refine (orderly.plain (c := .note node _) trivial calm).mono fun _ _ _ calm => ?_
    exact ⟨calm.frames, .inl calm.idle⟩
  | succ left ih =>
    refine WP.routine_bind_iff.mpr (WP.routine_lift_iff.mpr (WP.perform_call_iff.mpr ?_))
    refine (orderly (.refresh node Loop.bodyPin) walker past ⟨calm.idle, isLoop, rfl⟩).mono ?_
    rintro ⟨⟩ walker refreshed ⟨-, idle, same⟩
    refine WP.routine_bind_iff.mpr (WP.perform_call_iff.mpr ?_)
    refine (orderly.input "condition" ⟨idle, same.trans calm.frames⟩).mono ?_
    rintro result walker past ⟨calm, unbroken⟩
    rcases result with fault | condition
    · exact ⟨calm.frames, calm.idle, unbroken.error_of⟩
    · simp only
      split
      · exact round_ends orderly isLoop (by simp) calm fun walker past calm => ih calm
      · exact ⟨calm.frames, .inl calm.idle⟩

/-- The loop ends with what comes back from `completed`. -/
theorem completed_ends (ended : BodyEnded circuit live node outer (.ok ()) past) :
    WP (orderRule circuit)
      (perform inner (ExceptT.run (Routine.traverse node Loop.completedPin)))
      (fun result _ => Ends circuit node (.node node :: outer) (result.map .forward))
      walker past := by
  refine WP.perform_call_iff.mpr ?_
  refine (orderly (.traverse node Loop.completedPin) walker past
    ⟨ended.2, fun _ => ⟨isLoop, by rw [ended.1]; rfl⟩⟩).mono ?_
  rintro result walker after ⟨-, ⟨earlier, last⟩, unchanged, unbroken⟩
  have same := unchanged.trans ended.1
  have isDue : due circuit (happenings after) = some (.executed node (result.map .forward)) := by
    rw [last]
    exact due_of_completed
  have lawful : Lawful circuit (happenings after) (.executed node (result.map .forward)) := by
    refine ⟨by rw [same]; rfl, ?_, ?_⟩
    · intro eq
      rcases result with _ | _ <;> cases eq
    · intro origin eq
      rw [last]
      rcases result with fault | signal
      · cases eq
      · cases eq
        rfl
  refine ⟨.of_due isDue lawful, same, ?_, ?_⟩
  · rcases result with fault | signal
    · exact unbroken.error_of
    · exact .ok _
  · intro pin eq
    rcases result with _ | _ <;> cases eq

/-- A loop follows `completed` once it is through with its body. -/
theorem loop_ends {body : Routine Unit}
    (through : WP (orderRule circuit) (perform inner (ExceptT.run body))
      (fun result _ => BodyEnded circuit live node outer result) walker past) :
    Verified circuit inner node outer (do
      let signal ← (do
        body
        Routine.traverse node Loop.completedPin)
      return .forward signal) walker past := by
  refine verified_forward (WP.routine_bind_iff.mpr ?_)
  refine through.mono fun result walker past ended => ?_
  rcases result with fault | ⟨⟩
  · exact Calm.ends_error ⟨ended.2.1, ended.1⟩ ended.2.2.error_of
  · exact completed_ends orderly isLoop ended

end loops

section kinds

variable {node : Node}
theorem verified_next (calm : Calm circuit (.node node.id :: outer) past)
    (other : ¬ IsLoopPin pin) :
    Verified circuit inner node.id outer (pure (.next pin)) walker past := calm.ends_next other

theorem verified_fail {cause : Mishap} (calm : Calm circuit (.node node.id :: outer) past) :
    Verified circuit inner node.id outer (.fail node.id cause) walker past :=
  calm.ends_error nofun

variable (orderly : Orderly circuit live inner)
include orderly

theorem verified_onEvent (calm : Calm circuit (.node node.id :: outer) past) :
    Verified circuit inner node.id outer (onEvent.execute node) walker past := by
  simp only [onEvent]
  split
  · exact verified_next calm (by decide)
  · refine verified_call orderly (c := .context) trivial calm fun context walker past calm => ?_
    split
    · exact verified_next calm (by decide)
    · exact calm.ends rfl (.ok _) (by simp)

theorem verified_passing (passes : kind ∈ passing)
    (calm : Calm circuit (.node node.id :: outer) past) :
    Verified circuit inner node.id outer (kind.execute node) walker past := by
  simp only [passing, List.mem_cons, List.not_mem_nil, or_false] at passes
  rcases passes with rfl | rfl | rfl | rfl | rfl
  · refine verified_input orderly calm fun condition walker past calm => ?_
    refine verified_next calm ?_
    split <;> decide
  · refine verified_lift (failsByWiring_sequenceCount _).unbroken calm fun count => ?_
    exact verified_forward (followAll_ends orderly (List.range count) calm)
  · refine verified_lift (failsByWiring_requiredName _ _ _).unbroken calm fun name => ?_
    refine verified_input orderly calm fun value walker past calm => ?_
    refine verified_call orderly (c := .assign _ _) trivial calm fun _ walker past calm => ?_
    exact verified_next calm (by decide)
  · refine verified_lift (failsByWiring_requiredName _ _ _).unbroken calm fun name => ?_
    refine verified_input orderly calm fun value walker past calm => ?_
    refine verified_call orderly (c := .persist _) trivial calm fun _ walker past calm => ?_
    exact verified_next calm (by decide)
  · refine verified_input orderly calm fun message walker past calm => ?_
    refine verified_call orderly (c := .log _) trivial calm fun _ walker past calm => ?_
    exact verified_next calm (by decide)

theorem verified_agentAction (isAction : circuit.isOf actions node.id = true)
    (calm : Calm circuit (.node node.id :: outer) past) :
    Verified circuit inner node.id outer (agentAction.execute node) walker past := by
  have stores : ∀ {result error : Value} {pin : String} {walker : Walker} {past : Past},
      ¬ IsLoopPin pin → Calm circuit (.node node.id :: outer) past →
      Verified circuit inner node.id outer (do
        Routine.store node.id [("result", result), ("error", error)]
        return .next pin) walker past := by
    intro result error pin walker past other calm
    refine WP.routine_bind_iff.mpr (WP.routine_lift_iff.mpr (WP.perform_call_iff.mpr ?_))
    refine (orderly (.store node.id [("result", result), ("error", error)]) walker past
      ⟨calm.idle, by simp, .inr isAction⟩).mono ?_
    rintro ⟨⟩ walker after ⟨-, idle, same⟩
    exact verified_next ⟨idle, same.trans calm.frames⟩ other
  refine verified_input orderly calm fun name walker past calm => ?_
  split
  · refine verified_input orderly calm fun payload walker past calm => ?_
    refine verified_call orderly (c := .act _ _) trivial calm fun answer walker past calm => ?_
    rcases answer with fault | result
    · exact stores (by decide) calm
    · exact stores (by decide) calm
  · exact verified_fail calm

theorem verified_loop (loop : kind ∈ loops)
    (isLoop : circuit.isOf loops node.id = true)
    (calm : Calm circuit (.node node.id :: outer) past) :
    Verified circuit inner node.id outer (kind.execute node) walker past := by
  simp only [loops, List.mem_cons, List.not_mem_nil, or_false] at loop
  rcases loop with rfl | rfl
  · refine verified_input orderly calm fun array walker past calm => ?_
    split
    · exact loop_ends orderly isLoop (eachFrom_ends orderly isLoop 0 _ calm)
    · exact loop_ends orderly isLoop (eachFrom_ends orderly isLoop 0 [] calm)
    · exact calm.ends_error (by simp [Unbroken])
  · refine verified_call orderly (c := .about) trivial calm fun about walker past calm => ?_
    exact loop_ends orderly isLoop (whileFrom_ends orderly isLoop _ _ calm)

omit orderly in
/-- A break node does nothing before it breaks. -/
theorem verified_breakLoop (isBreak : circuit.isOf Kinds.breaks node.id = true)
    {earlier : List Happening} (last : happenings past = .executing node.id :: earlier)
    (same : frames earlier = outer) :
    Verified circuit inner node.id outer (breakLoop.execute node) walker past := by
  have same : frames (happenings past) = .node node.id :: outer := by
    rw [last, ← same]
    rfl
  have isDue : due circuit (happenings past) = some (.executed node.id (.ok .break)) := by
    rw [last]
    simp [due, isBreak]
  refine ⟨.of_due isDue ⟨?_, fun _ => ⟨isBreak, by rw [last]; rfl⟩, ?_⟩, same, .ok _, ?_⟩
  · rw [same]
    rfl
  · intro origin eq
    cases eq
  · intro pin eq
    cases eq

/-- Every built-in executor keeps the order. -/
theorem verified_of_builtin {part : Part} (found : circuit.part? part.node.id = some part)
    (known : part.kind ∈ Kinds.builtin) {earlier : List Happening}
    (last : happenings past = .executing part.node.id :: earlier) (same : frames earlier = outer) :
    Verified circuit inner part.node.id outer (part.kind.execute part.node) walker past := by
  have isOf : ∀ kinds : List Kind, part.kind ∈ kinds → circuit.isOf kinds part.node.id = true :=
    fun kinds member => Circuit.isOf_iff.mpr ⟨part, found, List.mem_map_of_mem member⟩
  have calm : circuit.isOf Kinds.breaks part.node.id = false →
      Calm circuit (.node part.node.id :: outer) past := by
    intro other
    constructor
    · rw [last]
      exact ⟨by simp [due, other], rfl⟩
    · rw [last, ← same]
      rfl
  rcases Kinds.class_of_builtin known with data | loop | action | breaking | passes
  · have calm := calm (Circuit.isOf_eq_false (by decide) (isOf _ data))
    simp only [Kinds.data, List.mem_cons, List.not_mem_nil, or_false] at data
    rcases data with kind | kind | kind | kind | kind | kind
    · rw [kind]
      exact verified_onEvent orderly calm
    all_goals
      rw [kind]
      exact verified_fail calm
  · have calm := calm (Circuit.isOf_eq_false (by decide) (isOf _ loop))
    exact verified_loop orderly loop (isOf _ loop) calm
  · have calm := calm (Circuit.isOf_eq_false (by decide) (isOf _ action))
    rw [List.mem_singleton.mp action]
    exact verified_agentAction orderly (isOf _ action) calm
  · rw [List.mem_singleton.mp breaking]
    exact verified_breakLoop (isOf _ breaking) last same
  · have calm := calm (Circuit.isOf_eq_false (by decide) (isOf _ passes))
    exact verified_passing orderly passes calm

end kinds

end Pinflow.Walk
