import Pinflow.Proofs.Walk.Executors

/-!
# Every walk keeps the order

Each operation of a walk over built-in kinds keeps the order if the server below it does.
By induction on the depth so does every server, and `order_of_course` says it of every
course that a walk can take.
-/

namespace Pinflow.Walk

variable {node : String} {part : Part} {α : Type} {q : Query} {stack : List Frame} {walker : Walker}
  {past : Past}

section calm

variable {circuit : Circuit}

section

variable (calm : Calm circuit stack past)
include calm

theorem Calm.rule_of_silent (silent : happening? q = none) : orderRule circuit q past := by
  rw [orderRule, silent]
  exact calm.idle.allowed_none

/-- A question that announces nothing changes nothing here. -/
theorem Calm.silent {answer : q.Answer} (silent : happening? q = none) :
    Calm circuit stack (⟨q, answer⟩ :: past) := by
  have same := happenings_cons_of_silent answer past silent
  exact ⟨by rw [same]; exact calm.idle, by rw [same]; exact calm.frames⟩

theorem Calm.announces (happening : Happening) (plain : Plain happening)
    (lawful : Lawful circuit (happenings past) happening) :
    orderRule circuit (.announce ⟨happening, walker⟩) past ∧
      Calm circuit stack (Walk.told happening walker :: past) :=
  ⟨calm.idle.allowed_of_lawful lawful, .cons_of_plain plain,
    (frames_cons_of_plain plain).trans calm.frames⟩

end

/-- An evaluator keeps calm if the inputs it pulls do. -/
theorem perform_of_reads {volatile : Bool} {inner : Server} {live : Prop}
    (orderly : Orderly circuit live inner) {script : Script (Except Fault α)}
    (reads : Reads volatile node script) (calm : Calm circuit stack past) :
    WP (orderRule circuit) (perform inner script)
      (fun result _ after => Calm circuit stack after ∧ Unbroken result) walker past := by
  induction reads generalizing walker past with
  | done known => exact ⟨calm, known⟩
  | context _ _ ih =>
    refine WP.perform_ask_iff.mpr ?_
    exact (orderly.plain (c := .context) trivial calm).mono fun context _ _ calm => ih context calm
  | input faults _ ih =>
    refine WP.perform_ask_iff.mpr ?_
    refine (orderly.input _ calm).mono fun result walker past known => ?_
    cases result with
    | error =>
      rw [faults]
      exact ⟨known.1, known.2.error_of⟩
    | ok value => exact ih value known.1

end calm

section operations

variable {setting : Setting} {live : Prop} {inner : Server}

theorem assign_calm (path : String) (value : Value) (calm : Calm setting.circuit stack past) :
    WP (orderRule setting.circuit) (assign setting path value)
      (fun _ _ after => Calm setting.circuit stack after) walker past :=
  WP.change_iff.mpr (calm.announces (.assigned path value) trivial trivial)

/-- What is known when control has come back to frames that were open before. -/
def Back (circuit : Circuit) (stack : List Frame) (result : Except Fault Signal) (past : Past) :
    Prop :=
  Returned circuit result (happenings past) ∧ frames (happenings past) = stack ∧ Unbroken result

/-- What is known of a fault that leaves a walk calm. -/
abbrev CalmFault (circuit : Circuit) (stack : List Frame) (fault : Fault) (_ : Walker) :
    Past → Prop := Back circuit stack (.error fault)

theorem Calm.back {circuit : Circuit} {fault : Fault} (calm : Calm circuit stack past)
    (known : Unbroken (.error fault : Except Fault α)) : Back circuit stack (.error fault) past :=
  ⟨calm.idle, calm.frames, known.error_of⟩

theorem upheld_calm {circuit : Circuit} {result : Except Fault α} :
    Upheld (fun _ => Calm circuit stack) (CalmFault circuit stack) result walker past ↔
      Calm circuit stack past ∧ Unbroken result := by
  cases result with
  | ok a => exact ⟨fun calm => ⟨calm, .ok a⟩, fun known => known.1⟩
  | error =>
    exact ⟨fun ⟨idle, same, known⟩ => ⟨⟨idle, same⟩, known.error_of⟩,
      fun known => known.1.back known.2⟩

theorem looks_calm (calm : Calm setting.circuit stack past) :
    Looks (orderRule setting.circuit) setting (fun _ => Calm setting.circuit stack)
      (CalmFault setting.circuit stack) walker past :=
  ⟨calm.rule_of_silent rfl, (calm.silent rfl).back (α := Unit) (by rintro _ ⟨⟩), calm.silent rfl⟩

theorem checkpoint_calm (node : String) (calm : Calm setting.circuit stack past) :
    WP (orderRule setting.circuit) (ExceptT.run (checkpoint setting node))
      (Upheld (fun _ => Calm setting.circuit stack) (CalmFault setting.circuit stack))
      walker past :=
  checkpoint_upheld
    (fun pausing calm => ⟨calm.rule_of_silent pausing.silent, fun _ => calm.silent pausing.silent⟩)
    (fun _ _ _ calm => calm) (fun path value _ _ calm => assign_calm path value calm)
    (fun _ _ _ calm => calm.back (α := Unit) (by rintro _ ⟨⟩)) calm

variable (wired : Circuit.Wired Registry.builtin setting.circuit)
  (orderly : Orderly setting.circuit live inner)
include wired orderly

theorem compute_calm {source : PinRef} (found : setting.circuit.part source.node = .ok part)
    (calm : Calm setting.circuit stack past) :
    WP (orderRule setting.circuit) (ExceptT.run (compute inner source part))
      (fun result _ after => Calm setting.circuit stack after ∧ Unbroken result) walker past := by
  obtain ⟨starts, calm⟩ := calm.announces (.evaluating source part.node.config) trivial
    trivial
  refine WP.compute_iff.mpr ⟨starts, ?_⟩
  have known := wired.kind_mem (Circuit.part_eq_ok_iff.mp found)
  have reads := Kinds.reads_of_builtin known part.node source.pin
  refine (perform_of_reads orderly reads calm).mono ?_
  rintro result walker past ⟨calm, unbroken⟩
  obtain ⟨ends, calm⟩ := calm.announces (.evaluated source result) trivial trivial
  refine ⟨ends, ?_⟩
  cases result <;> exact ⟨calm, unbroken⟩

theorem pulls_calm : Pulls (orderRule setting.circuit) setting inner
    (fun _ => Calm setting.circuit stack) (CalmFault setting.circuit stack) where
  counted _ _ _ calm := calm
  looks := looks_calm
  compute found _ _ calm :=
    (compute_calm wired orderly found calm).mono fun _ _ _ => upheld_calm.mpr
  read source result _ _ upheld := by
    obtain ⟨calm, unbroken⟩ := upheld_calm.mp upheld
    obtain ⟨announces, calm⟩ := calm.announces (.read source result) trivial trivial
    exact ⟨announces, upheld_calm.mpr ⟨calm, unbroken⟩⟩
  supplied node pin value _ _ calm := calm.announces (.supplied node pin value) trivial trivial
  raises own calm := by
    refine calm.back (α := Unit) ?_
    rintro origin ⟨⟩
    exact own.elim

theorem execute_back (found : setting.circuit.part node = .ok part)
    (calm : Calm setting.circuit stack past) :
    WP (orderRule setting.circuit) (ExceptT.run (execute inner node part))
      (fun result _ => Back setting.circuit stack result) walker past := by
  have found := Circuit.part_eq_ok_iff.mp found
  obtain rfl := Circuit.id_of_part? found
  refine WP.execute_iff.mpr ⟨calm.idle.allowed_of_lawful trivial, ?_⟩
  have executor : Verified setting.circuit inner part.node.id stack
      (part.kind.execute part.node) walker (told (.executing part.node.id) walker :: past) :=
    verified_of_builtin orderly found (wired.kind_mem found) rfl calm.frames
  refine executor.mono ?_
  rintro result walker past ⟨allowed, same, unbroken, next⟩
  refine ⟨allowed, ?_⟩
  -- The executor's own frame is closed now.
  have same : frames (.executed part.node.id result :: happenings past) = stack := by
    simp only [frames, same, List.tail_cons]
  rcases result with fault | flow
  · exact ⟨idle_of_executed rfl, same, unbroken.error_of⟩
  · cases flow with
    | next pin =>
      have idle : Idle setting.circuit
          (.executed part.node.id (.ok (.next pin)) :: happenings past) :=
        idle_of_executed rfl
      have other := next pin rfl
      simp only
      split
      · refine (orderly (.traverse part.node.id pin) walker
          (told (.executed part.node.id (.ok (.next pin))) walker :: past)
          ⟨.inl idle, fun isLoop => absurd isLoop other⟩).mono ?_
        rintro result walker after ⟨-, ⟨earlier, last⟩, unchanged, unbroken⟩
        refine ⟨?_, unchanged.trans same, unbroken⟩
        rw [last]
        exact returned_of_traversed other
      · exact ⟨idle, same, nofun⟩
    | finish => exact ⟨idle_of_executed rfl, same, .ok _⟩
    | «break» => exact ⟨⟨rfl, rfl⟩, same, .ok _⟩
    | forward signal =>
      cases signal with
      | done => exact ⟨idle_of_executed rfl, same, .ok _⟩
      | broken => exact ⟨⟨rfl, rfl⟩, same, .ok _⟩

theorem run_back (node : String) (calm : Calm setting.circuit stack past) :
    WP (orderRule setting.circuit) (ExceptT.run (run setting inner node))
      (fun result _ => Back setting.circuit stack result) walker past := by
  exact run_of_execute (looks_calm calm)
    (fun missing calm => calm.back (Circuit.unbroken_part (α := Unit) missing))
    (checkpoint_calm node) looks_calm fun found calm => execute_back wired orderly found calm

/-- Control that left by an exec output comes back to it. -/
theorem traverse_back {pin : String}
    (ready : Ready setting.circuit True (happenings past) (.traverse node pin)) :
    WP (orderRule setting.circuit) (ExceptT.run (traverse setting inner node pin))
      (fun result _ after => True ∧
        Settled setting.circuit (happenings past) (happenings after) (.traverse node pin) result)
      walker past := by
  have returns : ∀ result walker after,
      Back setting.circuit (.pin ⟨node, pin⟩ :: frames (happenings past)) result after →
      orderRule setting.circuit (.announce ⟨.traversed ⟨node, pin⟩ result, walker⟩) after ∧
        (True ∧ Settled setting.circuit (happenings past)
          (happenings (told (.traversed ⟨node, pin⟩ result) walker :: after))
          (.traverse node pin) result) := by
    rintro result walker after ⟨returned, same, unbroken⟩
    have closed : (frames (happenings after)).head? = some (.pin ⟨node, pin⟩) := by
      rw [same]
      rfl
    refine ⟨?_, trivial, ⟨_, rfl⟩, ?_, unbroken⟩
    · rcases result with fault | signal
      · exact Idle.allowed_of_lawful returned ⟨closed, nofun⟩
      · cases signal with
        | done => exact Idle.allowed_of_lawful returned ⟨closed, nofun⟩
        | broken =>
          obtain ⟨isPending, isDue⟩ := returned
          refine Allowed.of_due ?_ ⟨closed, fun other eq => ?_⟩
          · rw [isDue, handedOn, isPending, same]
            rfl
          · cases eq
            exact isPending
    · simp only [happenings_told, frames, same, List.tail_cons]
  have starts : orderRule setting.circuit (.announce ⟨.traversing ⟨node, pin⟩, walker⟩) past := by
    rcases ready with ⟨idle | ⟨-, isDue⟩, lawful⟩
    · exact idle.allowed_of_lawful lawful
    · exact .of_due isDue lawful
  have calm : Calm setting.circuit (.pin ⟨node, pin⟩ :: frames (happenings past))
      (told (.traversing ⟨node, pin⟩) walker :: past) := ⟨.traversing _, rfl⟩
  refine WP.traverse_iff.mpr ⟨starts, ?_⟩
  rw [WP.follow_iff]
  cases setting.circuit.execTarget? node pin with
  | none => exact returns (.ok .done) walker _ ⟨calm.idle, calm.frames, .ok _⟩
  | some target =>
    obtain ⟨announces, calm⟩ := calm.announces (.followed ⟨node, pin⟩ target) trivial trivial
    exact ⟨announces, (run_back wired orderly target.node calm).mono returns⟩

theorem answer_orderly : Orderly setting.circuit True (answer setting inner) := by
  intro c walker past ready
  have calm : Idle setting.circuit (happenings past) →
      Calm setting.circuit (frames (happenings past)) past := fun idle => ⟨idle, rfl⟩
  have settled : ∀ {α : Type} (result : Except Fault α) walker after,
      Upheld (fun _ => Calm setting.circuit (frames (happenings past)))
        (CalmFault setting.circuit (frames (happenings past))) result walker after →
      True ∧ (Idle setting.circuit (happenings after) ∧
        frames (happenings after) = frames (happenings past)) ∧ Unbroken result := by
    intro _ result walker after upheld
    obtain ⟨calm, unbroken⟩ := upheld_calm.mp upheld
    exact ⟨trivial, ⟨calm.idle, calm.frames⟩, unbroken⟩
  cases c with
  | input node pin =>
    exact ((pulls_calm wired orderly).supplies.input node pin (calm ready)).mono settled
  | resolve node pin default =>
    exact ((pulls_calm wired orderly).supplies.resolve node pin default (calm ready)).mono settled
  | output source =>
    exact ((pulls_calm wired orderly).supplies.output source (calm ready)).mono settled
  | traverse => exact traverse_back wired orderly ready
  | run node =>
    refine (run_back wired orderly node (calm ready)).mono ?_
    exact fun _ _ _ back => ⟨trivial, back⟩
  | assign path value =>
    refine (assign_calm path value (calm ready)).mono ?_
    exact fun _ _ _ calm => ⟨trivial, calm.idle, calm.frames⟩
  | note node message =>
    obtain ⟨announces, calm⟩ := (calm ready).announces (.noted node message) trivial trivial
    exact WP.announce_iff.mpr ⟨announces, trivial, calm.idle, calm.frames⟩
  | store node values =>
    obtain ⟨announces, calm⟩ := (calm ready.1).announces (.stored node values) trivial ready.2
    exact WP.change_iff.mpr ⟨announces, trivial, calm.idle, calm.frames⟩
  | reenter loop pin =>
    obtain ⟨announces, calm⟩ := (calm ready.1).announces (.reentered loop pin) trivial ready.2
    exact WP.change_iff.mpr ⟨announces, trivial, rfl⟩
  | refresh loop pin =>
    obtain ⟨announces, calm⟩ := (calm ready.1).announces (.refreshed loop pin) trivial ready.2
    exact WP.change_iff.mpr ⟨announces, trivial, calm.idle, calm.frames⟩
  | isCancelled | act | ticket =>
    refine WP.ask_iff.mpr ⟨(calm ready).rule_of_silent rfl, fun _ => ⟨trivial, ?_, ?_⟩⟩
    · exact ((calm ready).silent rfl).idle
    · exact ((calm ready).silent rfl).frames
  | context | memo | about | inSession | persist | log =>
    exact ⟨trivial, ready, rfl⟩

omit wired orderly in
theorem Ready.idle {circuit : Circuit} {past : List Happening} {c : Call}
    (ready : Ready circuit live past c) (dead : ¬ live) : Idle circuit past := by
  cases c with
  | traverse =>
    rcases ready.1 with idle | ⟨isLive, -⟩
    · exact idle
    · exact absurd isLive dead
  | store | reenter | refresh => exact ready.1
  | _ => exact ready

omit orderly in
theorem serve_orderly (depth : Nat) :
    Orderly setting.circuit (0 < depth) (serve setting depth) := by
  induction depth with
  | zero =>
    intro c walker past ready
    exact WP.exhausted_iff.mpr (ready.idle (Nat.lt_irrefl 0)).allowed_none
  | succ depth ih =>
    have live : (0 < depth + 1) = True := eq_true (Nat.succ_pos depth)
    rw [live]
    exact answer_orderly wired ih

end operations

structure Concluded (circuit : Circuit) (result : Except Fault Unit) (past : List Happening) :
    Prop where
  frames : frames past = []
  due : due circuit past = none
  broken : ∀ origin, result = .error (.breakOutsideLoop origin) ↔ pending past = some origin

/-- Every course of a walk over built-in kinds has kept the order, and whatever is left of
the walk will. -/
theorem order_of_course {setting : Setting} (wired : Circuit.Wired Registry.builtin setting.circuit)
    {depth : Nat} {entry : String} {context : Context} {rest : Walk (Except Fault Unit × Walker)}
    (course : (start setting depth entry context).Leads past rest) :
    Dialogue.WP (orderRule setting.circuit)
        (fun result past => Concluded setting.circuit result.1 (happenings past)) rest past ∧
      History.Obeys (orderRule setting.circuit) past := by
  have served := serve_orderly wired depth (.run entry) { context } [] .nil
  have verified : Dialogue.WP (orderRule setting.circuit)
      (fun result past => Concluded setting.circuit result.1 (happenings past))
      (start setting depth entry context) [] := by
    rw [start, Dialogue.WP_bind]
    refine Dialogue.WP.mono served (fun _ _ obeys => obeys) ?_
    rintro ⟨result, walker⟩ past ⟨-, returned, same, unbroken⟩
    rcases result with fault | signal
    · refine ⟨same, returned.due, fun origin => ?_⟩
      have none : pending (happenings past) = none := returned.pending
      rw [none]
      constructor
      · exact fun eq => absurd (by cases eq; rfl) (unbroken origin)
      · simp
    · cases signal with
      | done =>
        refine ⟨same, returned.due, fun origin => ?_⟩
        have none : pending (happenings past) = none := returned.pending
        rw [none]
        simp
      | broken =>
        have nothing : frames (happenings past) = [] := same
        refine ⟨nothing, ?_, fun other => ?_⟩
        · rw [returned.2, handedOn, returned.1, nothing]
          rfl
        · rw [returned.1]
          constructor <;> intro eq <;> cases eq <;> rfl
  have result := verified.leads History.obeys_nil course
  rwa [List.append_nil] at result

/-- Surroundings that let a walk go its way and have the host answer from a list, one
entry per action. -/
def unhindered (answers : List Value) : (q : Query) → Past → Option q.Answer
  | .isCancelled, _ => some false
  | .visit _ _, _ => some none
  | .announce _, _ => some ()
  | .act _ _, past =>
    let acts := past.countP fun exchange => exchange.query matches .act _ _
    answers[acts]?.map .ok
  | _, _ => none

/-- The course of a walk over a graph in such surroundings, followed for some steps. -/
def tour (graph : Graph) (answers : List Value) (steps : Nat) :
    Past × Walk (Except Fault Unit × Walker) :=
  Dialogue.follow (unhindered answers) steps []
    (start (.of (.ofGraph graph) "" "" 10 10) 100 "start" {})

theorem leads_tour (graph : Graph) (answers : List Value) (steps : Nat) :
    (start (.of (.ofGraph graph) "" "" 10 10) 100 "start" {}).Leads (tour graph answers steps).1
      (tour graph answers steps).2 := Dialogue.leads_follow .start

end Pinflow.Walk
