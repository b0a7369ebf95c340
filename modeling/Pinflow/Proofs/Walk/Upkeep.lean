import Pinflow.Proofs.Walk.Memo
import Pinflow.Proofs.Walk.Operations

/-!
# What the operations of a walk keep

An operation puts a few questions, changes the state of the walk a little, and leaves the
rest to the operations it is made of and to the scripts it starts. So a property that its
own questions and changes keep is kept by all of it. `Pulls` and `Supplies` say what that
takes for data, `Follows` for control, and `KeepsCalls` for all calls of a script. A result that
is a fault may come with a property of its own.
-/

namespace Pinflow

variable {node : String} {part : Part} {q : Query} {walker : Walker} {past : Past}

/-- Faults that the operations of a walk raise by themselves. -/
def Fault.Own : Fault → Prop
  | .wiring _ | .evaluation _ _ | .missingInput _ _ | .cycle _ _ => True
  | _ => False

theorem Circuit.own_of_part {circuit : Circuit} {fault : Fault}
    (missing : circuit.part node = .error fault) :
    fault.Own ∧ ∀ node path, fault ≠ .cycle node path := by
  rw [Circuit.part] at missing
  split at missing
  · cases missing
  · cases missing
    exact ⟨trivial, by simp⟩

namespace Walk

/-- A property that holds unless there is a fault, and one for each fault. -/
def Upheld {α : Type} (Inv : Walker → Past → Prop) (Bad : Fault → Walker → Past → Prop) :
    Except Fault α → Walker → Past → Prop
  | .ok _ => Inv
  | .error fault => Bad fault

theorem upheld_const {α : Type} {Inv : Walker → Past → Prop} :
    Upheld (α := α) Inv (fun _ => Inv) = fun _ => Inv := by
  funext result
  cases result <;> rfl

def Looks (rule : Query → Past → Prop) (setting : Setting) (Inv : Walker → Past → Prop)
    (Bad : Fault → Walker → Past → Prop) (walker : Walker) (past : Past) : Prop :=
  rule .isCancelled past ∧
    Bad (.stopped (walker.session.getD setting.invocation)) walker
      (⟨.isCancelled, true⟩ :: past) ∧
    Inv walker (⟨.isCancelled, false⟩ :: past)

def Pausing : Query → Prop
  | .visit _ _ | .openSession | .pause _ _ _ => True
  | _ => False

theorem Pausing.silent (pausing : Pausing q) : happening? q = none := by
  cases q with
  | announce => exact pausing.elim
  | _ => rfl

section operations

variable (rule : Query → Past → Prop) (setting : Setting) (inner : Server)
  (Inv Ready : Walker → Past → Prop) (Bad : Fault → Walker → Past → Prop)

/-- The property is kept where inputs take their values from. -/
structure Supplies : Prop where
  output : ∀ source {walker past}, Inv walker past →
    WP rule (ExceptT.run (output setting inner source)) (Upheld Inv Bad) walker past
  supplied : ∀ node pin value {walker past}, Inv walker past →
    rule (.announce ⟨.supplied node pin value, walker⟩) past ∧
      Inv walker (told (.supplied node pin value) walker :: past)
  raises : ∀ {fault walker past}, fault.Own → Inv walker past → Bad fault walker past

/-- The property is kept by each step of reading an output. -/
structure Pulls : Prop where
  counted : ∀ source {walker past}, Inv walker past →
    Inv { walker with memo := (walker.memo.lookup source).2 } past
  looks : ∀ {walker past}, Inv walker past → Looks rule setting Inv Bad walker past
  compute : ∀ {source part walker past}, setting.circuit.part source.node = .ok part →
    walker.memo.get? source = none → walker.resolving.contains source.node = false →
    Inv walker (⟨.isCancelled, false⟩ :: past) →
    WP rule (ExceptT.run (compute inner source part)) (Upheld Inv Bad) walker
      (⟨.isCancelled, false⟩ :: past)
  read : ∀ source result {walker past}, Upheld Inv Bad result walker past →
    rule (.announce ⟨.read source result, walker⟩) past ∧
      Upheld Inv Bad result walker (told (.read source result) walker :: past)
  supplied : ∀ node pin value {walker past}, Inv walker past →
    rule (.announce ⟨.supplied node pin value, walker⟩) past ∧
      Inv walker (told (.supplied node pin value) walker :: past)
  raises : ∀ {fault walker past}, fault.Own → Inv walker past → Bad fault walker past

/-- The property is kept where control passes from node to node. After a checkpoint the walk
is `Ready` to look at its token again. -/
structure Follows : Prop where
  looks : ∀ {walker past}, Inv walker past → Looks rule setting Inv Bad walker past
  checkpoint : ∀ node {walker past}, Inv walker (⟨.isCancelled, false⟩ :: past) →
    WP rule (ExceptT.run (checkpoint setting node)) (Upheld Ready Bad) walker
      (⟨.isCancelled, false⟩ :: past)
  ready : ∀ {walker past}, Ready walker past → Looks rule setting Inv Bad walker past
  execute : ∀ {node part walker past}, setting.circuit.part node = .ok part →
    Inv walker (⟨.isCancelled, false⟩ :: past) →
    WP rule (ExceptT.run (execute inner node part)) (Upheld Inv Bad) walker
      (⟨.isCancelled, false⟩ :: past)
  traversing : ∀ ref {walker past}, Inv walker past →
    rule (.announce ⟨.traversing ref, walker⟩) past ∧
      Inv walker (told (.traversing ref) walker :: past)
  followed : ∀ {node pin target walker past},
    setting.circuit.execTarget? node pin = some target → Inv walker past →
    rule (.announce ⟨.followed ⟨node, pin⟩ target, walker⟩) past ∧
      Inv walker (told (.followed ⟨node, pin⟩ target) walker :: past)
  traversed : ∀ ref result {walker past}, Upheld Inv Bad result walker past →
    rule (.announce ⟨.traversed ref result, walker⟩) past ∧
      Upheld Inv Bad result walker (told (.traversed ref result) walker :: past)
  raises : ∀ {fault walker past}, fault.Own → (∀ node path, fault ≠ .cycle node path) →
    Inv walker past → Bad fault walker past

variable {rule setting inner Inv Ready Bad}

theorem Pulls.supplies (pulls : Pulls rule setting inner Inv Bad) :
    Supplies rule setting inner Inv Bad := by
  refine ⟨fun source walker past holds => ?_, pulls.supplied, pulls.raises⟩
  have counted := pulls.counted source holds
  refine WP.output_iff.mpr (WP.mono ?_ fun result _ _ => pulls.read source result)
  cases remembered : walker.memo.get? source with
  | some => exact (WP.pull_of_found remembered).mpr counted
  | none =>
    rw [WP.pull_of_missing remembered]
    split
    · exact pulls.raises trivial counted
    · rename_i fresh
      obtain ⟨obeys, stops, goes⟩ := pulls.looks counted
      refine WP.checkCancelled_iff.mpr ⟨obeys, stops, ?_⟩
      cases found : setting.circuit.part source.node with
      | error => exact pulls.raises (Circuit.own_of_part found).1 goes
      | ok =>
        refine pulls.compute found ?_ (Bool.eq_false_iff.mpr fresh) goes
        rw [Memo.get?_lookup, remembered]

namespace Supplies

variable (supplies : Supplies rule setting inner Inv Bad)
include supplies

theorem resolve (node pin : String) (default : Value) (holds : Inv walker past) :
    WP rule (ExceptT.run (resolve setting inner node pin default)) (Upheld Inv Bad)
      walker past := by
  rw [WP.resolve_iff]
  cases setting.circuit.incoming? node pin with
  | some source =>
    refine (supplies.output source holds).mono fun result walker past upheld => ?_
    cases result with
    | error => exact upheld
    | ok value => exact supplies.supplied node pin value upheld
  | none =>
    cases found : setting.circuit.part node with
    | error => exact supplies.raises (Circuit.own_of_part found).1 holds
    | ok => exact supplies.supplied node pin _ holds

theorem input (node pin : String) (holds : Inv walker past) :
    WP rule (ExceptT.run (input setting inner node pin)) (Upheld Inv Bad) walker past := by
  rw [WP.input_iff]
  cases found : setting.circuit.part node with
  | error => exact supplies.raises (Circuit.own_of_part found).1 holds
  | ok part =>
    simp only
    cases part.schema.input? pin with
    | none => exact supplies.raises trivial holds
    | some =>
      refine (supplies.resolve node pin _ holds).mono fun result walker past upheld => ?_
      cases result with
      | error => exact upheld
      | ok =>
        simp only
        split
        · exact supplies.raises trivial upheld
        · exact upheld

end Supplies

/-- What the questions of a checkpoint, a new session and the writing of overrides preserve, a
checkpoint preserves. It fails only if the debugger stops the walk. -/
theorem checkpoint_upheld
    (asks : ∀ {q walker past}, Pausing q → Inv walker past →
      rule q past ∧ ∀ answer, Inv walker (⟨q, answer⟩ :: past))
    (opened : ∀ session {walker past}, Inv walker past →
      Inv { walker with session := some session } past)
    (assign : ∀ path value {walker past}, Inv walker past →
      WP rule (assign setting path value) (fun _ => Inv) walker past)
    (stopped : ∀ session {walker past}, Inv walker past → Bad (.stopped session) walker past)
    (holds : Inv walker past) :
    WP rule (ExceptT.run (checkpoint setting node)) (Upheld Inv Bad) walker past := by
  obtain ⟨obeys, after⟩ := asks (q := .visit node walker.context.vars) trivial holds
  refine WP.checkpoint_iff.mpr ⟨obeys, after none, fun hits => WP.pauseAt_iff.mpr ?_⟩
  have seated : WP rule ensureSession (fun _ => Inv) walker
      (⟨.visit node walker.context.vars, some hits⟩ :: past) := by
    rw [WP.ensureSession_iff]
    cases walker.session with
    | some => exact after (some hits)
    | none =>
      obtain ⟨obeys, after⟩ := asks (q := .openSession) trivial (after (some hits))
      exact ⟨obeys, fun session => opened session (after session)⟩
  refine seated.mono fun session walker past holds => ?_
  obtain ⟨obeys, after⟩ := asks (q := .pause session node _) trivial holds
  refine ⟨obeys, fun overrides => ?_, stopped session (after .stop)⟩
  exact WP.assignAll_of_invariant (fun path value _ _ => assign path value) overrides (after _)

/-- A node is executed and control goes where its executor says. -/
theorem execute_of_executor (starts : rule (.announce ⟨.executing node, walker⟩) past)
    (executor : WP rule (perform inner (ExceptT.run (part.kind.execute part.node)))
      (fun result walker past => rule (.announce ⟨.executed node result, walker⟩) past ∧
        Upheld Inv Bad result walker (told (.executed node result) walker :: past))
      walker (told (.executing node) walker :: past))
    (onward : ∀ pin walker past, Inv walker past →
      WP rule (inner (.traverse node pin)) (Upheld (α := Signal) Inv Bad) walker past)
    (raises : ∀ {cause walker past}, Inv walker past → Bad (.evaluation node cause) walker past) :
    WP rule (ExceptT.run (execute inner node part)) (Upheld Inv Bad) walker past := by
  refine WP.execute_iff.mpr ⟨starts, executor.mono fun result walker past ⟨obeys, upheld⟩ => ?_⟩
  refine ⟨obeys, ?_⟩
  rcases result with fault | flow
  · exact upheld
  · cases flow with
    | next pin =>
      simp only
      split
      · exact onward pin walker _ upheld
      · exact raises upheld
    | _ => exact upheld

/-- Control that comes to a node passes a checkpoint between two looks at the token. -/
theorem run_of_execute {Going : Walker → Past → Prop}
    {post : Except Fault Signal → Walker → Past → Prop}
    (looks : Looks rule setting Inv (fun fault => post (.error fault)) walker past)
    (missing : ∀ {fault}, setting.circuit.part node = .error fault →
      Inv walker (⟨.isCancelled, false⟩ :: past) →
      post (.error fault) walker (⟨.isCancelled, false⟩ :: past))
    (checkpoint : Inv walker (⟨.isCancelled, false⟩ :: past) →
      WP rule (ExceptT.run (checkpoint setting node))
        (Upheld Ready fun fault => post (.error fault)) walker (⟨.isCancelled, false⟩ :: past))
    (ready : ∀ {walker past}, Ready walker past →
      Looks rule setting Going (fun fault => post (.error fault)) walker past)
    (execute : ∀ {part walker past}, setting.circuit.part node = .ok part →
      Going walker (⟨.isCancelled, false⟩ :: past) →
      WP rule (ExceptT.run (execute inner node part)) post walker (⟨.isCancelled, false⟩ :: past)) :
    WP rule (ExceptT.run (run setting inner node)) post walker past := by
  obtain ⟨obeys, stops, goes⟩ := looks
  refine WP.run_iff.mpr (WP.checkCancelled_iff.mpr ⟨obeys, stops, ?_⟩)
  cases found : setting.circuit.part node with
  | error => exact missing found goes
  | ok =>
    refine (checkpoint goes).mono fun result walker past entered => ?_
    cases result with
    | error => exact entered
    | ok =>
      obtain ⟨obeys, stops, goes⟩ := ready entered
      exact WP.checkCancelled_iff.mpr ⟨obeys, stops, execute found goes⟩

namespace Follows

variable (follows : Follows rule setting inner Inv Ready Bad)
include follows

theorem run (node : String) (holds : Inv walker past) :
    WP rule (ExceptT.run (run setting inner node)) (Upheld Inv Bad) walker past := by
  refine run_of_execute (follows.looks holds) (fun missing goes => ?_) (follows.checkpoint node)
    follows.ready follows.execute
  obtain ⟨own, acyclic⟩ := Circuit.own_of_part missing
  exact follows.raises own acyclic goes

theorem traverse (node pin : String) (holds : Inv walker past) :
    WP rule (ExceptT.run (traverse setting inner node pin)) (Upheld Inv Bad) walker past := by
  obtain ⟨obeys, holds⟩ := follows.traversing ⟨node, pin⟩ holds
  refine WP.traverse_iff.mpr ⟨obeys, WP.follow_iff.mpr ?_⟩
  cases wire : setting.circuit.execTarget? node pin with
  | none => exact follows.traversed ⟨node, pin⟩ (.ok .done) holds
  | some target =>
    obtain ⟨obeys, holds⟩ := follows.followed wire holds
    exact ⟨obeys, (follows.run target.node holds).mono fun result _ _ =>
      follows.traversed ⟨node, pin⟩ result⟩

end Follows

end operations

/-- A server that keeps a property. -/
def Kept (rule : Query → Past → Prop) (Inv : Walker → Past → Prop) (inner : Server) : Prop :=
  ∀ c walker past, Inv walker past → WP rule (inner c) (fun _ => Inv) walker past

/-- Questions that a call of a script may put by itself. -/
def Simple : Query → Prop
  | .isCancelled | .act _ _ | .ticket | .exhausted => True
  | .visit _ _ | .openSession | .pause _ _ _ | .announce _ => False

theorem Simple.silent (simple : Simple q) : happening? q = none := by
  cases q with
  | announce => exact simple.elim
  | _ => rfl

def Control : Happening → Prop
  | .executing _ | .executed _ _ | .traversing _ | .followed _ _ | .traversed _ _ => True
  | _ => False

/-- A property that every step of a walk preserves, as far as the walk itself takes it: the
questions it puts, the happenings of control, and whatever the server below it answers. -/
structure Invariant (rule : Query → Past → Prop) (setting : Setting) (inner : Server)
    (Inv : Walker → Past → Prop) : Prop where
  silent : ∀ q walker past, happening? q = none → Inv walker past →
    rule q past ∧ ∀ answer, Inv walker (⟨q, answer⟩ :: past)
  session : ∀ session walker past, Inv walker past →
    Inv { walker with session := some session } past
  control : ∀ happening walker past, Control happening → Inv walker past →
    rule (.announce ⟨happening, walker⟩) past ∧ Inv walker (told happening walker :: past)
  assign : ∀ path value walker past, Inv walker past →
    WP rule (assign setting path value) (fun _ => Inv) walker past
  inner : Kept rule Inv inner

/-- How the state of a walk changes before a happening is told of. -/
inductive Changes (setting : Setting) : Happening → (Walker → Walker) → Prop
  | assigned (path : String) (value : Value) : Changes setting (.assigned path value) fun walker =>
      { walker with
        context := walker.context.assign path value
        memo := walker.memo.invalidate setting.volatile }
  | stored (node : String) (values : List (String × Value)) :
      Changes setting (.stored node values) fun walker =>
        { walker with memo := walker.memo.storeMany node values }
  | reentered (loop pin : String) : Changes setting (.reentered loop pin) fun walker =>
      { walker with
        memo := (walker.memo.invalidate (setting.circuit.loopScope loop pin).executed).invalidate
          (setting.circuit.loopScope loop pin).derived }
  | refreshed (loop pin : String) : Changes setting (.refreshed loop pin) fun walker =>
      { walker with memo := walker.memo.invalidate (setting.circuit.loopScope loop pin).derived }

/-- A property that all calls of a script keep, whether or not they fail. -/
structure KeepsCalls (rule : Query → Past → Prop) (setting : Setting) (inner : Server)
    (Inv Ready : Walker → Past → Prop) : Prop where
  asks : ∀ {q walker past}, Simple q → Inv walker past →
    rule q past ∧ ∀ answer, Inv walker (⟨q, answer⟩ :: past)
  supplies : Supplies rule setting inner Inv fun _ => Inv
  follows : Follows rule setting inner Inv Ready fun _ => Inv
  changes : ∀ {happening change walker past}, Changes setting happening change → Inv walker past →
    rule (.announce ⟨happening, change walker⟩) past ∧
      Inv (change walker) (told happening (change walker) :: past)
  note : ∀ node message {walker past}, Inv walker past →
    rule (.announce ⟨.noted node message, walker⟩) past ∧
      Inv walker (told (.noted node message) walker :: past)
  records : ∀ {context walker past}, context.vars = walker.context.vars → Inv walker past →
    Inv { walker with context } past

section invariants

variable {rule : Query → Past → Prop} {setting : Setting} {inner : Server}
  {Inv Ready : Walker → Past → Prop}

theorem Looks.of_asks (asked : rule .isCancelled past ∧
    ∀ cancelled : Bool, Inv walker (⟨.isCancelled, cancelled⟩ :: past)) :
    Looks rule setting Inv (fun _ => Inv) walker past :=
  ⟨asked.1, asked.2 true, asked.2 false⟩

theorem execute_of_kept (kept : Kept rule Inv inner)
    (starts : rule (.announce ⟨.executing node, walker⟩) past)
    (holds : Inv walker (told (.executing node) walker :: past))
    (ends : ∀ result {walker past}, Inv walker past →
      rule (.announce ⟨.executed node result, walker⟩) past ∧
        Inv walker (told (.executed node result) walker :: past)) :
    WP rule (ExceptT.run (execute inner node part)) (Upheld Inv fun _ => Inv) walker past := by
  refine execute_of_executor starts ?_ (fun pin => ?_) fun holds => holds
  · rw [upheld_const]
    exact (WP.perform_of_invariant kept _ holds).mono fun result _ _ => ends result
  · rw [upheld_const]
    exact kept (.traverse node pin)

theorem Invariant.follows (invariant : Invariant rule setting inner Inv) :
    Follows rule setting inner Inv Inv fun _ => Inv where
  looks holds := .of_asks (invariant.silent .isCancelled _ _ rfl holds)
  ready holds := .of_asks (invariant.silent .isCancelled _ _ rfl holds)
  checkpoint _ _ _ := checkpoint_upheld
    (fun pausing => invariant.silent _ _ _ pausing.silent)
    (fun session walker past => invariant.session session walker past)
    (fun path value walker past => invariant.assign path value walker past) fun _ _ _ holds => holds
  execute _ holds := by
    obtain ⟨starts, holds⟩ := invariant.control (.executing _) _ _ trivial holds
    exact execute_of_kept invariant.inner starts holds fun result walker past =>
      invariant.control (.executed _ result) walker past trivial
  traversing ref walker past := invariant.control (.traversing ref) walker past trivial
  followed _ := invariant.control (.followed _ _) _ _ trivial
  traversed ref result walker past := by
    rw [upheld_const]
    exact invariant.control (.traversed ref result) walker past trivial
  raises _ _ holds := holds

theorem KeepsCalls.answer (keeps : KeepsCalls rule setting inner Inv Ready) :
    Kept rule Inv (answer setting inner) := by
  intro c walker past holds
  cases c with
  | input node pin => exact upheld_const ▸ keeps.supplies.input node pin holds
  | resolve node pin default =>
    exact upheld_const ▸ keeps.supplies.resolve node pin default holds
  | output source => exact upheld_const ▸ keeps.supplies.output source holds
  | traverse node pin => exact upheld_const ▸ keeps.follows.traverse node pin holds
  | run node => exact upheld_const ▸ keeps.follows.run node holds
  | context | memo | about | inSession => exact holds
  | isCancelled | act | ticket => exact WP.ask_iff.mpr (keeps.asks trivial holds)
  | persist | log => exact keeps.records rfl holds
  | note node message => exact WP.announce_iff.mpr (keeps.note node message holds)
  | assign path value => exact WP.change_iff.mpr (keeps.changes (.assigned path value) holds)
  | store node values => exact WP.change_iff.mpr (keeps.changes (.stored node values) holds)
  | reenter loop pin => exact WP.change_iff.mpr (keeps.changes (.reentered loop pin) holds)
  | refresh loop pin => exact WP.change_iff.mpr (keeps.changes (.refreshed loop pin) holds)

end invariants

end Walk

end Pinflow
