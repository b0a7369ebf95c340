import Pinflow.Proofs.Circuit.Wired
import Pinflow.Proofs.Kinds.Conduct
import Pinflow.Proofs.Kinds.Routines
import Pinflow.Proofs.Walk.Checks

/-!
# Entering a node

Between the moment when control comes to a node and the start of the node's executor, a walk
over nodes of the built-in kinds has no choice. It asks the debugger once. If a breakpoint
stops it, it pauses, and when it is told to go on it writes the overrides in their order. Then
it looks at its token, and the executor starts. `threshold` reads off a past how far it has
come with this, and `Entering` says what it may ask then.
-/

namespace Pinflow

variable {node : String} {script : Script (Except Fault α)} {q : Query} {acts : Bool} {part : Part}
  {α : Type} {hits : Nat}

/-- A state with a variable written, and all that may depend on it forgotten. -/
def Walker.written (setting : Setting) (walker : Walker) (override : String × Value) : Walker :=
  { walker with
    context := walker.context.assign override.1 override.2
    memo := walker.memo.invalidate setting.volatile }

/-- Straight scripts let no node run but by following a pin. -/
theorem Straight.meets (straight : Straight acts script) :
    script.Meets (fun c => ∀ node, c ≠ .run node) (fun _ _ => True) (fun _ => True) := by
  induction straight with
  | done => trivial
  | pulls faults _ ih | follows faults _ ih =>
    exact ⟨nofun, fun answer _ => of_answer faults (fun _ => trivial) ih answer⟩
  | lets _ ih => exact ⟨nofun, fun answer _ => ih answer⟩
  | plain isPlain _ ih =>
    refine ⟨?_, fun answer _ => ih answer⟩
    rintro node rfl
    exact isPlain

namespace Walk

/-- The state of a walk when it last told of something. -/
def lastTold (first : Walker) : List Query → Walker
  | [] => first
  | .announce moment :: _ => moment.walker
  | _ :: asked => lastTold first asked

/-- What a walk that pauses before a node shows of its state. -/
def shown (setting : Setting) (node : String) (hits : Nat) (walker : Walker) : Value :=
  let snapshot := walker.context.snapshot walker.memo setting.maxSnapshot
  .obj ((snapshot.insert "node_id" (.str node)).insert "hit_count" (.ofNat hits))

/-- How far a walk is with entering a node, and in which state. -/
inductive Threshold where
  /-- It enters none. -/
  | away
  /-- A breakpoint has stopped it before the node. -/
  | stopped (node : String) (hits : Nat) (walker : Walker)
  /-- It may enter the node when these overrides are written. -/
  | passed (node : String) (walker : Walker) (left : List (String × Value))
  /-- It has looked at its token. -/
  | cleared (node : String) (walker : Walker)

/-- One exchange takes a walk across the threshold, `last` being the state that it last told
of. -/
def Threshold.after (last : Walker) (x : Exchange Query.interface) (entering : Threshold) :
    Threshold :=
  match x, entering with
  | ⟨.visit node _, none⟩, _ => passed node last []
  | ⟨.visit node _, some hits⟩, _ => stopped node hits last
  | ⟨.openSession, session⟩, stopped node hits walker =>
    if walker.session = none then stopped node hits { walker with session := some session }
    else away
  | ⟨.pause _ _ _, .resume overrides⟩, stopped node _ walker => passed node walker overrides
  | ⟨.announce ⟨.assigned _ _, walker⟩, _⟩, passed node _ (_ :: left) => passed node walker left
  | ⟨.isCancelled, false⟩, passed node walker [] => cleared node walker
  | _, _ => away

def threshold (first : Walker) : Past → Threshold
  | [] => .away
  | x :: past => (threshold first past).after (lastTold first (questions past)) x

/-- Questions that are put on the threshold of a node. -/
def Crosses : Query → Prop
  | .openSession | .pause _ _ _ | .announce ⟨.executing _, _⟩ => True
  | _ => False

/-- What a walk may ask on the threshold of a node. -/
def Threshold.Expects (setting : Setting) (q : Query) : Threshold → Prop
  | away => ¬ Crosses q
  | stopped node hits walker =>
    match walker.session with
    | none => q = .openSession
    | some session => q = .pause session node (shown setting node hits walker)
  | passed _ walker (override :: _) =>
    q = .announce ⟨.assigned override.1 override.2, walker.written setting override⟩
  | passed _ _ [] => q = .isCancelled
  | cleared node walker => q = .announce ⟨.executing node, walker⟩

/-- A question that is put where it may be. The debugger is asked right after the token, and
told the variables of the last state that the walk told of. -/
structure Entering (setting : Setting) (first : Walker) (q : Query) (past : Past) : Prop where
  expected : (threshold first past).Expects setting q
  visits : ∀ node vars, q = .visit node vars →
    vars = (lastTold first (questions past)).context.vars ∧ ∃ before, past = ⟨.isCancelled, false⟩ :: before

/-- Questions that do not ask whether to stop before a node. -/
def Unvisiting : Query → Prop
  | .visit _ _ => False
  | _ => True

/-- Control is not about to enter a node. -/
def Away (first : Walker) (past : Past) : Prop := threshold first past = .away

/-- Questions that a walk puts away from the threshold of a node. -/
def Inside : Query → Prop
  | .visit _ _ => False
  | q => ¬ Crosses q

variable {setting : Setting} {first : Walker} {inner : Server} {walker : Walker} {past : Past}

theorem Entering.of_expected (expected : (threshold first past).Expects setting q)
    (other : Unvisiting q) : Entering setting first q past := by
  refine ⟨expected, ?_⟩
  rintro node vars rfl
  exact other.elim

namespace Away

theorem entering (away : Away first past) (inside : Inside q) : Entering setting first q past := by
  constructor
  · rw [away]
    cases q with
    | visit => exact inside.elim
    | _ => exact inside
  · rintro node vars rfl
    exact inside.elim

theorem cons {answer : q.Answer} (away : Away first past) (inside : Inside q) :
    Away first (⟨q, answer⟩ :: past) := by
  cases q with
  | isCancelled =>
    cases answer with
    | false =>
      rw [Away, threshold, away]
      rfl
    | true => rfl
  | visit => exact inside.elim
  | openSession | pause => exact absurd trivial inside
  | announce moment =>
    obtain ⟨happening, walker⟩ := moment
    cases happening with
    | assigned =>
      rw [Away, threshold, away]
      rfl
    | _ => rfl
  | _ => rfl

end Away

/-- A server that enters nodes in order. Only a walk itself runs a node without following a
pin. -/
def Enters (setting : Setting) (first : Walker) (inner : Server) : Prop :=
  ∀ c walker past, (∀ node, c ≠ .run node) → Away first past →
    WP (Entering setting first) (inner c) (fun _ _ past => Away first past) walker past

theorem assignAll_enters {left : List (String × Value)}
    (passed : threshold first past = .passed node walker left) :
    WP (Entering setting first) (assignAll setting left)
      (fun _ after past => threshold first past = .passed node after []) walker past := by
  induction left generalizing walker past with
  | nil => exact passed
  | cons override left ih =>
    rw [assignAll, WP.bind_iff]
    refine WP.change_iff.mpr ⟨.of_expected ?_ trivial, ih ?_⟩
    · rw [passed]
      rfl
    · rw [told, threshold, passed]
      rfl

/-- What is known after a checkpoint. -/
abbrev Admitted (first : Walker) (node : String) : Except Fault Unit → Walker → Past → Prop :=
  Upheld (fun walker past => threshold first past = .passed node walker []) fun _ _ => Away first

theorem pauseAt_enters (stopped : threshold first past = .stopped node hits walker) :
    WP (Entering setting first) (ExceptT.run (pauseAt setting node hits)) (Admitted first node)
      walker past := by
  have seated : WP (Entering setting first) ensureSession (fun session after past =>
      after.session = some session ∧ threshold first past = .stopped node hits after)
      walker past := by
    rw [WP.ensureSession_iff]
    cases own : walker.session with
    | some => exact ⟨rfl, stopped⟩
    | none =>
      refine ⟨.of_expected ?_ trivial, fun session => ⟨rfl, ?_⟩⟩
      · simp only [stopped, Threshold.Expects, own]
      · rw [threshold, stopped]
        exact if_pos own
  rw [WP.pauseAt_iff]
  refine seated.mono fun session after past ⟨own, stopped⟩ => ?_
  refine ⟨.of_expected ?_ trivial, fun overrides => ?_, rfl⟩
  · simp only [stopped, Threshold.Expects, own, shown]
  · apply assignAll_enters
    rw [threshold, stopped]
    rfl

theorem checkpoint_enters (current : lastTold first (questions past) = walker)
    (looked : ∃ before, past = ⟨.isCancelled, false⟩ :: before) (away : Away first past) :
    WP (Entering setting first) (ExceptT.run (checkpoint setting node)) (Admitted first node)
      walker past := by
  rw [WP.checkpoint_iff]
  refine ⟨⟨?_, ?_⟩, ?_, fun hits => pauseAt_enters ?_⟩
  · rw [away]
    exact id
  · intro other vars same
    cases same
    exact ⟨congrArg (fun walker : Walker => walker.context.vars) current.symm, looked⟩
  · exact congrArg (Threshold.passed node · []) current
  · rw [threshold, current]
    rfl

section inner

variable (enters : Enters setting first inner)
include enters

theorem perform_enters (straight : Straight acts script) (away : Away first past) :
    WP (Entering setting first) (perform inner script) (fun _ _ past => Away first past)
      walker past := by
  refine (WP.perform_of_meets (fun _ past => Away first past) ?_ straight.meets away).mono
    fun _ _ _ kept => kept.2
  intro c walker past asked away
  exact (enters c walker past asked away).mono fun _ _ _ kept => ⟨trivial, kept⟩

variable (wired : Circuit.Wired Registry.builtin setting.circuit)
include wired

theorem compute_enters {source : PinRef} (found : setting.circuit.part source.node = .ok part)
    (away : Away first past) :
    WP (Entering setting first) (ExceptT.run (compute inner source part))
      (fun _ _ past => Away first past) walker past := by
  have known := wired.kind_mem (Circuit.part_eq_ok_iff.mp found)
  have straight := Kinds.straight_evaluate part.node known source.pin
  rw [WP.compute_iff]
  refine ⟨away.entering id, ?_⟩
  have away : Away first (told (.evaluating source part.node.config) walker :: past) :=
    away.cons id
  refine (perform_enters enters straight away).mono fun result walker past away => ?_
  refine ⟨away.entering id, ?_⟩
  cases result with
  | error => exact away.cons id
  | ok => exact away.cons id

theorem pulls_enters : Pulls (Entering setting first) setting inner
    (fun _ past => Away first past) fun _ _ past => Away first past where
  counted _ _ _ away := away
  looks away := ⟨away.entering id, away.cons id, away.cons id⟩
  compute found _ _ away := upheld_const ▸ compute_enters enters wired found away
  read _ _ _ _ upheld := by
    rw [upheld_const] at *
    exact ⟨Away.entering upheld id, Away.cons upheld id⟩
  supplied _ _ _ _ _ away := ⟨away.entering id, away.cons id⟩
  raises _ away := away

theorem execute_enters (found : setting.circuit.part node = .ok part)
    (cleared : threshold first past = .cleared node walker) :
    WP (Entering setting first) (ExceptT.run (execute inner node part))
      (fun _ _ past => Away first past) walker past := by
  have known := wired.kind_mem (Circuit.part_eq_ok_iff.mp found)
  have straight := Kinds.straight_execute part.node known
  rw [← upheld_const]
  refine execute_of_executor (.of_expected ?_ trivial) ?_ (fun pin walker past away => ?_)
    fun away => away
  · rw [cleared]
    rfl
  · have away : Away first (told (.executing node) walker :: past) := rfl
    refine (perform_enters enters straight away).mono fun result walker past away => ?_
    rw [upheld_const]
    exact ⟨away.entering id, away.cons id⟩
  · rw [upheld_const]
    exact enters (.traverse node pin) walker past nofun away

theorem run_enters (node : String) (current : lastTold first (questions past) = walker)
    (away : Away first past) :
    WP (Entering setting first) (ExceptT.run (run setting inner node))
      (fun _ _ past => Away first past) walker past := by
  have looks : Looks (Entering setting first) setting (fun _ => Away first) (fun _ _ => Away first)
      walker past := ⟨away.entering id, away.cons id, away.cons id⟩
  have ready : ∀ {walker past}, threshold first past = .passed node walker [] →
      Looks (Entering setting first) setting
        (fun walker past => threshold first past = .cleared node walker) (fun _ _ => Away first)
        walker past := by
    intro walker past passed
    refine ⟨.of_expected ?_ trivial, rfl, ?_⟩
    · rw [passed]
      rfl
    · simp only [threshold, passed]
      rfl
  exact run_of_execute looks (fun _ away => away) (checkpoint_enters current ⟨past, rfl⟩) ready
    (execute_enters enters wired)

theorem traverse_enters (node pin : String) (away : Away first past) :
    WP (Entering setting first) (ExceptT.run (traverse setting inner node pin))
      (fun _ _ past => Away first past) walker past := by
  rw [WP.traverse_iff, WP.follow_iff]
  refine ⟨away.entering id, ?_⟩
  have away : Away first (told (.traversing ⟨node, pin⟩) walker :: past) := away.cons id
  cases setting.circuit.execTarget? node pin with
  | none => exact ⟨away.entering id, away.cons id⟩
  | some target =>
    refine ⟨away.entering id, ?_⟩
    have away : Away first (told (.followed ⟨node, pin⟩ target) walker :: _) := away.cons id
    refine (run_enters enters wired target.node rfl away).mono fun result walker past away => ?_
    exact ⟨away.entering id, away.cons id⟩

theorem answer_enters : Enters setting first (answer setting inner) := by
  intro c walker past follows away
  have written : ∀ {happening : Happening} {walker : Walker},
      Inside (.announce ⟨happening, walker⟩) →
      Entering setting first (.announce ⟨happening, walker⟩) past ∧
        Away first (told happening walker :: past) :=
    fun inside => ⟨away.entering inside, away.cons inside⟩
  have supplies := (pulls_enters enters wired).supplies
  cases c with
  | input node pin => exact upheld_const ▸ supplies.input node pin away
  | resolve node pin default => exact upheld_const ▸ supplies.resolve node pin default away
  | output source => exact upheld_const ▸ supplies.output source away
  | traverse node pin => exact traverse_enters enters wired node pin away
  | run node => exact absurd rfl (follows node)
  | isCancelled | ticket | act =>
    exact WP.ask_iff.mpr ⟨away.entering id, fun _ => away.cons id⟩
  | note => exact WP.announce_iff.mpr (written id)
  | assign | store | reenter | refresh => exact WP.change_iff.mpr (written id)
  | context | memo | about | inSession | persist | log => exact away

end inner

theorem serve_enters (wired : Circuit.Wired Registry.builtin setting.circuit) (first : Walker)
    (depth : Nat) : Enters setting first (serve setting depth) := by
  induction depth with
  | zero => exact fun c walker past _ away => WP.exhausted_iff.mpr (away.entering id)
  | succ depth ih => exact answer_enters ih wired

/-- A walk over nodes of the built-in kinds enters its nodes in order, and is on no threshold
when it ends. -/
theorem start_enters (wired : Circuit.Wired Registry.builtin setting.circuit) (depth : Nat)
    (entry : String) (context : Context) :
    Dialogue.WP (Entering setting { context }) (fun _ past => Away { context } past)
      (start setting depth entry context) [] := by
  have served : WP (Entering setting { context }) (serve setting depth (.run entry))
      (fun _ _ past => Away { context } past) { context } [] := by
    cases depth with
    | zero => exact WP.exhausted_iff.mpr (Away.entering rfl id)
    | succ depth => exact run_enters (serve_enters wired _ depth) wired entry rfl rfl
  exact start_of_served (fun _ => Away { context }) served

section past

variable {last : Walker} {x : Exchange Query.interface} {entering : Threshold} {node : String}
  {left : List (String × Value)} {newer : Past}

def Threshold.node? : Threshold → Option String
  | away => none
  | stopped node _ _ | passed node _ _ | cleared node _ => some node

/-- On a threshold the debugger has just been asked about the node, or it was the same node
before, and no executor has started. -/
theorem Threshold.node?_after (here : (entering.after last x).node? = some node) :
    (∃ vars hit, x = ⟨.visit node vars, hit⟩) ∨
      entering.node? = some node ∧ ∀ other walker, x.query ≠ .announce ⟨.executing other, walker⟩ := by
  unfold after at here
  split at here
  · cases here
    exact .inl ⟨_, _, rfl⟩
  · cases here
    exact .inl ⟨_, _, rfl⟩
  · split at here
    · exact .inr ⟨here, nofun⟩
    · cases here
  · exact .inr ⟨here, nofun⟩
  · exact .inr ⟨here, nofun⟩
  · exact .inr ⟨here, nofun⟩
  · cases here

/-- Who is on the threshold of a node has come to it, and its executor has not started since. -/
theorem exists_visit_of_node? (here : (threshold first past).node? = some node) :
    ∃ front vars hit older, past = front ++ ⟨.visit node vars, hit⟩ :: older ∧
      ∀ x ∈ front, ∀ other walker, x.query ≠ .announce ⟨.executing other, walker⟩ := by
  induction past with
  | nil => cases here
  | cons x past ih =>
    rcases Threshold.node?_after here with ⟨vars, hit, rfl⟩ | ⟨before, quiet⟩
    · exact ⟨[], vars, hit, past, rfl, List.forall_mem_nil _⟩
    · obtain ⟨front, vars, hit, older, rfl, none⟩ := ih before
      refine ⟨x :: front, vars, hit, older, rfl, fun y member => ?_⟩
      rcases List.mem_cons.mp member with rfl | member
      · exact quiet
      · exact none y member

/-- Who is stopped by a breakpoint has just asked the debugger, and may have opened a session
since. -/
theorem exists_visit_of_stopped (stopped : threshold first past = .stopped node hits walker) :
    ∃ opening vars older, past = opening ++ ⟨.visit node vars, some hits⟩ :: older ∧
      (opening = [] ∧ walker = lastTold first (questions older) ∨
        ∃ session, opening = [⟨.openSession, session⟩] ∧
          walker = { lastTold first (questions older) with session := some session }) := by
  induction past generalizing walker with
  | nil => cases stopped
  | cons x past ih =>
    unfold threshold Threshold.after at stopped
    split at stopped
    · cases stopped
    · cases stopped
      exact ⟨[], _, past, rfl, .inl ⟨rfl, rfl⟩⟩
    · rename_i inner before
      split at stopped
      · rename_i none
        cases stopped
        obtain ⟨opening, vars, older, rfl, ⟨rfl, rfl⟩ | ⟨session, -, rfl⟩⟩ := ih before
        · exact ⟨_, vars, older, rfl, .inr ⟨_, rfl, rfl⟩⟩
        · cases none
      · cases stopped
    · cases stopped
    · cases stopped
    · cases stopped
    · cases stopped

/-- The questions with which overrides are written, in their order. -/
def overriding (setting : Setting) : Walker → List (String × Value) → List Query
  | _, [] => []
  | walker, override :: left =>
    .announce ⟨.assigned override.1 override.2, walker.written setting override⟩ ::
      overriding setting (walker.written setting override) left

/-- A walk may come to rest here. -/
def Threshold.MayRest : Threshold → Prop
  | away | stopped _ _ _ => True
  | passed _ _ _ | cleared _ _ => False

/-- A walk that has come to rest since has put the question that was expected. -/
theorem exists_question (obeys : History.Obeys (Entering setting first) (newer ++ past))
    (here : threshold first past = entering) (going : ¬ entering.MayRest)
    (rests : (threshold first (newer ++ past)).MayRest) :
    ∃ later q answer, newer = later ++ [⟨q, answer⟩] ∧ entering.Expects setting q := by
  subst here
  rcases List.eq_nil_or_concat newer with rfl | ⟨later, ⟨q, answer⟩, rfl⟩
  · exact absurd rests going
  · refine ⟨later, q, answer, List.concat_eq_append, ?_⟩
    exact (obeys later q answer past (by simp)).expected

/-- A walk that may enter a node writes the overrides, looks at its token, and starts the
executor if it has not been cancelled, before it comes to rest. -/
theorem questions_of_passed (obeys : History.Obeys (Entering setting first) (newer ++ past))
    (passed : threshold first past = .passed node walker left)
    (rests : (threshold first (newer ++ past)).MayRest) :
    ∃ later cancelled front, newer = later ++ ⟨.isCancelled, cancelled⟩ :: front ∧
      questions front = (overriding setting walker left).reverse ∧
      ((cancelled : Bool) = false → ∃ rest,
        later = rest ++ [told (.executing node) (left.foldl (Walker.written setting) walker)]) := by
  induction left generalizing newer past walker with
  | nil =>
    obtain ⟨later, _, answer, rfl, rfl⟩ := exists_question obeys passed id rests
    refine ⟨later, answer, [], rfl, rfl, fun uncancelled => ?_⟩
    subst uncancelled
    rw [List.append_assoc] at obeys rests
    have cleared : threshold first ([⟨.isCancelled, false⟩] ++ past) = .cleared node walker := by
      rw [List.singleton_append, threshold, passed]
      rfl
    obtain ⟨rest, _, _, rfl, rfl⟩ := exists_question obeys cleared id rests
    exact ⟨rest, rfl⟩
  | cons override left ih =>
    obtain ⟨later, _, answer, rfl, rfl⟩ := exists_question obeys passed id rests
    rw [List.append_assoc] at obeys rests
    have next : threshold first ([⟨_, answer⟩] ++ past) =
        .passed node (walker.written setting override) left := by
      rw [List.singleton_append, threshold, passed]
      rfl
    obtain ⟨latest, cancelled, front, rfl, written, executes⟩ := ih obeys next rests
    refine ⟨latest, cancelled, front ++ [⟨_, answer⟩], ?_, ?_, executes⟩
    · rw [List.append_assoc, List.cons_append]
    · rw [questions, List.map_append, ← questions, written, overriding, List.reverse_cons]
      rfl

end past

end Walk

end Pinflow
