import Mathlib.Logic.Function.Basic
import Mathlib.Logic.Relation
import Pinflow.Proofs.Desk.Beside

/-!
# Walks that yield

At a desk an invocation that goes on does so until it rests, and nobody has a move meanwhile.
On a floor walks yield between any two questions: commands, edits of the breakpoints and the
questions of other walks may come in between, so the hit of a breakpoint and the pause that
shows it are two steps. `Floor.Step` lists what can happen next, and every play at a desk is a
run of such steps.
-/

namespace Pinflow

open Dialogue Invocation List

open Desk (Move)

/-- Something that goes on record on a floor. -/
inductive Mark where
  /-- What goes on record at a desk as well. -/
  | deed (deed : Deed)
  /-- The breakpoints were edited, or a condition could not be read. -/
  | edited (edit : Breakpoints.Edit)
  /-- A breakpoint stopped an invocation of the graph before the node, and counted that. -/
  | counted (name graph node : String) (hits : Nat)
  /-- The debugger did not let an invocation pause that a breakpoint had stopped. -/
  | lost (name graph node : String) (count : Option Value)

def Mark.deed? : Mark → Option Deed
  | .deed made => some made
  | _ => none

def Mark.name? : Mark → Option String
  | .deed made => made.name?
  | .edited _ => none
  | .counted name _ _ _ | .lost name _ _ _ => some name

/-- What a desk would have on record. -/
def deedsOn (log : List Mark) : List Deed := log.filterMap Mark.deed?

@[simp] theorem deedsOn_append (later earlier : List Mark) :
    deedsOn (later ++ earlier) = deedsOn later ++ deedsOn earlier := filterMap_append

@[simp] theorem deedsOn_deed (deed : Deed) (log : List Mark) :
    deedsOn (.deed deed :: log) = deed :: deedsOn log := rfl

@[simp] theorem deedsOn_map_deed (deeds : List Deed) : deedsOn (deeds.map .deed) = deeds := by
  rw [deedsOn, filterMap_map]
  exact filterMap_some

theorem mem_deedsOn {deed : Deed} {log : List Mark} : deed ∈ deedsOn log ↔ .deed deed ∈ log := by
  rw [deedsOn, mem_filterMap]
  constructor
  · rintro ⟨mark, member, same⟩
    cases mark with
    | deed =>
      cases same
      exact member
    | _ => cases same
  · exact fun member => ⟨_, member, rfl⟩

/-- A desk at which walks are under way, what is left of them by the names of their invocations,
and the record, latest first. The stage of an invocation whose walk is under way is out of
date. -/
structure Floor where
  desk : Desk
  walks : String → Option Run := fun _ => none
  log : List Mark := []

namespace Floor

variable {floor next : Floor} {name : String} {invocation after : Invocation}
  {world : Surroundings} {rest : Option Run} {marked : List Mark}
  {holds : Surroundings → List Deed → Prop}

/-- Put an invocation back, with what is left of its walk. -/
def put (floor : Floor) (name : String) (invocation : Invocation) (world : Surroundings)
    (rest : Option Run) (marks : List Mark) : Floor where
  desk := { floor.desk.updateInvocation name fun _ => invocation with world }
  walks := Function.update floor.walks name rest
  log := marks ++ floor.log

@[simp] theorem walks_put_self (floor : Floor) (name : String) (invocation : Invocation)
    (world : Surroundings) (rest : Option Run) (marks : List Mark) :
    (floor.put name invocation world rest marks).walks name = rest :=
  Function.update_self ..

@[simp] theorem log_put (floor : Floor) (name : String) (invocation : Invocation)
    (world : Surroundings) (rest : Option Run) (marks : List Mark) :
    (floor.put name invocation world rest marks).log = marks ++ floor.log := rfl

/-- What a move puts on record. -/
def marks (floor : Floor) : Move → List Mark
  | .edit edit => [.edited edit]
  | move => (floor.desk.deeds move).map .deed

/-- What an exchange with the debugger puts on record. -/
def notes (invocation : Invocation) (world : Surroundings) : Exchange Query.interface → List Mark
  | ⟨.visit node _, some hits⟩ => [.counted invocation.name invocation.graph node hits]
  | ⟨.pause session node snapshot, _⟩ =>
    match world.debugger.beginPause session node snapshot with
    | some _ => []
    | none => [.lost invocation.name invocation.graph node (snapshot.field? "hit_count")]
  | _ => []

/-- What an invocation does next, with what is left of its walk if that is under way: where that
leaves it, and what goes on record. -/
inductive Pace (invocation : Invocation) (world : Surroundings) :
    Option Run → Invocation → Surroundings → Option Run → List Mark → Prop
  /-- An invocation that rests goes on. -/
  | goesOn {going : Invocation} {world' : Surroundings} {run : Run} {deeds : List Deed}
      (prompted : Prompted invocation world going world' run deeds) :
      Pace invocation world none going world' (some run) (deeds.map .deed)
  /-- A first look finds no breakpoint that is switched on, so that none is locked. -/
  | overlooks {node : String} {vars : Fields} {next : Option Nat → Run}
      (nothing : ∀ breakpoint, world.debugger.breakpoints.find? invocation.graph node =
        some breakpoint → breakpoint.enabled = false) :
      Pace invocation world (some (ask (Query.visit node vars) next)) invocation world
        (some (next none)) [.deed (.asked invocation.name (.visit node vars))]
  /-- A walk gets the answer to its question. -/
  | hears {after : Invocation} {world' : Surroundings} {q : Query} {next : q.Answer → Run}
      {answer : q.Answer} {deeds : List Deed}
      (reply : Replies invocation world q answer after world' deeds) :
      Pace invocation world (some (ask q next)) after world' (some (next answer))
        (notes invocation world ⟨q, answer⟩ ++ (deeds ++ [Deed.asked invocation.name q]).map .deed)
  /-- A walk has to wait for an answer. -/
  | waits {after : Invocation} {world' : Surroundings} {q : Query} {next : q.Answer → Run}
      {deeds : List Deed} (wait : Waits invocation world q next after world' deeds) :
      Pace invocation world (some (ask q next)) after world' none
        ((deeds ++ [Deed.asked invocation.name q]).map .deed)
  /-- A walk has ended. -/
  | ends {result : Except Fault Unit} {walker : Walker} :
      Pace invocation world (some (done (result, walker)))
        (invocation.finish world result walker).1 (invocation.finish world result walker).2 none
        ((invocation.record world (done (result, walker))).map .deed)

/-- An invocation comes in, with a walk unless its graph lacks the entry. -/
inductive Enters (settings : EngineSettings) (world : Surroundings) (circuit : Circuit)
    (name : String) (identity : Identity) (request : Request) : Invocation → Option Run → Prop
  | begins (entry : circuit.contains request.entry = true) :
      Enters settings world circuit name identity request
        (fresh settings world circuit name identity request)
        (some (origin settings circuit identity request))
  | rejects (missing : circuit.contains request.entry = false) :
      Enters settings world circuit name identity request
        (rejected settings world circuit name identity request) none

/-- One thing happens on a floor. -/
inductive Step (floor : Floor) : Floor → Prop
  /-- Somebody makes a move. -/
  | moves {move : Move} (aside : move.Aside floor.walks) :
      Step floor { floor with
        desk := floor.desk.make move
        log := floor.marks move ++ floor.log }
  /-- Somebody new comes in. -/
  | begins {name : String} {identity : Identity} {circuit : Circuit} {request : Request}
      {new : Invocation} {run : Option Run} (admits : floor.desk.admits name identity = true)
      (enters : Enters floor.desk.settings floor.desk.world circuit name identity request new run) :
      Step floor {
        desk := { floor.desk with invocations := floor.desk.invocations ++ [new] }
        walks := Function.update floor.walks name run
        log := (opening circuit name identity request).map .deed ++ floor.log }
  /-- An invocation does what it does next. -/
  | paces {name : String} {invocation after : Invocation} {world : Surroundings}
      {walk rest : Option Run} {marks : List Mark}
      (found : floor.desk.invocation? name = some invocation) (walks : floor.walks name = walk)
      (pace : Pace invocation floor.desk.world walk after world rest marks) :
      Step floor (floor.put name after world rest marks)

abbrev Reaches : Floor → Floor → Prop := Relation.ReflTransGen Step

@[simp] theorem deedsOn_notes (invocation : Invocation) (world : Surroundings)
    (exchange : Exchange Query.interface) : deedsOn (notes invocation world exchange) = [] := by
  unfold notes
  split
  · rfl
  · split <;> rfl
  · rfl

theorem edited_not_mem_map {deeds : List Deed} (edit : Breakpoints.Edit) :
    .edited edit ∉ deeds.map Mark.deed := by
  simp

theorem edited_not_mem_notes {exchange : Exchange Query.interface} (edit : Breakpoints.Edit) :
    .edited edit ∉ notes invocation world exchange := by
  unfold notes
  split
  · simp
  · split <;> simp
  · simp

@[simp] theorem deedsOn_marks (floor : Floor) (move : Move) :
    deedsOn (floor.marks move) = floor.desk.deeds move := by
  cases move with
  | edit => rfl
  | _ => exact deedsOn_map_deed _

theorem visit_of_disabled {breakpoints : Breakpoints} {graph node : String}
    (nothing : ∀ breakpoint, breakpoints.find? graph node = some breakpoint →
      breakpoint.enabled = false) (vars : Fields) :
    breakpoints.visit graph node vars = (none, breakpoints) := by
  rw [Breakpoints.visit]
  split
  · rename_i breakpoint found
    rw [if_neg]
    rw [Breakpoint.stops, nothing breakpoint found]
    simp
  · rfl

/-- A first look that finds nothing answers as the count of hits would at that moment. -/
theorem replies_of_disabled {node : String} (vars : Fields)
    (nothing : ∀ breakpoint, world.debugger.breakpoints.find? invocation.graph node =
      some breakpoint → breakpoint.enabled = false) :
    Replies invocation world (.visit node vars) none invocation world [] := by
  have visited : world.debugger.visit invocation.graph node vars = (none, world.debugger) := by
    rw [Debugger.visit, visit_of_disabled nothing]
  have reply : Replies invocation world (.visit node vars) _ invocation _ [] := .visit node vars
  rwa [visited] at reply

namespace Pace

variable {walk : Option Run} {world' : Surroundings}
  (pace : Pace invocation world walk after world' rest marked)
include pace

theorem named : after.name = invocation.name := by
  cases pace with
  | goesOn prompted => exact prompted.identity.1
  | overlooks => rfl
  | hears reply => exact reply.identity.1
  | waits wait => exact wait.identity.1
  | @ends result walker =>
    obtain ⟨archive, finished⟩ := invocation.finish_eq world result walker
    rw [finished]

/-- What lasts at a desk lasts on a floor. -/
theorem lasting {log : List Deed} (lasting : Desk.Lasting holds) (now : holds world log) :
    holds world' (deedsOn marked ++ log) := by
  cases pace with
  | goesOn prompted =>
    rw [deedsOn_map_deed]
    exact lasting.prompts now prompted
  | overlooks nothing => exact lasting.replies now (replies_of_disabled _ nothing)
  | hears reply =>
    simp only [deedsOn_append, deedsOn_notes, deedsOn_map_deed, nil_append, append_assoc]
    exact lasting.replies now reply
  | waits wait =>
    simp only [deedsOn_map_deed, append_assoc]
    exact lasting.waits now wait
  | @ends result walker =>
    obtain ⟨archive, finished⟩ := invocation.finish_eq world result walker
    rw [deedsOn_map_deed, finished]
    exact lasting.ends result walker archive now

/-- An invocation goes on along its course. -/
theorem further {birth : Birth} {log : List Deed} {past : Walk.Past}
    (kept : Kept birth world log invocation past walk true) :
    Further birth past world log after world' (deedsOn marked ++ log) rest true := by
  cases pace with
  | goesOn prompted =>
    rw [deedsOn_map_deed]
    exact kept.prompted prompted
  | overlooks nothing => exact kept.reply (replies_of_disabled _ nothing)
  | hears reply =>
    simp only [deedsOn_append, deedsOn_notes, deedsOn_map_deed, nil_append, append_assoc]
    exact kept.reply reply
  | waits wait =>
    simp only [deedsOn_map_deed, append_assoc]
    exact kept.waits wait
  | ends =>
    rw [deedsOn_map_deed]
    exact kept.ends

end Pace

theorem Step.lasting (step : Step floor next) (lasting : Desk.Lasting holds)
    (now : holds floor.desk.world (deedsOn floor.log)) :
    holds next.desk.world (deedsOn next.log) := by
  cases step with
  | moves =>
    rw [deedsOn_append, deedsOn_marks]
    exact lasting.make now _
  | begins =>
    rw [deedsOn_append, deedsOn_map_deed]
    refine lasting.notes (fun deed member => ?_) now
    rcases mem_opening.mp member with rfl | ⟨-, rfl⟩ <;> trivial
  | paces found walks pace =>
    simp only [put, deedsOn_append]
    exact pace.lasting lasting now

theorem Reaches.lasting (reaches : Reaches floor next) (lasting : Desk.Lasting holds)
    (now : holds floor.desk.world (deedsOn floor.log)) :
    holds next.desk.world (deedsOn next.log) := by
  induction reaches with
  | refl => exact now
  | tail _ step ih => exact step.lasting lasting ih

theorem Reaches.settings (reaches : Reaches floor next) :
    next.desk.settings = floor.desk.settings := by
  induction reaches with
  | refl => rfl
  | tail _ step ih =>
    refine Eq.trans ?_ ih
    cases step with
    | moves => exact Desk.settings_make _ _
    | _ => rfl

theorem invocation?_put (found : floor.desk.invocation? name = some invocation)
    (named : after.name = name) (other : String) :
    (floor.put name after world rest marked).desk.invocation? other =
      if other = name then some after else floor.desk.invocation? other := by
  refine (Desk.invocation?_updateInvocation (f := fun _ => after) world (fun _ _ => named)
    fun _ _ => rfl).trans ?_
  split
  · rename_i same
    rw [same, found, Option.map_some, if_pos (Desk.mem_of_invocation? found).2.symm]
  · rename_i differs
    cases isFound : floor.desk.invocation? other with
    | none => rfl
    | some someone =>
      rw [Option.map_some, if_neg]
      rw [(Desk.mem_of_invocation? isFound).2]
      exact Ne.symm differs

theorem put_put (named : invocation.name = name) {world' : Surroundings} {rest' : Option Run}
    {more : List Mark} :
    (floor.put name invocation world rest marked).put name after world' rest' more =
      floor.put name after world' rest' (more ++ marked) := by
  have same : ∀ someone : Invocation,
      (if (if someone.name == name then invocation else someone).name == name then after
        else if someone.name == name then invocation else someone) =
      if someone.name == name then after else someone := by
    intro someone
    cases isNamed : someone.name == name <;> simp [isNamed, named]
  simp only [put, Desk.updateInvocation, map_map, Function.comp_def, same, Function.update_idem,
    append_assoc]

/-- A walk that is under way comes to where a drive leaves it. -/
theorem Reaches.drive {first : Floor} {run : Run} (reaches : Reaches first floor)
    (found : floor.desk.invocation? name = some invocation)
    (walks : floor.walks name = some run) :
    ∃ marks, deedsOn marks = invocation.record floor.desk.world run ∧
      (∀ edit, .edited edit ∉ marks) ∧
      Reaches first (floor.put name (invocation.drive floor.desk.world run).1
        (invocation.drive floor.desk.world run).2 none marks) := by
  have named := (Desk.mem_of_invocation? found).2
  induction run generalizing floor invocation with
  | done => exact ⟨_, deedsOn_map_deed _, edited_not_mem_map, reaches.tail (.paces found walks .ends)⟩
  | ask q next ih =>
    rcases drive_cases invocation floor.desk.world q next with
      ⟨answer, after, world, deeds, reply, drives, records⟩ |
      ⟨after, world, deeds, wait, drives, records⟩
    · have named' : after.name = name := reply.identity.1.trans named
      obtain ⟨marks, same, unedited, reaches⟩ := ih answer
        (reaches.tail (.paces found walks (.hears reply)))
        ((invocation?_put found named' name).trans (if_pos rfl)) (Function.update_self ..) named'
      rw [put_put named'] at reaches
      rw [drives, records]
      refine ⟨_, ?_, fun edit member => ?_, reaches⟩
      · rw [deedsOn_append, deedsOn_append, deedsOn_notes, deedsOn_map_deed, same]
        rfl
      · rcases mem_append.mp member with member | member
        · exact unedited edit member
        · rcases mem_append.mp member with member | member
          · exact edited_not_mem_notes edit member
          · exact edited_not_mem_map edit member
    · rw [drives, records]
      exact ⟨_, deedsOn_map_deed _, edited_not_mem_map, reaches.tail (.paces found walks (.waits wait))⟩

/-- An invocation that is admitted comes to where its beginning leaves it. -/
theorem Reaches.start {first : Floor} {identity : Identity} {circuit : Circuit} {request : Request}
    (reaches : Reaches first floor) (admits : floor.desk.admits name identity = true) :
    ∃ marks, deedsOn marks = floor.desk.deeds (.start name identity circuit request) ∧
      (∀ edit, .edited edit ∉ marks) ∧
      Reaches first {
        desk := floor.desk.make (.start name identity circuit request)
        walks := Function.update floor.walks name none
        log := marks ++ floor.log } := by
  by_cases missing : circuit.contains request.entry = false
  · refine ⟨(opening circuit name identity request).map .deed, ?_, edited_not_mem_map, ?_⟩
    · rw [deedsOn_map_deed, Desk.deeds, if_pos admits, beginning, missing]
      rfl
    · rw [Desk.make_start_of_admits admits, begin_eq, missing]
      exact reaches.tail (.begins admits (.rejects missing))
  have entry : circuit.contains request.entry = true := (Bool.not_eq_false _).mp missing
  have others : ∀ other ∈ floor.desk.invocations, other.name ≠ name := by
    simpa [Desk.invocation?, find?_eq_none] using Desk.invocation?_of_admits admits
  let new := fresh floor.desk.settings floor.desk.world circuit name identity request
  let run := origin floor.desk.settings circuit identity request
  let driven := new.drive floor.desk.world run
  have found : { floor.desk with invocations := floor.desk.invocations ++ [new] }.invocation? name =
      some new := (Desk.invocation?_join admits rfl name).trans (if_pos rfl)
  have updated : (floor.desk.invocations ++ [new]).map (fun other =>
      if other.name == name then driven.1 else other) = floor.desk.invocations ++ [driven.1] := by
    have own : (new.name == name) = true := beq_self_eq_true name
    rw [map_append, map_singleton, if_pos own]
    refine congrArg (· ++ _) ((map_congr_left fun other member => ?_).trans (map_id _))
    exact if_neg (by simpa using others other member)
  let begun : Floor := {
    desk := { floor.desk with invocations := floor.desk.invocations ++ [new] }
    walks := Function.update floor.walks name (some run)
    log := (opening circuit name identity request).map .deed ++ floor.log }
  have walks : begun.walks name = some run := Function.update_self name _ floor.walks
  have begins : Reaches first begun := reaches.tail (.begins admits (.begins entry))
  obtain ⟨marks, same, unedited, drives⟩ := begins.drive found walks
  refine ⟨marks ++ (opening circuit name identity request).map .deed, ?_, fun edit member => ?_, ?_⟩
  · rw [deedsOn_append, same, deedsOn_map_deed, Desk.deeds, if_pos admits, beginning, if_pos entry]
  · rcases mem_append.mp member with member | member
    · exact unedited edit member
    · exact edited_not_mem_map edit member
  · simp only [put, begun, Desk.updateInvocation, Function.update_idem, updated, driven] at drives
    rw [Desk.make_start_of_admits admits, begin_eq, if_pos entry, append_assoc]
    exact drives

end Floor

namespace Desk

variable {desk : Desk} {log : List Deed}

/-- A move at a desk is a run on the floor. -/
theorem Sound.reaches (sound : desk.Sound log) (move : Move) (record : List Mark) :
    ∃ marks, deedsOn marks = desk.deeds move ∧
      Floor.Reaches { desk, log := record } { desk := desk.make move, log := marks ++ record } := by
  by_cases aside : move.Aside fun _ => none
  · exact ⟨_, Floor.deedsOn_marks { desk, log := record } move, .single (.moves aside)⟩
  cases move with
  | start name identity circuit request =>
    by_cases admits : desk.admits name identity = true
    · obtain ⟨marks, same, -, reaches⟩ :=
        @Floor.Reaches.start { desk, log := record } name _ identity circuit request .refl admits
      rw [Function.update_eq_self] at reaches
      exact ⟨marks, same, reaches⟩
    · refine ⟨[], ?_, ?_⟩
      · rw [deeds, if_neg admits]
        rfl
      · rw [Desk.make, if_neg admits]
        exact .refl
  | wake name =>
    rw [Desk.make, Desk.wake, deeds]
    cases found : desk.invocation? name with
    | none => exact ⟨[], rfl, .refl⟩
    | some invocation =>
      simp only
      rcases invocation.wake_cases desk.world with ⟨wakes, turns⟩ |
        ⟨going, world, run, deeds, prompted, wakes, turns⟩
      · rw [wakes, turns]
        have same : desk.updateInvocation name (fun _ => invocation) = desk := by
          refine congrArg (fun invocations => { desk with invocations }) ?_
          refine (map_congr_left fun other member => ?_).trans (map_id _)
          split
          · rename_i named
            obtain ⟨isMember, own⟩ := mem_of_invocation? found
            exact sound.names _ isMember _ member (own.trans (eq_of_beq named).symm)
          · rfl
        refine ⟨[], rfl, ?_⟩
        rw [same]
        exact .refl
      · rw [wakes, turns]
        have named : going.name = name := prompted.identity.1.trans (mem_of_invocation? found).2
        have goes : Floor.Reaches { desk, log := record } _ :=
          .single (.paces found rfl (.goesOn prompted))
        obtain ⟨marks, same, -, drives⟩ := Floor.Reaches.drive goes
          ((Floor.invocation?_put found named name).trans (if_pos rfl)) (Function.update_self ..)
        rw [Floor.put_put named] at drives
        refine ⟨marks ++ deeds.map .deed, ?_, ?_⟩
        · rw [deedsOn_append, same, deedsOn_map_deed]
          rfl
        · simp only [Floor.put, Function.update_eq_self] at drives
          exact drives
  | drop => exact absurd rfl aside
  | _ => exact absurd trivial aside

theorem Sound.reaches_play (sound : desk.Sound log) (moves : List Move) (record : List Mark) :
    ∃ marks, deedsOn marks = desk.chronicle moves ∧
      Floor.Reaches { desk, log := record } { desk := desk.play moves, log := marks ++ record } := by
  induction moves generalizing desk log record with
  | nil => exact ⟨[], rfl, .refl⟩
  | cons move moves ih =>
    obtain ⟨first, same, reaches⟩ := sound.reaches move record
    obtain ⟨second, same', reaches'⟩ := ih (sound.make move).1 (first ++ record)
    refine ⟨second ++ first, ?_, ?_⟩
    · rw [deedsOn_append, same, same', chronicle]
    · rw [append_assoc]
      exact reaches.trans reaches'

/-- Every play at a desk is a run on the floor. -/
theorem Idle.reaches (idle : desk.Idle) (moves : List Move) :
    ∃ marks, deedsOn marks = desk.chronicle moves ∧
      Floor.Reaches { desk } { desk := desk.play moves, log := marks } := by
  obtain ⟨marks, same, reaches⟩ := idle.sound.reaches_play moves []
  rw [append_nil] at reaches
  exact ⟨marks, same, reaches⟩

end Desk

end Pinflow
