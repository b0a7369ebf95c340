import Pinflow.Proofs.Desk.Cancellation
import Pinflow.Proofs.Desk.Events
import Pinflow.Proofs.Desk.FloorInvariant

/-!
# Hits of a breakpoint

A breakpoint counts the visits that it stops, from 1 on since it was set, however the
invocations and the edits interleave. The pause that shows a hit comes later. Until then the
hit is due, and the breakpoint may have been set anew meanwhile, so the pauses since it was
set show the hits since then, those that were due at that time, and none twice.
-/

namespace Pinflow

open Breakpoints Dialogue Invocation List

open Desk (Move)

open Walk (Past questions lastTold verdict)

variable {snapshot : Value} {deeds : List Deed} {log marks : List Mark} {node place graph : String}
  {q : Query} {birth : Birth} {invocation after : Invocation} {world world' : Surroundings}

namespace Breakpoints

/-- What the breakpoints at a node have counted. -/
def counted (breakpoints : Breakpoints) (graph node : String) : List Nat :=
  (breakpoints.filter fun breakpoint => breakpoint.isAt graph node).map Breakpoint.hits

variable (breakpoints : Breakpoints) (graph node : String) {other : String}

theorem counted_append (more : Breakpoints) :
    counted (breakpoints ++ more) graph node =
      breakpoints.counted graph node ++ more.counted graph node := by
  rw [counted, filter_append, map_append]
  rfl

theorem isAt_unique {breakpoint : Breakpoint} (at₁ : breakpoint.isAt graph node = true)
    (at₂ : breakpoint.isAt other place = true) : other = graph ∧ place = node := by
  simp only [Breakpoint.isAt, Bool.and_eq_true, beq_iff_eq] at at₁ at₂
  exact ⟨at₂.1.symm.trans at₁.1, at₂.2.symm.trans at₁.2⟩

theorem counted_update {f : Breakpoint → Breakpoint}
    (keeps : ∀ breakpoint, (f breakpoint).isAt graph node = breakpoint.isAt graph node)
    (other place : String) :
    (breakpoints.update other place f).counted graph node =
      (breakpoints.filter fun breakpoint => breakpoint.isAt graph node).map fun breakpoint =>
        if breakpoint.isAt other place = true then (f breakpoint).hits else breakpoint.hits := by
  rw [counted, update, filter_map, map_map]
  have same : ∀ breakpoint : Breakpoint, (if breakpoint.isAt other place = true then f breakpoint
      else breakpoint).isAt graph node = breakpoint.isAt graph node := by
    intro breakpoint
    split
    · exact keeps breakpoint
    · rfl
  simp only [Function.comp_def, same, apply_ite]

/-- Who is switched on or off keeps what it has counted. -/
theorem counted_enable (other place : String) (enabled : Bool) :
    (breakpoints.update other place fun breakpoint =>
      { breakpoint with enabled }).counted graph node = breakpoints.counted graph node := by
  rw [counted_update]
  · simp only [ite_self]
    rfl
  · exact fun _ => rfl

theorem counted_remove : (breakpoints.remove graph node).counted graph node = [] := by
  simp [counted, remove, filter_filter]

theorem counted_remove_of_ne (apart : ¬ (other = graph ∧ place = node)) :
    (breakpoints.remove other place).counted graph node = breakpoints.counted graph node := by
  rw [counted, remove, filter_filter]
  refine congrArg _ (filter_congr fun breakpoint _ => ?_)
  by_cases isHere : breakpoint.isAt graph node = true
  · have notThere : breakpoint.isAt other place = false :=
      Bool.eq_false_iff.mpr fun isThere => apart (isAt_unique graph node isHere isThere)
    simp [isHere, notThere]
  · simp [isHere]

/-- A visit of the node counts one hit if a breakpoint stops it, and else changes nothing. -/
theorem counted_visit (vars : Fields) :
    match (breakpoints.visit graph node vars).1 with
    | some hits => ∃ k ∈ breakpoints.counted graph node, hits = k + 1 ∧
        (breakpoints.visit graph node vars).2.counted graph node =
          (breakpoints.counted graph node).map (· + 1)
    | none => (breakpoints.visit graph node vars).2 = breakpoints := by
  rw [visit]
  cases isFound : breakpoints.find? graph node with
  | none => rfl
  | some breakpoint =>
    simp only
    by_cases stops : breakpoint.stops vars = true
    · have isHere : breakpoint.isAt graph node = true :=
        @find?_some _ (fun other : Breakpoint => other.isAt graph node) _ _ isFound
      rw [if_pos stops]
      refine ⟨breakpoint.hits, mem_map_of_mem (mem_filter.mpr
        ⟨mem_of_find?_eq_some isFound, isHere⟩), rfl, ?_⟩
      rw [counted_update, counted, map_map]
      · exact map_congr_left fun other member => if_pos (mem_filter.mp member).2
      · exact fun _ => rfl
    · rw [if_neg stops]

/-- A visit of another node counts no hit here. -/
theorem counted_visit_of_ne (vars : Fields) (apart : ¬ (other = graph ∧ place = node)) :
    (breakpoints.visit other place vars).2.counted graph node = breakpoints.counted graph node := by
  rw [visit]
  split
  · split
    · rw [counted_update]
      · exact map_congr_left fun breakpoint member => if_neg fun isThere =>
          apart (isAt_unique graph node (mem_filter.mp member).2 isThere)
      · exact fun _ => rfl
    · rfl
  · rfl

end Breakpoints

/-- The count that a pause before a node shows. -/
def Deed.hit? (graph node : String) : Deed → Option (Option Value)
  | .published ⟨_, about, .paused _ place snapshot⟩ =>
    if about = graph ∧ place = node then some (snapshot.field? "hit_count") else none
  | _ => none

/-- The counts that the pauses before a node show, latest first. -/
def hitsShown (graph node : String) (log : List Deed) : List (Option Value) :=
  log.filterMap (Deed.hit? graph node)

def counts (k : Nat) : List (Option Value) := (List.range k).map fun i => some (.ofNat (i + 1))

theorem reverse_counts_succ (k : Nat) :
    (counts (k + 1)).reverse = some (.ofNat (k + 1)) :: (counts k).reverse := by
  simp [counts, range_succ]

@[simp] theorem length_counts (k : Nat) : (counts k).length = k := by simp [counts]

theorem hitsShown_append (graph node : String) (later earlier : List Deed) :
    hitsShown graph node (later ++ earlier) =
      hitsShown graph node later ++ hitsShown graph node earlier :=
  filterMap_append

theorem hitsShown_eq_nil (none : ∀ deed ∈ deeds, ¬ deed.IsPause) :
    hitsShown graph node deeds = [] := by
  refine filterMap_eq_nil_iff.mpr fun deed member => ?_
  have quiet := none deed member
  cases deed with
  | published event =>
    obtain ⟨session, about, news⟩ := event
    cases news with
    | paused => exact absurd trivial quiet
    | _ => rfl
  | _ => rfl

/-- A visit is stopped exactly if an enabled breakpoint is set there whose condition holds. -/
theorem Breakpoints.isSome_visit_iff (breakpoints : Breakpoints) (graph node : String)
    (vars : Fields) : (breakpoints.visit graph node vars).1.isSome = true ↔
      ∃ breakpoint, breakpoints.find? graph node = some breakpoint ∧ breakpoint.enabled = true ∧
        ∀ condition, breakpoint.condition = some condition → condition.holds vars = true := by
  rw [visit]
  cases breakpoints.find? graph node with
  | none => simp
  | some breakpoint =>
    have stops : breakpoint.stops vars = true ↔ breakpoint.enabled = true ∧
        ∀ condition, breakpoint.condition = some condition → condition.holds vars = true := by
      simp [Breakpoint.stops, Option.all_eq_true]
    simp only [Option.some_inj, exists_eq_left', ← stops]
    split <;> simp [*]

theorem Breakpoint.field?_hit_count (breakpoint : Breakpoint) :
    breakpoint.toValue.field? "hit_count" = some (.ofNat breakpoint.hits) :=
  Fields.get?_insert_self _ _ _

namespace Breakpoints

variable {breakpoints : Breakpoints} {graph : String}

def listed (breakpoints : Breakpoints) (graph node : String) : List (Option Value) :=
  ((breakpoints.ofGraph graph).filter fun breakpoint => breakpoint.node == node).map
    fun breakpoint => breakpoint.toValue.field? "hit_count"

theorem listed_perm (breakpoints : Breakpoints) (graph node : String) :
    (breakpoints.listed graph node).Perm
      ((breakpoints.counted graph node).map fun k => some (.ofNat k)) := by
  have sorted := mergeSort_perm (breakpoints.filter fun breakpoint => breakpoint.graph == graph)
    fun a b => a.node ≤ b.node
  have listed := sorted.filter fun breakpoint => breakpoint.node == node
  rw [filter_filter] at listed
  have same : (fun breakpoint : Breakpoint =>
      breakpoint.node == node && breakpoint.graph == graph) =
      fun breakpoint => breakpoint.isAt graph node := by
    funext breakpoint
    exact Bool.and_comm _ _
  rw [same] at listed
  simp only [Breakpoints.listed, Breakpoint.field?_hit_count, counted, map_map]
  exact listed.map fun breakpoint => some (Value.ofNat breakpoint.hits)

theorem listed_eq {k : Nat} (alone : breakpoints.counted graph node = [k]) :
    breakpoints.listed graph node = [some (.ofNat k)] := by
  have perm := breakpoints.listed_perm graph node
  rw [alone] at perm
  exact perm_singleton.mp perm

end Breakpoints

def Breakpoints.Edit.Sets (graph node : String) : Edit → Prop
  | .set about place condition =>
    about = graph ∧ place = node ∧ ∃ parsed, condition.mapM Condition.parse = .ok parsed
  | .remove _ _ | .enable _ _ _ => False

section edits

variable (debugger : Debugger) {edit : Edit}

/-- A condition that cannot be read changes nothing. -/
theorem Debugger.edit_of_rejected (graph node : String) {condition : Option String} {fault : Fault}
    (rejected : condition.mapM Condition.parse = .error fault) :
    debugger.edit (.set graph node condition) = debugger := by
  rw [edit, setBreakpoint, rejected]
  rfl

theorem Debugger.counted_edit_of_sets (sets : edit.Sets graph node) :
    (debugger.edit edit).breakpoints.counted graph node = [0] := by
  cases edit with
  | set about place condition =>
    obtain ⟨rfl, rfl, parsed, isParsed⟩ := sets
    rw [Debugger.edit, setBreakpoint, isParsed]
    show counted (remove _ about place ++ [_]) about place = _
    rw [counted_append, counted_remove, counted]
    simp [Breakpoint.isAt]
  | _ => exact sets.elim

/-- Any other edit keeps what the breakpoints at a node have counted, unless it takes them away. -/
theorem Debugger.counted_edit_of_not_sets (other : ¬ edit.Sets graph node) :
    (debugger.edit edit).breakpoints.counted graph node =
        debugger.breakpoints.counted graph node ∨
      edit = .remove graph node ∧ (debugger.edit edit).breakpoints.counted graph node = [] := by
  cases edit with
  | set about place condition =>
    refine .inl ?_
    cases isParsed : condition.mapM Condition.parse with
    | error => rw [debugger.edit_of_rejected about place isParsed]
    | ok parsed =>
      have apart : ¬ (about = graph ∧ place = node) :=
        fun same => other ⟨same.1, same.2, parsed, isParsed⟩
      rw [Debugger.edit, setBreakpoint, isParsed]
      show counted (remove _ about place ++ [_]) graph node = _
      have elsewhere : counted [{ graph := about, node := place, condition := parsed }]
          graph node = [] := by
        simpa [counted, Breakpoint.isAt] using apart
      rw [counted_append, counted_remove_of_ne _ _ _ apart, elsewhere, append_nil]
  | remove about place =>
    by_cases same : about = graph ∧ place = node
    · obtain ⟨rfl, rfl⟩ := same
      exact .inr ⟨rfl, counted_remove _ _ _⟩
    · exact .inl (counted_remove_of_ne _ _ _ same)
  | enable about place enabled => exact .inl (counted_enable _ _ _ _ _ _)

end edits

theorem cut_of_append {α : Type} {as bs later earlier : List α} {x : α}
    (split : as ++ bs = later ++ x :: earlier) :
    (∃ between, as = later ++ x :: between ∧ earlier = between ++ bs) ∨
      ∃ front, later = as ++ front ∧ bs = front ++ x :: earlier := by
  rcases append_eq_append_iff.mp split with ⟨front, rfl, same⟩ | ⟨between, rfl, same⟩
  · exact .inr ⟨front, rfl, same⟩
  · cases between with
    | nil => exact .inr ⟨[], by simp, same.symm⟩
    | cons y between =>
      obtain ⟨rfl, rfl⟩ := cons.inj same
      exact .inl ⟨between, rfl, rfl⟩

/-- The count that goes on record when a breakpoint before the node is hit. -/
def Mark.hit? (graph node : String) : Mark → Option (Option Value)
  | .counted _ about place hits =>
    if about = graph ∧ place = node then some (some (.ofNat hits)) else none
  | _ => none

/-- The hits of the breakpoint before a node, latest first. -/
def hitsAt (graph node : String) (log : List Mark) : List (Option Value) :=
  log.filterMap (Mark.hit? graph node)

def Mark.lost? (graph node : String) : Mark → Option (Option Value)
  | .lost _ about place count => if about = graph ∧ place = node then some count else none
  | _ => none

/-- The hits that were never shown because the debugger refused the pause, latest first. -/
def lostAt (graph node : String) (log : List Mark) : List (Option Value) :=
  log.filterMap (Mark.lost? graph node)

def Due.hit? (graph node : String) (due : Due) : Option (Option Value) :=
  if due.graph = graph ∧ due.node = node then some (some (.ofNat due.hits)) else none

/-- The hits that no pause has shown yet. -/
def dueAt (graph node : String) (log : List Mark) : List (Option Value) :=
  (dues log).filterMap (Due.hit? graph node)

theorem hitsAt_append (later earlier : List Mark) :
    hitsAt graph node (later ++ earlier) = hitsAt graph node later ++ hitsAt graph node earlier :=
  filterMap_append

theorem lostAt_append (later earlier : List Mark) :
    lostAt graph node (later ++ earlier) = lostAt graph node later ++ lostAt graph node earlier :=
  filterMap_append

@[simp] theorem hitsAt_map_deed (deeds : List Deed) : hitsAt graph node (deeds.map .deed) = [] :=
  filterMap_eq_nil_iff.mpr (forall_mem_map.mpr fun _ _ => rfl)

@[simp] theorem lostAt_map_deed (deeds : List Deed) : lostAt graph node (deeds.map .deed) = [] :=
  filterMap_eq_nil_iff.mpr (forall_mem_map.mpr fun _ _ => rfl)

/-- What becomes of the breakpoints before a node while these marks go on record. -/
inductive Tally (graph node : String) (debugger after : Debugger) : List Mark → Prop
  | nothing {marks : List Mark} (none : hitsAt graph node marks = [])
      (unedited : ∀ edit, .edited edit ∉ marks)
      (same : after.breakpoints.counted graph node = debugger.breakpoints.counted graph node) :
      Tally graph node debugger after marks
  | hit {marks : List Mark} {k : Nat} (present : k ∈ debugger.breakpoints.counted graph node)
      (one : hitsAt graph node marks = [some (.ofNat (k + 1))])
      (unedited : ∀ edit, .edited edit ∉ marks)
      (more : after.breakpoints.counted graph node =
        (debugger.breakpoints.counted graph node).map (· + 1)) :
      Tally graph node debugger after marks
  | edit (edit : Edit) (edits : after.breakpoints = (debugger.edit edit).breakpoints) :
      Tally graph node debugger after [.edited edit]

theorem Tally.of_deeds {debugger after : Debugger} (deeds : List Deed)
    (same : after.breakpoints = debugger.breakpoints) :
    Tally graph node debugger after (deeds.map .deed) := by
  exact .nothing (hitsAt_map_deed deeds) Floor.edited_not_mem_map (by rw [same])

/-- An edit is all that goes on record with it. -/
theorem Tally.edited {debugger after : Debugger} {later between : List Mark} {edit : Edit}
    (tally : Tally graph node debugger after marks)
    (inside : marks = later ++ .edited edit :: between) :
    later = [] ∧ between = [] ∧ after.breakpoints = (debugger.edit edit).breakpoints := by
  have member : .edited edit ∈ marks := inside ▸ mem_append_cons_self
  cases tally with
  | nothing _ unedited => exact absurd member (unedited edit)
  | hit _ _ unedited => exact absurd member (unedited edit)
  | edit _ edits =>
    cases mem_singleton.mp member
    cases later with
    | nil => exact ⟨rfl, (cons.inj inside).2.symm, edits⟩
    | cons _ more => cases more <;> cases (cons.inj inside).2

/-- Nothing but an edit and a hit changes the breakpoints. -/
theorem Desk.breakpoints_make (desk : Desk) {move : Move}
    (begins : ∀ name identity circuit request, move ≠ .start name identity circuit request)
    (turn : ∀ name, move ≠ .wake name) (unedited : ∀ edit, move ≠ .edit edit) :
    (desk.make move).world.debugger.breakpoints = desk.world.debugger.breakpoints := by
  cases move with
  | start => exact absurd rfl (begins _ _ _ _)
  | wake => exact absurd rfl (turn _)
  | edit => exact absurd rfl (unedited _)
  | drop =>
    rw [make, Desk.drop]
    split
    · rfl
    · split <;> rfl
  | release =>
    rw [make]
    split <;> rfl
  | resume session overrides =>
    obtain ⟨_, _, resumed⟩ := desk.world.debugger.resume_eq session overrides
    exact (congrArg Debugger.breakpoints resumed :)
  | stop session =>
    rw [make]
    cases stopped : desk.world.debugger.stop session with
    | error => rfl
    | ok =>
      obtain ⟨-, rfl⟩ := desk.world.debugger.stop_eq_ok stopped
      rfl
  | _ => rfl

namespace Invocation

/-- What an invocation goes on with leaves the breakpoints alone. -/
theorem Prompted.breakpoints {run : Run}
    (prompted : Prompted invocation world after world' run deeds) :
    world'.debugger.breakpoints = world.debugger.breakpoints := by
  cases prompted with
  | command => rfl
  | @expired _ node => exact (world.debugger.amended_expire node).breakpoints
  | answer => rfl

/-- An answer changes the breakpoints only by a hit that goes on record. -/
theorem Replies.tally {answer : q.Answer}
    (reply : Replies invocation world q answer after world' deeds) :
    Tally graph node world.debugger world'.debugger
      (Floor.notes invocation world ⟨q, answer⟩ ++
        (deeds ++ [Deed.asked invocation.name q]).map .deed) := by
  cases reply with
  | visit place vars =>
    have visit := world.debugger.breakpoints.counted_visit invocation.graph place vars
    cases answer : (world.debugger.visit invocation.graph place vars).1 with
    | none =>
      have answer : (world.debugger.breakpoints.visit invocation.graph place vars).1 = none := answer
      rw [answer] at visit
      exact .of_deeds [_] visit
    | some hits =>
      have answer : (world.debugger.breakpoints.visit invocation.graph place vars).1 = some hits :=
        answer
      rw [answer] at visit
      obtain ⟨k, present, rfl, more⟩ := visit
      by_cases here : invocation.graph = graph ∧ place = node
      · obtain ⟨rfl, rfl⟩ := here
        exact .hit present (filterMap_cons_some (if_pos ⟨rfl, rfl⟩)) (by simp [Floor.notes]) more
      · exact .nothing (filterMap_cons_none (if_neg here)) (by simp [Floor.notes])
          (counted_visit_of_ne _ _ _ _ here)
  | refused gone =>
    rw [Floor.notes, gone]
    exact .nothing rfl (by simp) rfl
  | @impatient session place snapshot debugger begun =>
    rw [Floor.notes, begun, nil_append]
    exact .of_deeds _ ((debugger.amended_expire place).breakpoints.trans
      (world.debugger.amended_beginPause begun).breakpoints)
  | token | opens | acts | ticket | announce => exact .of_deeds [_] rfl

end Invocation

namespace Floor

variable {floor next : Floor} {name : String}

theorem Pace.tally {walk rest : Option Run} {world' : Surroundings}
    (pace : Pace invocation world walk after world' rest marks) :
    Tally graph node world.debugger world'.debugger marks := by
  cases pace with
  | goesOn prompted => exact .of_deeds _ prompted.breakpoints
  | overlooks => exact .of_deeds [_] rfl
  | hears reply => exact reply.tally
  | waits wait =>
    refine .of_deeds _ ?_
    cases wait with
    | pauses begun => exact (world.debugger.amended_beginPause begun).breakpoints
    | _ => rfl
  | @ends result walker =>
    refine .of_deeds _ ?_
    obtain ⟨archive, finished⟩ := invocation.finish_eq world result walker
    obtain ⟨_, _, -, closed⟩ := world.debugger.closing_eq walker.session result
    rw [finished]
    exact (congrArg Debugger.breakpoints closed :)

/-- Every step does one of three things to the breakpoints before a node. -/
theorem Step.tally (step : Step floor next) :
    ∃ marks, next.log = marks ++ floor.log ∧
      Tally graph node floor.desk.world.debugger next.desk.world.debugger marks := by
  cases step with
  | @moves move aside =>
    refine ⟨_, rfl, ?_⟩
    cases move with
    | edit edit => exact .edit edit rfl
    | start | wake => exact aside.elim
    | _ => exact .of_deeds _ (floor.desk.breakpoints_make nofun nofun nofun)
  | begins => exact ⟨_, rfl, .of_deeds _ rfl⟩
  | paces found walks pace => exact ⟨_, rfl, pace.tally⟩

/-- The hits since a breakpoint was set, as the breakpoint counts them. -/
structure Counted (graph node : String) (breakpoints : Breakpoints) (since : List Mark) (k : Nat) :
    Prop where
  hits : hitsAt graph node since = (counts k).reverse
  counted : breakpoints.counted graph node = [k] ∨
    breakpoints.counted graph node = [] ∧ .edited (.remove graph node) ∈ since

/-- As long as no breakpoint is set at the node, hits are counted one by one. -/
theorem Counted.step {debugger after : Debugger} {since : List Mark} {k : Nat}
    (counted : Counted graph node debugger.breakpoints since k)
    (tally : Tally graph node debugger after marks)
    (only : ∀ edit, .edited edit ∈ marks → ¬ edit.Sets graph node) :
    ∃ k, Counted graph node after.breakpoints (marks ++ since) k := by
  obtain ⟨hits, counted⟩ := counted
  cases tally with
  | nothing none unedited same =>
    refine ⟨k, ?_, same ▸ counted.imp_right (And.imp_right (mem_append_right _))⟩
    rw [hitsAt_append, none]
    exact hits
  | hit present one unedited more =>
    rcases counted with alone | ⟨gone, -⟩
    · rw [alone] at present more
      obtain rfl := mem_singleton.mp present
      refine ⟨_, ?_, .inl more⟩
      rw [hitsAt_append, one, hits, reverse_counts_succ]
      rfl
    · rw [gone] at present
      cases present
  | edit edit edits =>
    refine ⟨k, hits, ?_⟩
    rw [edits]
    rcases debugger.counted_edit_of_not_sets (only edit mem_cons_self) with same | ⟨rfl, removed⟩
    · exact same ▸ counted.imp_right (And.imp_right (mem_cons_of_mem _))
    · exact .inr ⟨removed, mem_cons_self⟩

/-- Since a breakpoint was set, its hits were counted from 1 on. -/
theorem Reaches.counted {first : Floor} (reaches : Reaches first floor) (fresh : first.log = [])
    {later earlier : List Mark} {edit : Edit} (record : floor.log = later ++ .edited edit :: earlier)
    (sets : edit.Sets graph node)
    (only : ∀ other, .edited other ∈ later → ¬ other.Sets graph node) :
    ∃ k, Counted graph node floor.desk.world.debugger.breakpoints later k := by
  induction reaches generalizing later with
  | refl =>
    rw [fresh] at record
    cases later <;> cases record
  | @tail before floor _ step ih =>
    obtain ⟨marks, log, tally⟩ := @Step.tally node graph before floor step
    rcases cut_of_append (log.symm.trans record) with ⟨between, inside, -⟩ | ⟨front, rfl, rest⟩
    · -- This very step sets the breakpoint.
      obtain ⟨rfl, -, edits⟩ := tally.edited inside
      exact ⟨0, rfl, .inl (edits ▸ before.desk.world.debugger.counted_edit_of_sets sets)⟩
    · obtain ⟨k, counted⟩ := ih rest fun other member => only other (mem_append_right _ member)
      exact counted.step tally fun other member => only other (mem_append_left _ member)

end Floor

/-- Every hit was shown by a pause, was lost or is due. -/
def Accounted (graph node : String) (log : List Mark) : Prop :=
  (hitsAt graph node log).Perm
    (hitsShown graph node (deedsOn log) ++ lostAt graph node log ++ dueAt graph node log)

/-- Deeds with which nobody pauses leave the account as it is. -/
theorem Accounted.append_deeds (accounted : Accounted graph node log)
    (none : ∀ deed ∈ deeds, ¬ deed.IsPause) (same : dues (deeds.map .deed ++ log) = dues log) :
    Accounted graph node (deeds.map .deed ++ log) := by
  rw [Accounted, hitsAt_append, lostAt_append, deedsOn_append, deedsOn_map_deed, hitsShown_append,
    hitsShown_eq_nil none, hitsAt_map_deed, lostAt_map_deed, dueAt, same]
  exact accounted

section pauses

variable {name session : String} {due : Due}

/-- A hit that is counted is due. -/
theorem Accounted.hit {about : String} {hits : Nat} (accounted : Accounted graph node log) :
    Accounted graph node (.counted name about place hits :: log) := by
  have due : dueAt graph node (.counted name about place hits :: log) =
      (⟨name, about, place, hits⟩ :: dues log).filterMap (Due.hit? graph node) := rfl
  rw [Accounted, due, hitsAt, filterMap_cons, filterMap_cons, Mark.hit?, Due.hit?]
  by_cases here : about = graph ∧ place = node
  · simp only [if_pos here]
    exact (accounted.cons _).trans perm_middle.symm
  · simp only [if_neg here]
    exact accounted

/-- Whoever asks for a pause has nothing due any more. -/
theorem dueAt_asked_pause (owed : duesOf name log = [due]) :
    (dueAt graph node log).Perm ((due.hit? graph node).toList ++
      dueAt graph node (.deed (.asked name (.pause session place snapshot)) :: log)) := by
  have parts := (filter_append_perm (fun due : Due => due.name == name) (dues log)).symm
  rw [← duesOf, owed] at parts
  refine (parts.filterMap _).trans (.of_eq ?_)
  rw [filterMap_append, dueAt, dues, filterMap_cons]
  cases due.hit? graph node <;> rfl

/-- The pause that was due shows its hit. -/
theorem Accounted.shows {owner : String} (accounted : Accounted graph node log)
    (owed : duesOf name log = [due]) (count : snapshot.field? "hit_count" = some (.ofNat due.hits)) :
    Accounted graph node (.deed (.published ⟨session, due.graph, .paused owner due.node snapshot⟩) ::
      .deed (.asked name (.pause session due.node snapshot)) :: log) := by
  have shown : hitsShown graph node (.published ⟨session, due.graph, .paused owner due.node snapshot⟩
      :: .asked name (.pause session due.node snapshot) :: deedsOn log) =
      (due.hit? graph node).toList ++ hitsShown graph node (deedsOn log) := by
    rw [hitsShown, filterMap_cons, Deed.hit?, count, Due.hit?]
    split <;> simp [*] <;> rfl
  have parts := (@dueAt_asked_pause snapshot log node due.node graph name session due owed).append_left
    (hitsShown graph node (deedsOn log) ++ lostAt graph node log)
  refine accounted.trans (parts.trans ((perm_append_comm_assoc _ _ _).trans (.of_eq ?_)))
  rw [deedsOn_deed, deedsOn_deed, shown, append_assoc, append_assoc, append_assoc]
  rfl

/-- The pause that was due is refused, and the hit is lost. -/
theorem Accounted.loses (accounted : Accounted graph node log) (owed : duesOf name log = [due])
    (count : snapshot.field? "hit_count" = some (.ofNat due.hits)) :
    Accounted graph node (.lost name due.graph due.node (snapshot.field? "hit_count") ::
      .deed (.commanded name .stop) ::
      .deed (.asked name (.pause session due.node snapshot)) :: log) := by
  have lost : lostAt graph node (.lost name due.graph due.node (snapshot.field? "hit_count") ::
      .deed (.commanded name .stop) ::
      .deed (.asked name (.pause session due.node snapshot)) :: log) =
      (due.hit? graph node).toList ++ lostAt graph node log := by
    rw [lostAt, filterMap_cons, Mark.lost?, count, Due.hit?]
    split <;> simp [*] <;> rfl
  have parts := (@dueAt_asked_pause snapshot log node due.node graph name session due owed).append_left
    (hitsShown graph node (deedsOn log) ++ lostAt graph node log)
  have moved := (perm_append_comm_assoc (lostAt graph node log) (due.hit? graph node).toList
    (dueAt graph node (.deed (.asked name (.pause session due.node snapshot)) :: log))).append_left
    (hitsShown graph node (deedsOn log))
  rw [← append_assoc] at moved
  refine accounted.trans (parts.trans (moved.trans (.of_eq ?_)))
  rw [lost, append_assoc, append_assoc]
  rfl

end pauses

/-- A walk that asks for a pause was stopped there. -/
theorem Walk.stops_of_pause {past : Past} {session : String}
    (allowed : (verdict past).Allows (.pause session place snapshot)) :
    ∃ hits, verdict past = .stops place hits ∧ snapshot.field? "hit_count" = some (.ofNat hits) := by
  cases stops : verdict past with
  | silent =>
    rw [stops] at allowed
    exact absurd rfl (allowed.2 _ _ _)
  | passes =>
    rw [stops] at allowed
    cases allowed
  | stops =>
    rw [stops] at allowed
    obtain same | ⟨_, _, same, count⟩ := allowed
    · cases same
    · cases same
      exact ⟨_, rfl, count⟩

namespace Floor

variable {floor next : Floor} {name session : String} {past : Past} {walk rest : Option Run}

/-- What an invocation that asks for a pause shows, and that it was due. -/
theorem Settled.due_of_pause {going : Command → Run}
    (settled : Settled birth log (some (ask (Query.pause session place snapshot) going)))
    (kept : Kept birth world deeds invocation past
      (some (ask (Query.pause session place snapshot) going)) true) :
    ∃ hits, duesOf birth.name log = [⟨birth.name, invocation.graph, place, hits⟩] ∧
      snapshot.field? "hit_count" = some (.ofNat hits) ∧
      ∃ owner, pausing world session place snapshot =
        [.published ⟨session, invocation.graph, .paused owner place snapshot⟩] := by
  obtain ⟨past, leads, owed⟩ := settled
  obtain ⟨hits, stops, count⟩ := Walk.stops_of_pause (birth.walk_minds.onward leads).1.allowed
  obtain ⟨rfl, found, present⟩ := kept.present_of_pause
  obtain ⟨-, graph, -⟩ := kept.home present
  obtain ⟨_, _, follows, -⟩ := kept
  refine ⟨hits, ?_, count, found.invocation, ?_⟩
  · rw [owed, owes, stops, follows.graph]
  · rw [pausing, Debugger.report, present, follows.graph, ← graph]

/-- An answer keeps the account. -/
theorem Settled.accounted_hears {going : q.Answer → Run} {answer : q.Answer} {earlier : List Deed}
    (settled : Settled birth log (some (ask q going)))
    (kept : Kept birth world earlier invocation past (some (ask q going)) true)
    (reply : Replies invocation world q answer after world' deeds)
    (accounted : Accounted graph node log) :
    Accounted graph node (notes invocation world ⟨q, answer⟩ ++
      (deeds ++ [Deed.asked invocation.name q]).map .deed ++ log) := by
  cases reply with
  | token | opens | acts | ticket | announce => exact accounted
  | visit place vars =>
    cases (world.debugger.visit invocation.graph place vars).1 with
    | none => exact accounted
    | some hits => exact Accounted.hit accounted
  | refused gone =>
    obtain ⟨hits, owed, count, -⟩ := settled.due_of_pause kept
    rw [notes, gone, kept.name]
    exact accounted.loses owed count
  | @impatient session place snapshot debugger begun =>
    obtain ⟨hits, owed, count, owner, published⟩ := settled.due_of_pause kept
    have shows := @Accounted.shows _ _ _ _ _ session _ owner accounted owed count
    rw [notes, begun, nil_append, published, kept.name, append_assoc, map_append, append_assoc]
    exact shows.append_deeds (fun _ => not_isPause_of_expiry)
      (dues_append_of_silent (silent_map_deed fun _ => aside_of_expiry))

theorem Pace.accounted (pace : Pace invocation world walk after world' rest marks)
    (kept : Kept birth world deeds invocation past walk true) (settled : Settled birth log walk)
    (accounted : Accounted graph node log) : Accounted graph node (marks ++ log) := by
  cases pace with
  | goesOn prompted =>
    exact accounted.append_deeds prompted.not_isPause
      (dues_append_of_silent (silent_map_deed fun _ => prompted.aside))
  | overlooks => exact accounted
  | hears reply => exact settled.accounted_hears kept reply accounted
  | waits wait =>
    cases wait with
    | @pauses session =>
      obtain ⟨hits, owed, count, owner, published⟩ := settled.due_of_pause kept
      rw [published, kept.name]
      exact @Accounted.shows _ _ _ _ _ session _ owner accounted owed count
    | acts | exhausted => exact accounted
  | ends =>
    exact accounted.append_deeds (fun _ => not_isPause_of_done) (dues_append_of_silent
      (@silent_map_deed invocation.name _ fun _ member => .report (name?_of_record_done member)))

/-- Every step keeps the account. -/
theorem Sound.accounted (sound : floor.Sound) (step : Step floor next)
    (accounted : Accounted graph node floor.log) : Accounted graph node next.log := by
  cases step with
  | @moves move aside =>
    have silent : dues (floor.marks move ++ floor.log) = dues floor.log :=
      dues_append_of_silent fun _ => silent_of_mem_marks aside
    cases move with
    | edit => exact accounted
    | start | wake => exact aside.elim
    | _ =>
      exact accounted.append_deeds
        (fun _ member => (Desk.still_of_deeds (by simp) (by simp) member).2) silent
  | begins =>
    refine accounted.append_deeds (fun deed member => ?_) dues_opening
    rcases mem_opening.mp member with rfl | ⟨-, rfl⟩ <;> exact id
  | paces found walks pace =>
    obtain ⟨birth, past, rfl, -, kept, settled⟩ := sound.known found
    rw [walks] at kept settled
    exact pace.accounted kept settled accounted

section runs

variable {desk : Desk}

theorem Reaches.accounted (idle : desk.Idle) (reaches : Reaches { desk } floor) :
    Accounted graph node floor.log := by
  induction reaches with
  | refl => exact .refl _
  | tail before step ih => exact (Reaches.sound idle before).accounted step ih

/-- What was on record when the breakpoints were edited was accounted for. -/
theorem Reaches.accounted_before (idle : desk.Idle) (reaches : Reaches { desk } floor)
    {later earlier : List Mark} {edit : Edit}
    (record : floor.log = later ++ .edited edit :: earlier) : Accounted graph node earlier := by
  induction reaches generalizing later with
  | refl => cases later <;> cases record
  | @tail before floor reached step ih =>
    obtain ⟨marks, log, tally⟩ := @Step.tally node graph before floor step
    rcases cut_of_append (log.symm.trans record) with ⟨between, inside, same⟩ | ⟨front, rfl, rest⟩
    · obtain ⟨-, rfl, -⟩ := tally.edited inside
      rw [same]
      exact Reaches.accounted idle reached
    · exact ih rest

end runs

/-- Whose hit is due is under way and pauses next, in a session that it may have to open first. -/
theorem Sound.pauses_next {due : Due} (sound : floor.Sound) (member : due ∈ dues floor.log) :
    ∃ (q : Query) (going : q.Answer → Run), floor.walks due.name = some (ask q going) ∧
      (q = .openSession ∨ ∃ session snapshot, q = .pause session due.node snapshot ∧
        snapshot.field? "hit_count" = some (.ofNat due.hits)) := by
  obtain ⟨invocation, found⟩ := sound.found (counted_of_mem_dues member) rfl
  obtain ⟨birth, past, named, -, -, settled⟩ := sound.known found
  have isDue : due ∈ duesOf birth.name floor.log :=
    mem_filter.mpr ⟨member, by rw [named]; exact beq_self_eq_true _⟩
  rw [named] at settled
  cases walks : floor.walks due.name with
  | none =>
    rw [walks] at settled
    have nothing : duesOf birth.name floor.log = [] := settled
    rw [nothing] at isDue
    cases isDue
  | some run =>
    rw [walks] at settled
    obtain ⟨past, leads, owed⟩ := settled
    rw [owed, owes] at isDue
    split at isDue
    · rename_i stops
      cases mem_singleton.mp isDue
      cases run with
      | done =>
        have minded := (birth.walk_minds.onward leads).done
        cases stops.symm.trans minded
      | ask q going =>
        have allowed := (birth.walk_minds.onward leads).1.allowed
        rw [stops] at allowed
        exact ⟨q, going, rfl, allowed⟩
    · cases isDue

section visits

variable {identity : Identity} {circuit : Circuit} {request : Request} {vars : Fields}

/-- A visit is recorded as a hit exactly if a breakpoint stops it. -/
theorem counted_iff_of_reply {answer : Option Nat}
    (reply : Replies invocation world (.visit node vars) answer after world' deeds) :
    (∃ hits, .counted invocation.name invocation.graph node hits ∈
      notes invocation world ⟨.visit node vars, answer⟩ ++
        (deeds ++ [Deed.asked invocation.name (.visit node vars)]).map .deed) ↔
      (world.debugger.visit invocation.graph node vars).1.isSome = true := by
  cases reply with
  | visit => cases (world.debugger.visit invocation.graph node vars).1 <;> simp [notes]

/-- An invocation tells the debugger where it is only when it gets the answer. -/
theorem Pace.visits (pace : Pace invocation world walk after world' rest marks)
    (asked : .deed (.asked name (.visit node vars)) ∈ marks) :
    ∃ going, walk = some (ask (Query.visit node vars) going) ∧
      ((∃ hits, .counted invocation.name invocation.graph node hits ∈ marks) ↔
        (world.debugger.visit invocation.graph node vars).1.isSome = true) := by
  cases pace with
  | goesOn prompted => exact (silent_map_deed (fun _ => prompted.aside) _ asked).elim
  | overlooks nothing =>
    cases mem_singleton.mp asked
    exact ⟨_, rfl, counted_iff_of_reply (replies_of_disabled vars nothing)⟩
  | @hears _ _ q going answer deeds reply =>
    have isAsked : .asked name (.visit node vars) ∈ deeds ++ [Deed.asked invocation.name q] := by
      rcases mem_append.mp asked with asked | asked
      · exact absurd asked deed_not_mem_notes
      · obtain ⟨deed, member, isDeed⟩ := mem_map.mp asked
        cases isDeed
        exact member
    rcases mem_append.mp isAsked with member | member
    · exact absurd rfl ((reply.aside member).still.1 _)
    · cases mem_singleton.mp member
      exact ⟨going, rfl, counted_iff_of_reply reply⟩
  | waits wait =>
    obtain ⟨deed, isDeed, same⟩ := mem_map.mp asked
    cases same
    rcases mem_append.mp isDeed with member | member
    · cases wait.aside member
    · cases mem_singleton.mp member
      exact wait.mayWait.elim
  | ends =>
    obtain ⟨deed, isDeed, same⟩ := mem_map.mp asked
    cases same
    cases name?_of_record_done isDeed

/-- What is recorded of a visit: with the variables of the invocation itself, and as a hit exactly
if an enabled breakpoint is set there whose condition holds on them. -/
theorem Sound.counted_iff (sound : floor.Sound) (step : Step floor next)
    (log : next.log = marks ++ floor.log)
    (asked : .deed (.asked name (.visit node vars)) ∈ marks)
    (started : .deed (.started name identity circuit request) ∈ floor.log) :
    vars = (lastTold { context := { args := request.args, event := request.event } }
      (askedBy name (deedsOn floor.log))).context.vars ∧
    ((∃ hits, .counted name circuit.id node hits ∈ marks) ↔ ∃ breakpoint,
      floor.desk.world.debugger.breakpoints.find? circuit.id node = some breakpoint ∧
        breakpoint.enabled = true ∧
        ∀ condition, breakpoint.condition = some condition → condition.holds vars = true) := by
  cases step with
  | moves aside =>
    rw [← append_cancel_right log] at asked
    exact (silent_of_mem_marks aside asked).elim
  | begins =>
    rw [← append_cancel_right log] at asked
    obtain ⟨deed, member, same⟩ := mem_map.mp asked
    cases same
    rcases mem_opening.mp member with same | ⟨-, same⟩ <;> cases same
  | @paces other invocation _ _ _ _ _ found walks pace =>
    obtain rfl := append_cancel_right log
    obtain ⟨isMember, isNamed⟩ := Desk.mem_of_invocation? found
    have own : other = name := by
      rcases pace.own asked with own | nobody
      · exact isNamed.symm.trans (Option.some.inj own).symm
      · cases nobody
    subst own
    obtain ⟨going, rfl, judged⟩ := pace.visits asked
    obtain ⟨birth, past, rfl, -, kept, -⟩ := sound.known found
    rw [walks] at kept
    obtain ⟨_, _, follows, ⟨rfl, rfl⟩, -⟩ := kept
    obtain ⟨-, rfl, rfl⟩ := follows.once _ _ _ (mem_deedsOn.mpr started)
    rw [isNamed, follows.graph] at judged
    refine ⟨?_, judged.trans (isSome_visit_iff _ _ _ _)⟩
    rw [follows.course.askedBy_eq]
    exact (birth.walk_minds.onward follows.course.leads).1.own node vars rfl

end visits

/-- What has come in since balances with what has gone out. -/
theorem perm_since {α : Type} {hits hits' shown shown' lost lost' due due' : List α}
    (all : (hits ++ hits').Perm (shown ++ shown' ++ (lost ++ lost') ++ due))
    (before : hits'.Perm (shown' ++ lost' ++ due')) :
    (hits ++ due').Perm (shown ++ lost ++ due) := by
  classical
  rw [perm_iff_count] at all before ⊢
  intro a
  have now := all a
  have then' := before a
  simp only [count_append] at now then' ⊢
  omega

/-- The hits since the breakpoints were edited, and those that were due then, are shown, lost or
due. -/
theorem Reaches.balance {desk : Desk} (idle : desk.Idle) (reaches : Reaches { desk } floor)
    (graph node : String) {later earlier : List Mark} {edit : Edit}
    (record : floor.log = later ++ .edited edit :: earlier) :
    ((hitsAt graph node later).reverse ++ dueAt graph node earlier).Perm
      (hitsShown graph node (deedsOn later) ++ lostAt graph node later ++
        dueAt graph node floor.log) := by
  have all : Accounted graph node floor.log := Reaches.accounted idle reaches
  have hitsAll : hitsAt graph node floor.log =
      hitsAt graph node later ++ hitsAt graph node earlier := by
    rw [record, hitsAt_append]
    rfl
  have shownAll : hitsShown graph node (deedsOn floor.log) =
      hitsShown graph node (deedsOn later) ++ hitsShown graph node (deedsOn earlier) := by
    rw [record, deedsOn_append, hitsShown_append]
    rfl
  have lostAll : lostAt graph node floor.log =
      lostAt graph node later ++ lostAt graph node earlier := by
    rw [record, lostAt_append]
    rfl
  rw [Accounted, hitsAll, shownAll, lostAll] at all
  exact ((reverse_perm _).append_right _).trans
    (perm_since all (Reaches.accounted_before idle reaches record))

/-- Hits of a breakpoint are neither lost nor counted twice. Whatever happens on a floor after it
was set, and in whatever order, the hits up to the next time a breakpoint is set at that node are
counted 1, 2, 3 and so on, and the last count is listed as long as nobody takes the breakpoint
away. Of these hits and those that were due when it was set, each is shown by one pause, is due,
or is lost. What is due its invocation shows next; only an invocation whose token is cancelled
loses a hit. So the pauses since then show 1, 2, 3 and so on, each once, if nothing was due, all
walks rest and nobody was cancelled. An invocation is stopped exactly if an enabled breakpoint is
set there whose condition holds on its own variables at the moment when it asks. Switching a
breakpoint off or on keeps its count, and a condition that cannot be read changes nothing. -/
theorem breakpoint_hits_accounted {desk : Desk} (idle : desk.Idle) (reaches : Reaches { desk } floor)
    (graph node : String) {later earlier : List Mark} {edit : Edit}
    (record : floor.log = later ++ .edited edit :: earlier) (sets : edit.Sets graph node)
    (only : ∀ other, .edited other ∈ later → ¬ other.Sets graph node) :
    let hits := (hitsAt graph node later).reverse
    let shown := hitsShown graph node (deedsOn later)
    hits = counts hits.length ∧
    (.edited (.remove graph node) ∉ later →
      floor.desk.world.debugger.breakpoints.listed graph node = [some (.ofNat hits.length)]) ∧
    (hits ++ dueAt graph node earlier).Perm
      (shown ++ lostAt graph node later ++ dueAt graph node floor.log) ∧
    (∀ due ∈ dues floor.log, ∃ (q : Query) (going : q.Answer → Run),
      floor.walks due.name = some (ask q going) ∧
      (q = .openSession ∨ ∃ session snapshot, q = .pause session due.node snapshot ∧
        snapshot.field? "hit_count" = some (.ofNat due.hits))) ∧
    (∀ name about place count, .lost name about place count ∈ floor.log →
      .deed (.cancelled name) ∈ floor.log) ∧
    (dueAt graph node earlier = [] → (∀ name, floor.walks name = none) →
      (∀ name, .deed (.cancelled name) ∉ floor.log) → shown.Perm (counts hits.length)) ∧
    floor.desk.world.debugger.channel = announced (deedsOn floor.log) desk.world.debugger.channel ∧
    (∀ (now next : Floor) (marks : List Mark) (name : String) (identity : Identity)
      (circuit : Circuit) (request : Request) (vars : Fields), circuit.id = graph →
      Reaches { desk } now → Step now next → next.log = marks ++ now.log →
      .deed (.started name identity circuit request) ∈ now.log →
      .deed (.asked name (.visit node vars)) ∈ marks →
      vars = (lastTold { context := { args := request.args, event := request.event } }
        (askedBy name (deedsOn now.log))).context.vars ∧
      ((∃ hits, .counted name graph node hits ∈ marks) ↔ ∃ breakpoint,
        now.desk.world.debugger.breakpoints.find? graph node = some breakpoint ∧
          breakpoint.enabled = true ∧
          ∀ condition, breakpoint.condition = some condition → condition.holds vars = true)) ∧
    (∀ (other : Desk) (enabled : Bool),
      (other.make (.edit (.enable graph node enabled))).world.debugger.breakpoints.counted
        graph node = other.world.debugger.breakpoints.counted graph node) ∧
    (∀ (other : Desk) (condition : String) (fault : Fault),
      Condition.parse condition = .error fault →
      other.world.debugger.setBreakpoint graph node (some condition) = .error fault ∧
        other.make (.edit (.set graph node (some condition))) = other) := by
  intro hits shown
  have sound := Reaches.sound idle reaches
  obtain ⟨k, counted⟩ := Reaches.counted reaches rfl record sets only
  have inOrder : hits = counts k := by
    rw [← reverse_reverse (counts k), ← counted.hits]
  have length : hits.length = k := by rw [inOrder, length_counts]
  have balance := Reaches.balance idle reaches graph node record
  refine ⟨by rw [length, inOrder], fun stays => ?_, balance, fun due => sound.pauses_next,
    sound.lost, fun nothing rest calm => ?_, ?_, ?_, fun other enabled => ?_, ?_⟩
  · rw [length]
    exact listed_eq (counted.counted.resolve_right fun removed => stays removed.2)
  · have lost : lostAt graph node later = [] := by
      refine filterMap_eq_nil_iff.mpr fun mark member => ?_
      cases mark with
      | lost name about place count =>
        have isLost : .lost name about place count ∈ floor.log := record ▸ mem_append_left _ member
        exact absurd (sound.lost _ _ _ _ isLost) (calm name)
      | _ => rfl
    have due : dues floor.log = [] := by
      refine eq_nil_iff_forall_not_mem.mpr fun due member => ?_
      obtain ⟨_, _, walks, -⟩ := sound.pauses_next member
      cases (rest due.name).symm.trans walks
    rw [nothing, lost, dueAt, due, append_nil, append_nil, filterMap_nil, append_nil] at balance
    rw [length, ← inOrder]
    exact balance.symm
  · exact Reaches.lasting reaches (Desk.lasting_channel desk.world.debugger.channel) rfl
  · rintro now next marks name identity circuit request vars rfl reached step log started asked
    exact (Reaches.sound idle reached).counted_iff step log asked started
  · exact counted_enable _ _ _ _ _ _
  · intro other condition fault unreadable
    have rejected : (some condition).mapM Condition.parse = .error fault := by
      rw [Option.mapM_some, unreadable]
      rfl
    refine ⟨?_, ?_⟩
    · rw [Debugger.setBreakpoint, rejected]
      rfl
    · rw [Desk.make, Debugger.edit_of_rejected _ _ _ rejected]
      rfl

def setsEntry : Edit := .set "entry" "start" none

/-- A breakpoint is set before the only node of a graph, and an invocation comes to it. -/
theorem breakpoint_hits_accounted_entryOnly :
    ∃ (floor : Floor) (later : List Mark), Reaches { desk := Desk.vacant [] } floor ∧
      floor.log = later ++ [.edited setsEntry] ∧ setsEntry.Sets "entry" "start" ∧
      (∀ other, .edited other ∈ later → ¬ other.Sets "entry" "start") ∧
      hitsShown "entry" "start" (deedsOn later) = [some (.ofNat 1)] ∧
      floor.desk.world.debugger.breakpoints.listed "entry" "start" = [some (.ofNat 1)] := by
  have sets : setsEntry.Sets "entry" "start" := ⟨rfl, rfl, none, rfl⟩
  have set : Reaches { desk := Desk.vacant [] } _ := .single (@Step.moves _ (.edit setsEntry) trivial)
  obtain ⟨later, same, unedited, reaches⟩ :=
    @Reaches.start _ "x" _ ⟨"i", "s", "t"⟩ (.ofGraph entryOnly) { entry := "start" } set rfl
  rw [Function.update_eq_self] at reaches
  have only : ∀ other, .edited other ∈ later → ¬ other.Sets "entry" "start" :=
    fun other member => absurd member (unedited other)
  have shown : hitsShown "entry" "start" (deedsOn later) = [some (.ofNat 1)] := by
    rw [same]
    rfl
  have going : (deedsOn later).all (fun deed => match deed with
      | .cancelled _ => false
      | _ => true) = true := by
    rw [same]
    rfl
  have calm : ∀ name, .deed (.cancelled name) ∉ later ++ [.edited setsEntry] := by
    intro name member
    rcases mem_append.mp member with member | member
    · cases all_eq_true.mp going _ (mem_deedsOn.mpr member)
    · cases mem_singleton.mp member
  obtain ⟨-, listed, -, -, -, rests, -⟩ := breakpoint_hits_accounted (Desk.vacant_idle []) reaches
    "entry" "start" rfl sets only
  have once := (rests rfl (fun _ => rfl) calm).length_eq
  rw [shown, length_counts] at once
  have kept := listed (unedited _)
  rw [← once] at kept
  exact ⟨_, later, reaches, rfl, sets, only, shown, kept⟩

/-- A breakpoint is set anew while an invocation that it has stopped is about to pause. The pause
shows the old count, and the breakpoint has none. Whoever finds its token cancelled comes to the
node as well, and is not stopped. -/
theorem count_shown_after_reset :
    (∃ (floor : Floor) (later earlier : List Mark), Reaches { desk := Desk.vacant [] } floor ∧
      floor.log = later ++ .edited setsEntry :: earlier ∧ (∀ edit, .edited edit ∉ later) ∧
      hitsShown "entry" "start" (deedsOn later) = [some (.ofNat 1)] ∧
      floor.desk.world.debugger.breakpoints.listed "entry" "start" = [some (.ofNat 0)]) ∧
    let cancelled := Move.start "x" ⟨"i", "s", "t"⟩ (.ofGraph entryOnly)
      { entry := "start", cancelled := true }
    hitsShown "entry" "start" (pausingDesk.chronicle [cancelled]) = [] ∧
      (pausingDesk.play [cancelled]).status? "x" = some .stopped ∧
      (pausingDesk.play [cancelled]).world.debugger.breakpoints.listed "entry" "start" =
        [some (.ofNat 0)] := by
  constructor
  · have set : Reaches { desk := Desk.vacant [] } _ :=
      .single (@Step.moves _ (.edit setsEntry) trivial)
    have begun := set.tail
      (@Step.begins _ "x" ⟨"i", "s", "t"⟩ (.ofGraph entryOnly) { entry := "start" } _ _ rfl
        (.begins rfl))
    have looks := begun.tail (@Step.paces _ "x" _ _ _ _ _ _ rfl rfl (.hears .token))
    have hit := looks.tail (@Step.paces _ "x" _ _ _ _ _ _ rfl rfl (.hears (.visit _ _)))
    have reset := hit.tail (@Step.moves _ (.edit setsEntry) trivial)
    obtain ⟨later, shows, unedited, reaches⟩ := @Reaches.drive _ "x" _ _ _ reset rfl rfl
    refine ⟨_, later, _, reaches, rfl, unedited, ?_, ?_⟩
    · rw [shows]
      rfl
    · exact listed_eq rfl
  · exact ⟨rfl, rfl, listed_eq rfl⟩

end Floor

end Pinflow
