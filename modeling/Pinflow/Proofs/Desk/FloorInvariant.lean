import Pinflow.Proofs.Desk.Dues

/-!
# The invariant of a floor

Whatever happens on a floor, every invocation is kept on its course as at a desk, and what is due
is what a walk that is under way is about to show. `Floor.Sound` says so, every step keeps it, and
a floor that begins with an idle desk has it from the start.
-/

namespace Pinflow

open Dialogue Invocation List

open Desk (Move)

open Walk (Past verdict)

variable {name graph : String} {log marks : List Mark} {q : Query} {past : Past} {birth : Birth}
  {invocation after : Invocation} {world world' : Surroundings} {deeds : List Deed} {mark : Mark}

namespace Floor

variable {floor next : Floor} {walk rest : Option Run}

/-- What an invocation has due is what its walk owes, if that is under way. -/
def Settled (birth : Birth) (log : List Mark) : Option Run → Prop
  | some run => ∃ past, birth.walk.Leads past run ∧ duesOf birth.name log = owes birth past
  | none => duesOf birth.name log = []

theorem Settled.append (settled : Settled birth log walk)
    (quiet : ∀ mark ∈ marks, mark.Silent ∨ mark.name? ≠ some birth.name) :
    Settled birth (marks ++ log) walk := by
  cases walk with
  | some =>
    obtain ⟨past, leads, owed⟩ := settled
    exact ⟨past, leads, (duesOf_append quiet).trans owed⟩
  | none => exact (duesOf_append quiet).trans settled

theorem deed_not_mem_notes {deed : Deed} {exchange : Exchange Query.interface} :
    .deed deed ∉ notes invocation world exchange := by
  rw [← mem_deedsOn, deedsOn_notes]
  exact not_mem_nil

theorem name?_of_mem_notes {exchange : Exchange Query.interface}
    (member : mark ∈ notes invocation world exchange) : mark.name? = some invocation.name := by
  unfold notes at member
  split at member
  · rw [mem_singleton.mp member]
    rfl
  · split at member
    · cases member
    · rw [mem_singleton.mp member]
      rfl
  · cases member

/-- An answer leaves due what the walk then owes. -/
theorem Settled.hears {next : q.Answer → Run} {answer : q.Answer}
    (settled : Settled birth log (some (ask q next))) (named : invocation.name = birth.name)
    (graph : invocation.graph = birth.circuit.id)
    (reply : Replies invocation world q answer after world' deeds) :
    Settled birth (notes invocation world ⟨q, answer⟩ ++
      (deeds ++ [Deed.asked invocation.name q]).map .deed ++ log) (some (next answer)) := by
  obtain ⟨past, leads, owed⟩ := settled
  refine ⟨_, leads.step answer, ?_⟩
  have due := reply.duesOf_eq named graph (birth.walk_minds.onward leads).1.allowed
    (birth.walk_careful.onward leads).1 owed
  simpa only [append_assoc, map_append, map_cons, map_nil, cons_append, nil_append] using due

namespace Pace

variable (pace : Pace invocation world walk after world' rest marks)
include pace

/-- What goes on record is about nobody else. -/
theorem own (member : mark ∈ marks) :
    mark.name? = some invocation.name ∨ mark.name? = none := by
  cases pace with
  | goesOn prompted =>
    obtain ⟨deed, isDeed, rfl⟩ := mem_map.mp member
    exact (prompted.aside isDeed).name?
  | overlooks =>
    rw [mem_singleton.mp member]
    exact .inl rfl
  | hears reply =>
    rcases mem_append.mp member with member | member
    · exact .inl (name?_of_mem_notes member)
    · obtain ⟨deed, isDeed, rfl⟩ := mem_map.mp member
      rcases mem_append.mp isDeed with isDeed | isDeed
      · exact (reply.aside isDeed).name?
      · rw [mem_singleton.mp isDeed]
        exact .inl rfl
  | waits wait =>
    obtain ⟨deed, isDeed, rfl⟩ := mem_map.mp member
    rcases mem_append.mp isDeed with isDeed | isDeed
    · exact .inr (wait.aside isDeed)
    · rw [mem_singleton.mp isDeed]
      exact .inl rfl
  | ends =>
    obtain ⟨deed, isDeed, rfl⟩ := mem_map.mp member
    exact .inr (name?_of_record_done isDeed)

/-- What is no deed goes on record with the answer to a question. -/
theorem noted (member : mark ∈ marks) (other : ∀ deed, mark ≠ .deed deed) :
    ∃ (q : Query) (next : q.Answer → Run) (answer : q.Answer),
      walk = some (ask q next) ∧ mark ∈ notes invocation world ⟨q, answer⟩ ∧
      .deed (.asked invocation.name q) ∈ marks := by
  have plain : ∀ {deeds : List Deed}, mark ∉ deeds.map .deed := by
    intro deeds member
    obtain ⟨deed, -, rfl⟩ := mem_map.mp member
    exact other deed rfl
  cases pace with
  | goesOn | waits | ends => exact absurd member plain
  | overlooks => exact absurd (mem_singleton.mp member) (other _)
  | @hears _ _ q next answer =>
    rcases mem_append.mp member with member | member
    · exact ⟨q, next, answer, rfl, member, mem_append_right _ (mem_map_of_mem (by simp))⟩
    · exact absurd member plain

theorem spoken (member : mark ∈ marks) (isName : mark.name? = some name) :
    ∃ deed, .deed deed ∈ marks ∧ deed.name? = some name := by
  by_cases isDeed : ∃ deed, mark = .deed deed
  · obtain ⟨deed, rfl⟩ := isDeed
    exact ⟨deed, member, isName⟩
  · obtain ⟨q, _, _, -, isNote, asked⟩ :=
      pace.noted member fun deed same => isDeed ⟨deed, same⟩
    exact ⟨_, asked, (name?_of_mem_notes isNote).symm.trans isName⟩

/-- The debugger lets an invocation pause unless its token was cancelled. -/
theorem cancelled_of_lost {node : String} {count : Option Value}
    (kept : Kept birth world deeds invocation past walk true)
    (member : .lost name graph node count ∈ marks) : invocation.cancelled = true := by
  obtain ⟨q, next, answer, rfl, isNote, -⟩ := pace.noted member (by simp)
  unfold notes at isNote
  split at isNote
  · cases mem_singleton.mp isNote
  · rename_i session place snapshot _ same
    cases same
    obtain ⟨rfl, found, present⟩ := kept.present_of_pause
    split at isNote
    · cases isNote
    · rename_i gone
      rw [Debugger.beginPause, present] at gone
      simp only at gone
      split at gone
      · rename_i stopped
        exact (kept.home present).2.2 (eq_of_beq stopped)
      · cases gone
  · cases isNote

/-- What is due stays what the walk owes. -/
theorem settled (kept : Kept birth world deeds invocation past walk true)
    (settled : Settled birth log walk) : Settled birth (marks ++ log) rest := by
  obtain ⟨standing, stood, follows, placed⟩ := kept
  cases pace with
  | goesOn prompted =>
    obtain ⟨stands, -⟩ := placed
    obtain ⟨q, answer, rfl, going⟩ := follows.prompted stands prompted
    refine ⟨_, going.course.leads, ?_⟩
    rw [Walk.owes_of_answer stands.rests]
    exact (duesOf_append fun mark member =>
      .inl (silent_map_deed (fun _ => prompted.aside) mark member)).trans settled
  | overlooks nothing =>
    exact settled.hears follows.name follows.graph (replies_of_disabled _ nothing)
  | hears reply => exact settled.hears follows.name follows.graph reply
  | waits wait =>
    obtain ⟨past, leads, owed⟩ := settled
    have due := wait.duesOf_eq follows.name (birth.walk_minds.onward leads).1.allowed owed
    simpa only [Settled, append_assoc, map_append, map_cons, map_nil, cons_append, nil_append]
      using due
  | @ends result walker =>
    obtain ⟨past, leads, owed⟩ := settled
    have silent := @silent_map_deed birth.name (invocation.record world (done (result, walker)))
      fun _ member => .report (name?_of_record_done member)
    refine (duesOf_append fun mark member => .inl (silent mark member)).trans (owed.trans ?_)
    rw [owes, (birth.walk_minds.onward leads).done]

end Pace

/-- Every invocation is kept on its course and has due what its walk owes. Who is on record has
done something, and who has lost a hit was cancelled. -/
structure Sound (floor : Floor) : Prop where
  desk : floor.desk.Sound (deedsOn floor.log) floor.walks true
  spoken : ∀ mark ∈ floor.log, ∀ name, mark.name? = some name →
    ∃ deed, .deed deed ∈ floor.log ∧ deed.name? = some name
  lost : ∀ name graph node count, .lost name graph node count ∈ floor.log →
    .deed (.cancelled name) ∈ floor.log
  settled : ∀ birth, birth.settings = floor.desk.settings → .deed birth.deed ∈ floor.log →
    Settled birth floor.log (floor.walks birth.name)

namespace Sound

variable (sound : floor.Sound)
include sound

/-- Who is on record is there. -/
theorem found (member : mark ∈ floor.log) (isName : mark.name? = some name) :
    ∃ invocation, floor.desk.invocation? name = some invocation := by
  obtain ⟨deed, isDeed, same⟩ := sound.spoken mark member name isName
  obtain ⟨invocation, isMember, named⟩ := sound.desk.named deed (mem_deedsOn.mpr isDeed) name same
  exact ⟨invocation, sound.desk.invocation?_eq isMember named⟩

/-- Who is there began at some time, and is kept on its course. -/
theorem known (found : floor.desk.invocation? name = some invocation) :
    ∃ birth past, birth.name = name ∧ .deed birth.deed ∈ floor.log ∧
      Kept birth floor.desk.world (deedsOn floor.log) invocation past (floor.walks birth.name) true ∧
      Settled birth floor.log (floor.walks birth.name) := by
  obtain ⟨isMember, rfl⟩ := Desk.mem_of_invocation? found
  obtain ⟨birth, past, settings, kept⟩ := sound.desk.kept invocation isMember
  have born := mem_deedsOn.mp kept.born
  exact ⟨birth, past, kept.name.symm, born, kept.name ▸ kept, sound.settled birth settings born⟩

/-- An invocation does what it does next. -/
theorem paces (found : floor.desk.invocation? name = some invocation)
    (walks : floor.walks name = walk)
    (pace : Pace invocation floor.desk.world walk after world rest marks) :
    (floor.put name after world rest marks).Sound := by
  obtain ⟨isMember, rfl⟩ := Desk.mem_of_invocation? found
  obtain ⟨birth, past, settings, kept⟩ := sound.desk.kept invocation isMember
  rw [walks] at kept
  have desk : (floor.put invocation.name after world rest marks).desk.Sound
      (deedsOn (marks ++ floor.log)) (floor.put invocation.name after world rest marks).walks
      true := by
    rw [deedsOn_append]
    refine (sound.desk.update isMember rfl (fun _ => after) world (deedsOn marks) ?_ ?_ ?_
      (fun _ differs => Function.update_of_ne differs _ _) fun _ => rfl).1
    · intro birth past kept
      rw [walks] at kept
      obtain ⟨past', kept', since⟩ := pace.further kept
      exact ⟨past', since.grows, (floor.walks_put_self ..).symm ▸ kept'⟩
    · obtain ⟨_, _, since⟩ := pace.further kept
      rw [kept.identity]
      exact since.apart
    · exact fun deed isDeed => pace.own (mem_deedsOn.mp isDeed)
  refine ⟨desk, fun mark member other isName => ?_, fun other graph node count member => ?_,
    fun owner same born => ?_⟩
  · rcases mem_append.mp member with member | member
    · obtain ⟨deed, isDeed, isName⟩ := pace.spoken member isName
      exact ⟨deed, mem_append_left _ isDeed, isName⟩
    · obtain ⟨deed, isDeed, isName⟩ := sound.spoken mark member other isName
      exact ⟨deed, mem_append_right _ isDeed, isName⟩
  · refine mem_append_right _ ?_
    rcases mem_append.mp member with member | member
    · have token := pace.cancelled_of_lost kept member
      obtain rfl : other = invocation.name := (pace.own member).elim Option.some.inj nofun
      obtain ⟨_, _, follows, -⟩ := kept
      rw [follows.name]
      exact mem_deedsOn.mp (follows.token.mp token)
    · exact sound.lost other graph node count member
  · by_cases mine : owner.name = invocation.name
    · obtain rfl : owner = birth := by
        refine desk.born_unique (mem_deedsOn.mpr born) ?_ (mine.trans kept.name)
          (same.trans settings.symm)
        rw [deedsOn_append]
        exact mem_append_right _ kept.born
      rw [mine, walks_put_self]
      refine pace.settled kept ?_
      rw [← walks, ← mine]
      exact sound.settled owner settings (mem_deedsOn.mp kept.born)
    · have other : ∀ mark ∈ marks, mark.name? ≠ some owner.name := by
        intro mark member isName
        rcases pace.own member with own | nobody
        · exact mine (Option.some.inj (isName.symm.trans own))
        · cases nobody.symm.trans isName
      have old := (mem_append.mp born).resolve_left fun member => other _ member rfl
      have under : (floor.put invocation.name after world rest marks).walks owner.name =
          floor.walks owner.name := Function.update_of_ne mine _ _
      rw [under]
      exact (sound.settled owner same old).append fun mark member => .inr (other mark member)

end Sound

theorem silent_of_mem_marks {move : Move} (aside : move.Aside floor.walks)
    (member : mark ∈ floor.marks move) : mark.Silent := by
  cases move with
  | start | wake => exact aside.elim
  | edit =>
    rw [mem_singleton.mp member]
    trivial
  | _ =>
    obtain ⟨deed, isDeed, rfl⟩ := mem_map.mp member
    obtain ⟨_, _, _, _, same, -⟩ | ⟨_, _, same, -⟩ | ⟨_, _, -, reported⟩ | ⟨_, rfl⟩ | ⟨_, rfl⟩ :=
      Desk.mem_deeds_cases isDeed
    · cases same
    · cases same
    · cases deed with
      | asked | started => cases name?_of_report reported
      | _ => trivial
    · trivial
    · trivial

/-- Somebody makes a move. -/
theorem Sound.moves (sound : floor.Sound) {move : Move} (aside : move.Aside floor.walks) :
    Sound { floor with desk := floor.desk.make move, log := floor.marks move ++ floor.log } := by
  have silent : ∀ mark ∈ floor.marks move, mark.Silent := fun _ => silent_of_mem_marks aside
  refine ⟨?_, fun mark member name isName => ?_, fun name graph node count member => ?_,
    fun birth settings born => ?_⟩
  · rw [deedsOn_append, deedsOn_marks]
    exact (sound.desk.moves aside).1
  · rcases mem_append.mp member with new | old
    · have isSilent := silent mark new
      cases mark with
      | deed deed => exact ⟨deed, member, isName⟩
      | edited => cases isName
      | counted | lost => exact isSilent.elim
    · obtain ⟨deed, isDeed, same⟩ := sound.spoken mark old name isName
      exact ⟨deed, mem_append_right _ isDeed, same⟩
  · have old := (mem_append.mp member).resolve_left fun new => silent _ new
    exact mem_append_right _ (sound.lost name graph node count old)
  · have old := (mem_append.mp born).resolve_left fun new => silent _ new
    exact (sound.settled birth (settings.trans (Desk.settings_make _ _)) old).append
      fun mark member => .inl (silent mark member)

section begins

variable {identity : Identity} {circuit : Circuit} {request : Request}

theorem dues_opening :
    dues ((opening circuit name identity request).map .deed ++ log) = dues log := by
  rw [opening]
  split <;> rfl

/-- Somebody new comes in. -/
theorem Sound.join (sound : floor.Sound) (birth : Birth)
    (settings : birth.settings = floor.desk.settings)
    (admits : floor.desk.admits birth.name birth.identity = true) {new : Invocation}
    {run : Option Run} (starts : ∀ first, run = some first → first = birth.walk)
    (kept : Kept birth floor.desk.world
      (opening birth.circuit birth.name birth.identity birth.request ++ deedsOn floor.log) new []
      run true) :
    Sound {
      desk := { floor.desk with invocations := floor.desk.invocations ++ [new] }
      walks := Function.update floor.walks birth.name run
      log := (opening birth.circuit birth.name birth.identity birth.request).map .deed ++
        floor.log } := by
  obtain ⟨others, -, unknown⟩ := sound.desk.admitted admits
  have nobody : ∀ mark ∈ floor.log, mark.name? ≠ some birth.name := by
    intro mark member isName
    obtain ⟨deed, isDeed, same⟩ := sound.spoken mark member _ isName
    exact unknown deed (mem_deedsOn.mpr isDeed) same
  have self : Function.update floor.walks birth.name run birth.name = run :=
    Function.update_self ..
  have desk : { floor.desk with invocations := floor.desk.invocations ++ [new] }.Sound
      (opening birth.circuit birth.name birth.identity birth.request ++ deedsOn floor.log)
      (Function.update floor.walks birth.name run) true :=
    (sound.desk.append settings others (self.symm ▸ kept) (Since.opening birth _ _)
      (fun _ differs => Function.update_of_ne differs _ _) fun _ => rfl).1
  have nothing : duesOf birth.name
      ((opening birth.circuit birth.name birth.identity birth.request).map .deed ++ floor.log) =
        [] := by
    rw [duesOf, dues_opening]
    refine filter_eq_nil_iff.mpr fun due member isOwn => ?_
    exact nobody _ (counted_of_mem_dues member) (congrArg some (eq_of_beq isOwn))
  refine ⟨?_, fun mark member other isName => ?_, fun other graph node count member => ?_,
    fun owner same born => ?_⟩
  · rw [deedsOn_append, deedsOn_map_deed]
    exact desk
  · rcases mem_append.mp member with new | old
    · obtain ⟨deed, isDeed, rfl⟩ := mem_map.mp new
      exact ⟨deed, member, isName⟩
    · obtain ⟨deed, isDeed, same⟩ := sound.spoken mark old other isName
      exact ⟨deed, mem_append_right _ isDeed, same⟩
  · have old := (mem_append.mp member).resolve_left (by simp)
    exact mem_append_right _ (sound.lost other graph node count old)
  · by_cases mine : owner.name = birth.name
    · rw [← mem_deedsOn, deedsOn_append, deedsOn_map_deed] at born
      obtain rfl := desk.born_unique born kept.born mine (same.trans settings.symm)
      simp only [self]
      cases run with
      | none => exact nothing
      | some =>
        cases starts _ rfl
        exact ⟨[], .start, nothing⟩
    · have own : ∀ mark ∈
          (opening birth.circuit birth.name birth.identity birth.request).map Mark.deed,
          mark.name? ≠ some owner.name := by
        intro mark member isName
        obtain ⟨deed, isOpening, rfl⟩ := mem_map.mp member
        rcases mem_opening.mp isOpening with rfl | ⟨-, rfl⟩ <;>
          exact mine (Option.some.inj isName).symm
      have old := (mem_append.mp born).resolve_left fun new => own _ new rfl
      simp only [Function.update_of_ne mine]
      exact (sound.settled owner same old).append fun mark member => .inr (own mark member)

end begins

/-- Every step keeps the invariant. -/
theorem Sound.step (sound : floor.Sound) (step : Step floor next) : next.Sound := by
  cases step with
  | moves aside => exact sound.moves aside
  | @begins name identity circuit request _ _ admits enters =>
    obtain ⟨-, free, unknown⟩ := sound.desk.admitted admits
    let birth : Birth := ⟨floor.desk.settings, name, identity, circuit, request⟩
    cases enters with
    | begins =>
      exact sound.join birth rfl admits (fun _ same => (Option.some.inj same).symm)
        (.begins free unknown)
    | rejects => exact sound.join birth rfl admits nofun (.rejects free unknown)
  | paces found walks pace => exact sound.paces found walks pace

/-- On a floor that began with an idle desk the invariant holds throughout. -/
theorem Reaches.sound {desk : Desk} (idle : desk.Idle) (reaches : Reaches { desk } floor) :
    floor.Sound := by
  induction reaches with
  | refl => exact ⟨idle.sound, forall_mem_nil _, nofun, nofun⟩
  | tail _ step ih => exact ih.step step

end Floor

end Pinflow
