import Pinflow.Proofs.Desk.Lives
import Pinflow.Proofs.Desk.Stopping
import Pinflow.Proofs.Walk.Entering

/-!
# Pauses

An invocation that publishes a pause has come to a node and not begun its executor. Nothing
of it changes until its command is on record. With a resume it writes the overrides, looks at
its token and starts the executor, with nothing in between; with a stop it starts none any
more. All of this is read off the course of the invocation: the questions on record are those
of its walk, and the walk has no choice on the threshold of a node.
-/

namespace Pinflow

open Circuit Dialogue Invocation List Walk

variable {next : Command → Run} {overrides : List (String × Value)} {asked : List Query}
  {identity : Identity} {snapshot : Value} {state walker : Walker} {circuit : Circuit}
  {request : Request} {node id name session : String} {command : Command} {hits : Nat} {rest : Run}
  {q : Query} {before front past newer older : Past} {log earlier : List Deed} {standing : Standing}

/-- Two tails of one list that begin with an entry that is counted, and count as many, are
the same. -/
theorem suffix_eq_of_length {α β : Type} {count : α → Option β} {a b : α} {as bs whole : List α}
    (first : a :: as <:+ whole) (second : b :: bs <:+ whole) (counts : (count a).isSome = true)
    (also : (count b).isSome = true)
    (same : (as.filterMap count).length = (bs.filterMap count).length) : a :: as = b :: bs := by
  -- The longer one would count more.
  have longer : ∀ {c d : α} {cs ds : List α}, (count c).isSome = true →
      (cs.filterMap count).length = (ds.filterMap count).length → c :: cs <:+ d :: ds →
      c :: cs = d :: ds := by
    intro c d cs ds counts same suffix
    rcases suffix_cons_iff.mp suffix with alike | inside
    · exact alike
    · have shorter := (inside.filterMap count).length_le
      obtain ⟨value, isCounted⟩ := Option.isSome_iff_exists.mp counts
      rw [filterMap_cons_some isCounted, length_cons] at shorter
      omega
  rcases suffix_or_suffix_of_suffix first second with suffix | suffix
  · exact longer counts same suffix
  · exact (longer also same.symm suffix).symm

theorem Walk.questions_append (newer older : Past) :
    questions (newer ++ older) = questions newer ++ questions older := map_append

theorem Walk.commands_append (newer older : Past) :
    commands (newer ++ older) = commands newer ++ commands older := by
  induction newer with
  | nil => rfl
  | cons x newer ih =>
    obtain ⟨q, answer⟩ := x
    cases q with
    | pause => exact congrArg (answer :: ·) ih
    | _ => exact ih

namespace Course

variable {origin : Run} {later : List Deed}
/-- A question that does not wait is answered as soon as it is put. -/
theorem before_answer {answer : q.Answer}
    (course : Course false origin name session log .busy (⟨q, answer⟩ :: past) rest)
    (prompt : ¬ q.MayWait) :
    ∃ known next, log = .asked name q :: known ∧ Fits name session log q answer ∧
      Course false origin name session known .busy past (ask q next) := by
  cases course with
  | hears before fits =>
    cases before with
    | asks before => exact ⟨_, _, rfl, fits, before⟩
    | beside before rests => exact absurd rests prompt
  | obeys => exact absurd trivial prompt
  | beside before rests => exact rests.elim

/-- How a pause ended. -/
theorem before_command
    (course : Course false origin name session log .busy (⟨.pause id node snapshot, command⟩ :: past)
      rest) :
    ∃ deeds known next, log = deeds ++ known ∧ askedBy name deeds = [] ∧
      (∀ overrides, command = .resume overrides → deeds = [.commanded name command]) ∧
      Course false origin name session known (.asking (.pause id node snapshot)) past
        (ask (.pause id node snapshot) next) := by
  cases course with
  | hears before fits speaks => exact absurd trivial speaks
  | obeys before silent once bare => exact ⟨_, _, _, rfl, silent, bare, before⟩
  | beside before rests => exact rests.elim

/-- Questions that do not wait leave no room for a cancellation. -/
theorem before_all {x : Exchange Query.interface}
    (course : Course false origin name session log .busy (front ++ x :: older) rest)
    (prompt : ∀ y ∈ front, ¬ y.query.MayWait) :
    ∃ known going, known <:+ log ∧ (.cancelled name ∈ log ↔ .cancelled name ∈ known) ∧
      Course false origin name session known .busy (x :: older) going := by
  induction front generalizing log rest with
  | nil => exact ⟨log, rest, suffix_rfl, Iff.rfl, course⟩
  | cons y front ih =>
    obtain ⟨known, next, rfl, -, before⟩ := course.before_answer (prompt y mem_cons_self)
    obtain ⟨first, going, suffix, same, there⟩ :=
      ih before fun z member => prompt z (mem_cons_of_mem _ member)
    refine ⟨first, going, suffix.trans (suffix_cons _ _), ?_, there⟩
    simpa using same

/-- The questions on record when an invocation rests are those of its exchanges, and perhaps
one that has to wait. -/
theorem askedBy_of_rests (course : Course false origin name session log standing past rest)
    (rests : standing.Rests) :
    ∃ pending : Option Query, askedBy name log = pending.toList ++ questions past ∧
      ∀ q ∈ pending, q.MayWait := by
  cases standing with
  | busy => exact rests.elim
  | asking q =>
    refine ⟨some q, course.askedBy_eq.1, fun r member => ?_⟩
    cases member
    exact rests
  | ended =>
    rcases course.askedBy_eq with same | ⟨q, next, -, waits, same⟩
    · exact ⟨none, same, by simp⟩
    · refine ⟨some q, same, fun r member => ?_⟩
      cases member
      exact waits

section pause

/-- Since it asked for a pause, an invocation has rested or taken a command. -/
theorem since_pause (course : Course false origin name session log standing past rest)
    (rests : standing.Rests)
    (record : log = later ++ .asked name (.pause id node snapshot) :: earlier) :
    ∃ before next, Course false origin name session earlier .busy before
        (ask (.pause id node snapshot) next) ∧
      (past = before ∧ askedBy name later = [] ∧ commandsTo name later = [] ∨
        ∃ newer command, past = newer ++ ⟨.pause id node snapshot, command⟩ :: before ∧
          commandsTo name later ≠ [] ∧
          ∃ pending : Option Query, askedBy name later = pending.toList ++ questions newer ∧
            ∀ q ∈ pending, q.MayWait) := by
  obtain ⟨before, next, ⟨newer, rfl⟩, there⟩ := course.split record
  obtain ⟨pending, asked, waits⟩ := course.askedBy_of_rests rests
  have commanded := course.commandsTo_eq
  have earlierAsked : askedBy name earlier = questions before := there.askedBy_eq
  have earlierCommands := there.commandsTo_eq
  refine ⟨before, next, there, ?_⟩
  -- The questions since then are those of the newer exchanges, and so are the commands.
  have since : askedBy name later ++ [.pause id node snapshot] =
      pending.toList ++ questions newer := by
    rw [record, askedBy_append, askedBy_asked, questions_append, append_cons,
      ← append_assoc, ← earlierAsked] at asked
    exact append_cancel_right asked
  have commands : commandsTo name later = Walk.commands newer := by
    rw [record, commandsTo_append, commands_append, ← earlierCommands] at commanded
    exact append_cancel_right commanded
  rcases eq_nil_or_concat newer with rfl | ⟨newest, ⟨q, answer⟩, rfl⟩
  · refine .inl ⟨rfl, eq_nil_of_length_eq_zero ?_, commands⟩
    have length := congrArg length since
    cases pending <;> simp [questions] at length
    simp [length]
  · rw [concat_eq_append, questions_append, ← append_assoc] at since
    obtain ⟨newly, same⟩ := append_inj' since rfl
    cases (cons.inj same).1
    refine .inr ⟨newest, answer, ?_, ?_, pending, newly, waits⟩
    · rw [concat_eq_append, append_assoc, singleton_append]
    · rw [commands, concat_eq_append, commands_append]
      exact append_ne_nil_of_right_ne_nil _ (cons_ne_nil _ _)

/-- The first command after a pause is the one that ended it, and nothing was asked before. -/
theorem command_of_pause {given : Command} {known : List Deed} {going : Run}
    (asking : Course false origin name session earlier .busy before
      (ask (.pause id node snapshot) next))
    (there : Course false origin name session known .busy (⟨.pause id node snapshot, command⟩ :: before)
      going) (suffix : known <:+ log) {after between : List Deed}
    (record : log =
      after ++ .commanded name given :: (between ++ .asked name (.pause id node snapshot) :: earlier))
    (first : commandsTo name between = []) :
    given = command ∧ askedBy name between = [] ∧
      ∀ overrides, command = .resume overrides →
        known = .commanded name given :: (between ++ .asked name (.pause id node snapshot) :: earlier) := by
  obtain ⟨deeds, base, _, rfl, silent, bare, paused⟩ := there.before_command
  have since : .commanded name given ::
      (between ++ .asked name (.pause id node snapshot) :: earlier) <:+ log := ⟨after, record.symm⟩
  -- Both records have one command more than when the pause was asked for.
  have commands : commandsTo name (between ++ .asked name (.pause id node snapshot) :: earlier) =
      Walk.commands before := by
    rw [commandsTo_append, first, ← asking.commandsTo_eq]
    rfl
  have taken : commandsTo name (deeds ++ base) = command :: Walk.commands before :=
    there.commandsTo_eq
  have asked : askedBy name (deeds ++ base) = .pause id node snapshot :: questions before := by
    rw [askedBy_append, silent]
    exact paused.askedBy_eq.1
  -- So the command is in the record of the one who took it.
  have inside : .commanded name given ::
      (between ++ .asked name (.pause id node snapshot) :: earlier) <:+ deeds ++ base := by
    rcases suffix_or_suffix_of_suffix since suffix with inside | inside
    · exact inside
    · rcases suffix_cons_iff.mp inside with same | shorter
      · exact same ▸ suffix_rfl
      · have length := (shorter.filterMap (Deed.command? name)).length_le
        change (commandsTo name _).length ≤ (commandsTo name _).length at length
        rw [taken, commands, length_cons] at length
        omega
  refine ⟨?_, ?_, ?_⟩
  · have suffix := inside.filterMap (Deed.command? name)
    change commandsTo name _ <:+ commandsTo name _ at suffix
    rw [commandsTo_commanded, commands, taken] at suffix
    exact (cons.inj (suffix.eq_of_length rfl)).1
  · have length := (inside.filterMap (Deed.query? name)).length_le
    change (askedBy name (.commanded name given :: _)).length ≤ (askedBy name _).length at length
    have all : askedBy name (.commanded name given ::
        (between ++ .asked name (.pause id node snapshot) :: earlier)) =
        askedBy name between ++ .pause id node snapshot :: questions before := by
      have earlierAsked : askedBy name earlier = questions before := asking.askedBy_eq
      rw [← earlierAsked, ← askedBy_asked, ← askedBy_append]
      rfl
    rw [asked, all, length_append] at length
    exact eq_nil_of_length_eq_zero (by omega)
  · intro overrides isResume
    rw [bare overrides isResume] at suffix taken ⊢
    have counts : ∀ taken, (Deed.command? name (.commanded name taken)).isSome = true := by
      intro taken
      rw [Deed.command?, if_pos rfl]
      rfl
    refine suffix_eq_of_length suffix since (counts command) (counts given) ?_
    have commands' : commandsTo name base = Walk.commands before := paused.commandsTo_eq
    exact congrArg length (commands'.trans commands.symm)

end pause

/-- What an invocation hears when it looks at its token after a resume: whether the token had
been cancelled when it took the command. -/
theorem token_of_resume {cancelled : Bool}
    (course : Course false origin name session log standing past rest)
    (split : past = newer ++ ⟨.isCancelled, cancelled⟩ ::
      (front ++ ⟨.pause id node snapshot, .resume overrides⟩ :: before))
    (prompt : ∀ x ∈ front, ¬ x.query.MayWait) :
    ∃ known going, known <:+ log ∧ (cancelled = true ↔ .cancelled name ∈ known) ∧
      Course false origin name session known .busy
        (⟨.pause id node snapshot, .resume overrides⟩ :: before) going := by
  obtain ⟨looked, _, suffix, there⟩ := course.at_answer split
  obtain ⟨asked, _, rfl, fits, there⟩ := there.before_answer fun waits => waits
  obtain ⟨known, going, more, same, there⟩ := there.before_all prompt
  refine ⟨known, going, (more.trans (suffix_cons _ _)).trans suffix, ?_, there⟩
  have fits : cancelled = true ↔ .cancelled name ∈ Deed.asked name .isCancelled :: asked := fits
  rw [fits, ← same]
  simp

end Course

namespace Walk

variable {setting : Setting} {first : Walker}

/-- A walk that was told to end starts no executor any more. -/
theorem away_of_halted (heeds : History.Obeys Heeding (newer ++ past))
    (enters : History.Obeys (Entering setting first) (newer ++ past)) (halted : Halted past)
    (away : Away first past) :
    Away first (newer ++ past) ∧
      ∀ other walker, .announce ⟨.executing other, walker⟩ ∉ questions newer := by
  induction newer with
  | nil => exact ⟨away, fun _ _ => not_mem_nil⟩
  | cons x newer ih =>
    obtain ⟨q, answer⟩ := x
    rw [cons_append] at heeds enters
    obtain ⟨heeding, heeds⟩ := History.obeys_cons.mp heeds
    obtain ⟨entering, enters⟩ := History.obeys_cons.mp enters
    obtain ⟨still, none⟩ := ih heeds enters
    obtain ⟨exchange, member, halts⟩ := halted
    obtain ⟨moment, rfl⟩ := heeding.halted ⟨exchange, mem_append_right _ member, halts⟩
    have outside : ¬ Crosses (.announce moment) := by
      have expected := entering.expected
      rw [still] at expected
      exact expected
    refine ⟨still.cons outside, fun other walker isMember => ?_⟩
    rcases mem_cons.mp isMember with same | isMember
    · cases same
      exact outside trivial
    · exact none other walker isMember

theorem exists_moment_of_mem_overriding {left : List (String × Value)}
    (member : q ∈ overriding setting walker left) : ∃ moment, q = .announce moment := by
  induction left generalizing walker with
  | nil => cases member
  | cons override left ih =>
    rcases mem_cons.mp member with rfl | member
    · exact ⟨_, rfl⟩
    · exact ih member

theorem Threshold.after_cancelled (last : Walker) (entering : Threshold) :
    entering.after last ⟨.isCancelled, true⟩ = .away := by
  cases entering <;> rfl

/-- Who starts an executor has come to its node since the last start. -/
theorem exists_visit_of_executing {again : Walker} {later between : List Query}
    (enters : History.Obeys (Entering setting first) (newer ++ told (.executing node) walker :: past))
    (split : questions newer = later ++ .announce ⟨.executing node, again⟩ :: between) :
    ∃ vars, .visit node vars ∈ between := by
  obtain ⟨latest, rest, rfl, rfl, tail⟩ := map_eq_append_iff.mp split
  obtain ⟨⟨q, answer⟩, between, rfl, rfl, rfl⟩ := map_eq_cons_iff.mp tail
  rw [append_assoc, cons_append] at enters
  have entering := enters latest (.announce ⟨.executing node, again⟩) answer _ rfl
  have here : (threshold first (between ++ told (.executing node) walker :: past)).node? =
      some node := by
    have expected := entering.expected
    generalize threshold first (between ++ told (.executing node) walker :: past) = entering
      at expected ⊢
    cases entering with
    | away => exact absurd trivial expected
    | stopped =>
      rw [Threshold.Expects] at expected
      split at expected <;> cases expected
    | passed other seen left => cases left <;> cases expected
    | cleared =>
      cases expected
      rfl
  obtain ⟨front, vars, hit, older, split, none⟩ := exists_visit_of_node? here
  refine ⟨vars, ?_⟩
  rcases append_eq_append_iff.mp split with ⟨inside, rfl, same⟩ | ⟨inside, rfl, same⟩
  · -- The last start is not among what came after the visit.
    cases inside with
    | nil => cases (cons.inj same).1
    | cons =>
      cases (cons.inj same).1
      exact absurd rfl (none _ (mem_append_cons_self) node walker)
  · cases inside with
    | nil => cases (cons.inj same).1
    | cons =>
      cases (cons.inj same).1
      exact mem_map_of_mem (mem_append_cons_self)

/-- What a walk asks, latest first, after a pause before a node has ended with a resume: it
writes the overrides in their order and looks at its token. Unless it finds it `cancelled` the
executor starts, and starts anew only when control has come to the node once more. -/
def Resumes (setting : Setting) (node : String) (state : Walker) (overrides : List (String × Value))
    (cancelled : Prop) (asked : List Query) : Prop :=
  ∃ rest, asked = rest ++ .isCancelled :: (overriding setting state overrides).reverse ∧
    (¬ cancelled → ∃ newest,
      rest = newest ++
        [.announce ⟨.executing node, overrides.foldl (Walker.written setting) state⟩] ∧
      ∀ later walker between, newest = later ++ .announce ⟨.executing node, walker⟩ :: between →
        ∃ vars, .visit node vars ∈ between) ∧
    (cancelled → ∀ other walker, .announce ⟨.executing other, walker⟩ ∉ rest)

theorem not_mem_of_mayWait {pending : Option Query} (waits : ∀ q ∈ pending, q.MayWait)
    (moment : Moment) : .announce moment ∉ pending.toList := by
  intro member
  exact waits _ (Option.mem_toList.mp member)

/-- A question that has to wait is asked after all of this. -/
theorem Resumes.pending {cancelled : Prop}
    (resumes : Resumes setting node state overrides cancelled asked) {pending : Option Query}
    (waits : ∀ q ∈ pending, q.MayWait) :
    Resumes setting node state overrides cancelled (pending.toList ++ asked) := by
  obtain ⟨rest, rfl, going, ended⟩ := resumes
  refine ⟨pending.toList ++ rest, (append_assoc _ _ _).symm, fun uncancelled => ?_,
    fun isCancelled other walker member => ?_⟩
  · obtain ⟨newest, rfl, again⟩ := going uncancelled
    refine ⟨pending.toList ++ newest, (append_assoc _ _ _).symm, ?_⟩
    intro later walker between split
    rcases append_eq_append_iff.mp split with ⟨inside, rfl, same⟩ | ⟨inside, here, same⟩
    · exact again inside walker between same
    · cases inside with
      | nil => exact again [] walker between same.symm
      | cons =>
        cases (cons.inj same).1
        refine absurd ?_ (not_mem_of_mayWait waits ⟨.executing node, walker⟩)
        exact here ▸ mem_append_cons_self
  · rcases mem_append.mp member with member | member
    · exact not_mem_of_mayWait waits _ member
    · exact ended isCancelled other walker member

end Walk

namespace Birth

variable (birth : Birth)

def setting : Setting :=
  .of birth.circuit birth.identity.invocation birth.request.capability.name
    birth.settings.maxIterations birth.settings.maxSnapshot

variable {birth}

theorem walk_enters (wired : Wired Registry.builtin birth.circuit) :
    WP (Entering birth.setting birth.first) (fun _ past => Away birth.first past)
      birth.walk [] :=
  start_enters wired _ _ _

end Birth

namespace Course

variable {birth : Birth}
/-- Nobody rests between the breakpoint of a node and its executor. -/
theorem mayRest (course : Course false birth.walk name session log standing past rest)
    (rests : standing.Rests) (wired : Wired Registry.builtin birth.circuit) :
    (threshold birth.first past).MayRest := by
  have enters := (birth.walk_enters wired).onward course.leads
  rcases course.rests_on rests with rfl | ⟨result, rfl⟩ | ⟨q, next, rfl, waits⟩
  · trivial
  · have away : threshold birth.first past = .away := enters
    rw [away]
    trivial
  · have expected := enters.1.expected
    generalize threshold birth.first past = entering at expected ⊢
    cases entering with
    | away | stopped => trivial
    | passed node walker left => cases left <;> cases expected <;> exact waits.elim
    | cleared =>
      cases expected
      exact waits.elim

section

variable (asking : Course false birth.walk name session earlier .busy before
  (ask (.pause id node snapshot) next))
include asking

/-- Nobody asks for a pause with a cancelled token. -/
theorem not_cancelled_of_pause : .cancelled name ∉ earlier := by
  have careful := (birth.walk_careful.onward asking.leads).1
  exact asking.not_cancelled_of_cleared (fun rests => rests) (careful.begins trivial)

/-- Who asks for a pause has just come to the node, and found its token uncancelled before. -/
theorem asked_of_pause (wired : Wired Registry.builtin birth.circuit) :
    ∃ opening asked hits,
      threshold birth.first before =
        .stopped node hits { lastTold birth.first asked with session := some id } ∧
      questions before =
        opening ++ .visit node (lastTold birth.first asked).context.vars :: .isCancelled :: asked ∧
      (opening = [] ∨ opening = [.openSession]) ∧
      snapshot = shown birth.setting node hits (lastTold birth.first asked) := by
  have enters := (birth.walk_enters wired).onward asking.leads
  have obeys := (birth.walk_enters wired).obeys asking.leads
  have expected := enters.1.expected
  generalize entered : threshold birth.first before = entering at expected ⊢
  cases entering with
  | away => exact absurd trivial expected
  | passed other walker left => cases left <;> cases expected
  | cleared => cases expected
  | stopped other hits walker =>
    rw [Threshold.Expects] at expected
    split at expected
    · cases expected
    · rename_i isOwn
      cases expected
      obtain ⟨opening, vars, older, rfl, state⟩ := exists_visit_of_stopped entered
      obtain ⟨rfl, ⟨first, rfl⟩⟩ := (obeys opening _ _ older rfl).visits node vars rfl
      have inSession : ∀ walker : Walker, walker.session = some id →
          walker = { walker with session := some id } := by
        intro walker isOwn
        rw [← isOwn]
      rcases state with ⟨rfl, rfl⟩ | ⟨opened, rfl, rfl⟩
      · refine ⟨[], questions first, hits, ?_, rfl, .inl rfl, rfl⟩
        exact congrArg (Threshold.stopped node hits) (inSession _ isOwn)
      · cases isOwn
        exact ⟨[.openSession], questions first, hits, rfl, rfl, .inr rfl, rfl⟩

end

/-- After a resume an invocation goes on with the node before which it was paused. -/
theorem questions_of_resume (course : Course false birth.walk name session log standing past rest)
    (rests : standing.Rests) (wired : Wired Registry.builtin birth.circuit)
    (split : past = newer ++ ⟨.pause id node snapshot, .resume overrides⟩ :: before)
    (stopped : threshold birth.first before = .stopped node hits state) :
    ∃ known going, known <:+ log ∧
      Course false birth.walk name session known .busy
        (⟨.pause id node snapshot, .resume overrides⟩ :: before) going ∧
      Walk.Resumes birth.setting node state overrides (.cancelled name ∈ known)
        (questions newer) := by
  subst split
  have obeys := (birth.walk_enters wired).obeys course.leads
  have heeds := (birth.walk_heeds wired).obeys course.leads
  have passed : threshold birth.first (⟨.pause id node snapshot, .resume overrides⟩ :: before) =
      .passed node state overrides := by
    rw [threshold, stopped]
    rfl
  obtain ⟨later, cancelled, front, rfl, written, executes⟩ :=
    questions_of_passed obeys passed (course.mayRest rests wired)
  rw [append_assoc, cons_append] at course obeys heeds
  have prompt : ∀ x ∈ front, ¬ x.query.MayWait := by
    intro x member waits
    have isWritten : x.query ∈ (overriding birth.setting state overrides).reverse :=
      written ▸ mem_map_of_mem member
    obtain ⟨moment, same⟩ := exists_moment_of_mem_overriding (mem_reverse.mp isWritten)
    rw [same] at waits
    exact waits
  obtain ⟨known, going, suffix, token, there⟩ := course.token_of_resume rfl prompt
  refine ⟨known, going, suffix, there, questions later, ?_, ?_, ?_⟩
  · rw [questions_append, questions_cons, written]
  · intro uncancelled
    have isFalse : cancelled = false := Bool.eq_false_iff.mpr fun found => uncancelled (token.mp found)
    obtain ⟨newest, rfl⟩ := executes isFalse
    refine ⟨questions newest, questions_append _ _, ?_⟩
    rw [append_assoc, singleton_append] at obeys
    exact fun more walker between => exists_visit_of_executing obeys
  · intro isCancelled
    have isTrue : cancelled = true := token.mpr isCancelled
    subst isTrue
    have away : Away birth.first (⟨.isCancelled, true⟩ ::
        (front ++ ⟨.pause id node snapshot, .resume overrides⟩ :: before)) :=
      Threshold.after_cancelled _ _
    exact (away_of_halted heeds obeys (halted_cons.mpr (.inl rfl)) away).2

/-- After a stop an invocation starts no executor any more. -/
theorem questions_of_stop (course : Course false birth.walk name session log standing past rest)
    (wired : Wired Registry.builtin birth.circuit)
    (split : past = newer ++ ⟨.pause id node snapshot, .stop⟩ :: before) (other : String)
    (walker : Walker) : .announce ⟨.executing other, walker⟩ ∉ questions newer := by
  subst split
  have obeys := (birth.walk_enters wired).obeys course.leads
  have heeds := (birth.walk_heeds wired).obeys course.leads
  have away : Away birth.first (⟨.pause id node snapshot, .stop⟩ :: before) := rfl
  exact (away_of_halted heeds obeys (halted_cons.mpr (.inl rfl)) away).2 other walker

end Course

/-- An invocation that is not over and whose last question was for a pause is paused there. -/
theorem Follows.stage_of_pause {birth : Birth} {invocation : Invocation}
    (follows : Follows birth log invocation standing past rest)
    (stands : Stands invocation.stage standing rest) (live : invocation.Live)
    (asked : askedBy birth.name log = .pause id node snapshot :: questions past) :
    (∃ number deadline next, invocation.stage = .paused id node number deadline next) ∧
      invocation.recorder = recorded birth.recorder (questions past) := by
  have course := follows.course
  have heard := follows.heard
  obtain ⟨_, _, _, _, _, _, _, _, _, _, stage⟩ := invocation
  cases stands with
  | paused =>
    cases (cons.inj (course.askedBy_eq.1.symm.trans asked)).1
    exact ⟨⟨_, _, _, rfl⟩, heard⟩
  | waiting => cases (cons.inj (course.askedBy_eq.1.symm.trans asked)).1
  | _ => exact live.elim

namespace Invocation

variable {invocation : Invocation} {world : Surroundings}

/-- A paused invocation goes on with a command. -/
theorem Prompted.commandsTo_ne_nil {after : Invocation} {world' : Surroundings}
    {deeds : List Deed} (prompted : Prompted invocation world after world' rest deeds)
    (paused : invocation.IsPaused) : commandsTo invocation.name deeds ≠ [] := by
  cases prompted with
  | command =>
    rw [commandsTo_obedience]
    exact cons_ne_nil _ _
  | expired =>
    rw [commandsTo_expiry]
    exact cons_ne_nil _ _
  | answer waiting =>
    rw [IsPaused, waiting] at paused
    exact paused.elim

end Invocation

namespace Desk

variable {desk : Desk} {log : List Deed} {name : String} {invocation : Invocation}

/-- Nothing but its token and what the host owes it changes of a paused invocation until it
takes a command. -/
theorem Sound.rests_until_command (sound : desk.Sound log)
    (found : desk.invocation? name = some invocation) (paused : invocation.IsPaused)
    (moves : List Move) (free : commandsTo name (desk.chronicle moves) = [])
    (undropped : .drop name ∉ moves) :
    ∃ cancelled owed,
      (desk.play moves).invocation? name = some { invocation with cancelled, owed } := by
  induction moves generalizing desk log invocation with
  | nil => exact ⟨_, _, found⟩
  | cons move moves ih =>
    rw [chronicle, commandsTo_append, append_eq_nil_iff] at free
    have named := (mem_of_invocation? found).2
    have next := invocation?_make found move
    have undropped : move ≠ .drop name ∧ .drop name ∉ moves :=
      ⟨fun same => undropped (same ▸ mem_cons_self),
        fun member => undropped (mem_cons_of_mem _ member)⟩
    -- Without a command its turn changes nothing.
    have rests : ∃ cancelled owed,
        move.onInvocation desk.world invocation = { invocation with cancelled, owed } := by
      by_cases turn : move = .wake name
      · rw [turn, Move.onInvocation, if_pos named.symm]
        rcases invocation.wake_cases desk.world with ⟨wakes, -⟩ |
          ⟨going, world', run, deeds, prompted, wakes, turns⟩
        · rw [wakes]
          exact ⟨_, _, rfl⟩
        · have turned : desk.deeds move = going.record world' run ++ deeds := by
            simp only [turn, Desk.deeds, found, turns]
          rw [turned, commandsTo_append, append_eq_nil_iff, ← named] at free
          exact absurd free.2.2 (prompted.commandsTo_ne_nil paused)
      · obtain ⟨cancelled, owed, same, -⟩ :=
          Move.onInvocation_eq desk.world (named ▸ turn) (named ▸ undropped.1)
        exact ⟨cancelled, owed, same⟩
    obtain ⟨cancelled, owed, same⟩ := rests
    rw [same] at next
    have after := ih (sound.make move).1 next paused free.1 undropped.2
    exact after

variable {identity : Identity} {circuit : Circuit} {request : Request} {later earlier : List Deed}
  {about paused node : String} {snapshot : Value}

/-- A breakpoint pauses an invocation before a node. When the pause is published, the
invocation has come to the node, nothing of it has begun, and the snapshot shows the state in
which it came. Nothing changes until a command is on record. A resume goes on with the node,
in that very state, and a stop runs nothing any more. -/
theorem breakpoint_pauses_before_executor (idle : desk.Idle) (moves : List Move) {graph : Graph}
    (loaded : load Registry.builtin graph = .ok circuit)
    (started : .started name identity circuit request ∈ desk.chronicle moves)
    (record : desk.chronicle moves = later ++
      .published ⟨identity.session, about, .paused paused node snapshot⟩ :: earlier) :
    let setting := Setting.of circuit identity.invocation request.capability.name
      desk.settings.maxIterations desk.settings.maxSnapshot
    let first : Walker := { context := { args := request.args, event := request.event } }
    ∃ opening asked hits,
      let state : Walker := { lastTold first asked with session := some identity.session }
      (askedBy name earlier = .pause identity.session node snapshot ::
          (opening ++ .visit node state.context.vars :: .isCancelled :: asked) ∧
        (opening = [] ∨ opening = [.openSession]) ∧ snapshot = shown setting node hits state) ∧
      (commandsTo name later = [] → askedBy name later = [] ∧
        ∀ invocation, (desk.play moves).invocation? name = some invocation → invocation.Live →
          (∃ number deadline next,
            invocation.stage = .paused identity.session node number deadline next) ∧
          invocation.recorder = recorded (request.recorder desk.settings) asked ∧
          ∀ more, commandsTo name ((desk.play moves).chronicle more) = [] → .drop name ∉ more →
            ∃ cancelled owed, (desk.play (moves ++ more)).invocation? name =
              some { invocation with cancelled, owed }) ∧
      ∀ after command between, later = after ++ .commanded name command :: between →
        commandsTo name between = [] → askedBy name between = [] ∧
          match command with
          | .resume overrides => Walk.Resumes setting node state overrides
              (.cancelled name ∈ between) (askedBy name after)
          | .stop => ∀ other walker, .announce ⟨.executing other, walker⟩ ∉ askedBy name after := by
  intro setting first
  have wired := wired_of_load loaded
  have sound := idle.play moves
  obtain ⟨invocation, past, found, standing, rest, follows, stands, seated⟩ :=
    idle.kept_of_started started
  have own : identity = invocation.identity := follows.identity.symm
  obtain ⟨before, asked⟩ := idle.asked_of_paused found (own ▸ record)
  rw [← own] at asked
  subst asked
  let published : Deed := .published ⟨identity.session, about, .paused paused node snapshot⟩
  have record' : desk.chronicle moves = (later ++ [published]) ++
      .asked name (.pause identity.session node snapshot) :: before := by
    rw [record, append_cons]
  obtain ⟨older, next, asking, since⟩ := follows.course.since_pause stands.rests record'
  obtain ⟨opening, asked, hits, stopped, questioned, opens, shows⟩ := asking.asked_of_pause wired
  have earlierAsked : askedBy name before = questions older := asking.askedBy_eq
  refine ⟨opening, asked, hits, ⟨?_, opens, shows⟩, ?_, ?_⟩
  · rw [askedBy_asked, earlierAsked, questioned]
    rfl
  · intro free
    have free : commandsTo name (later ++ [published]) = [] := by
      rw [commandsTo_append, free]
      rfl
    rcases since with ⟨rfl, silent, -⟩ | ⟨newer, command, -, taken, -⟩
    · refine ⟨(append_eq_nil_iff.mp ((askedBy_append name later _).symm.trans silent)).1, ?_⟩
      intro latest isFound live
      cases found.symm.trans isFound
      have all : askedBy name (desk.chronicle moves) =
          .pause identity.session node snapshot :: questions past := by
        rw [record', askedBy_append, silent, askedBy_asked, earlierAsked]
        rfl
      obtain ⟨⟨number, deadline, resumes, stage⟩, heard⟩ := follows.stage_of_pause stands live all
      refine ⟨⟨number, deadline, resumes, stage⟩, ?_, fun more free undropped => ?_⟩
      · rw [heard, questioned]
        rcases opens with rfl | rfl <;> rfl
      · have isPaused : invocation.IsPaused := by
          rw [IsPaused, stage]
          trivial
        rw [play_append]
        exact sound.rests_until_command found isPaused more free undropped
    · exact absurd free taken
  · intro after command between split first
    have free : commandsTo name (between ++ [published]) = [] := by
      rw [commandsTo_append, first]
      rfl
    have record' : desk.chronicle moves = after ++ .commanded name command ::
        ((between ++ [published]) ++ .asked name (.pause identity.session node snapshot) :: before) := by
      rw [record', split]
      simp
    rcases since with ⟨-, -, none⟩ | ⟨newer, taken, same, -, pending, newly, waits⟩
    · rw [split, append_assoc, commandsTo_append, cons_append, commandsTo_commanded] at none
      cases (append_eq_nil_iff.mp none).2
    · obtain ⟨known, going, suffix, there⟩ := follows.course.at_answer same
      obtain ⟨rfl, silent, -⟩ := asking.command_of_pause there suffix record' free
      have alsoSilent : askedBy name (.commanded name command :: between ++ [published]) = [] := silent
      rw [split, append_assoc, askedBy_append, alsoSilent, append_nil] at newly
      refine ⟨(append_eq_nil_iff.mp ((askedBy_append name between _).symm.trans silent)).1, ?_⟩
      rw [newly]
      cases command with
      | resume overrides =>
        obtain ⟨known, going, suffix, there, resumes⟩ :=
          follows.course.questions_of_resume stands.rests wired same stopped
        obtain ⟨-, -, whole⟩ := asking.command_of_pause there suffix record' free
        have cancelled : .cancelled name ∈ known ↔ .cancelled name ∈ between := by
          have uncancelled : .cancelled name ∉ before := asking.not_cancelled_of_pause
          rw [whole overrides rfl]
          simp [published, uncancelled]
        rw [cancelled] at resumes
        exact resumes.pending waits
      | stop =>
        intro other walker member
        rcases mem_append.mp member with member | member
        · exact Walk.not_mem_of_mayWait waits _ member
        · exact follows.course.questions_of_stop wired same other walker member

/-- Paused before its only node, it is resumed with an override. -/
def resumedPlay : List Move := [entryStart, .resume "s" [("seen", .bool true)], .wake "x"]

/-- The pause and the command are on record, and the executor starts after them. -/
theorem breakpoint_pauses_before_executor_entryOnly :
    let log := pausingDesk.chronicle resumedPlay
    ∃ snapshot walker,
      log = log.take 9 ++
        .published ⟨"s", "entry", .paused "i" "start" snapshot⟩ :: log.drop 10 ∧
      log.take 9 =
        log.take 7 ++ .commanded "x" (.resume [("seen", .bool true)]) :: (log.take 9).drop 8 ∧
      .announce ⟨.executing "start", walker⟩ ∈ askedBy "x" (log.take 7) := by
  intro log
  have record : ∃ snapshot, log = log.take 9 ++
      .published ⟨"s", "entry", .paused "i" "start" snapshot⟩ :: log.drop 10 := ⟨_, rfl⟩
  have commanded : log.take 9 =
      log.take 7 ++ .commanded "x" (.resume [("seen", .bool true)]) :: (log.take 9).drop 8 := rfl
  obtain ⟨snapshot, record⟩ := record
  have started : .started "x" ⟨"i", "s", "t"⟩ (.ofGraph entryOnly) { entry := "start" } ∈ log :=
    mem_append_right _ (started_mem rfl)
  have loaded : load Registry.builtin entryOnly = .ok (.ofGraph entryOnly) := rfl
  obtain ⟨-, asked, hits, -, -, commands⟩ :=
    breakpoint_pauses_before_executor (vacant_idle _) resumedPlay loaded started record
  obtain ⟨-, rest, same, executes, -⟩ := commands _ _ _ commanded rfl
  have uncancelled : .cancelled "x" ∉ (log.take 9).drop 8 := by
    intro member
    cases mem_singleton.mp member
  obtain ⟨newest, rfl, -⟩ := executes uncancelled
  have starts : ∃ walker, .announce ⟨.executing "start", walker⟩ ∈ askedBy "x" (log.take 7) := by
    rw [same]
    exact ⟨_, mem_append_left _ (mem_append_right _ mem_cons_self)⟩
  obtain ⟨walker, starts⟩ := starts
  exact ⟨snapshot, walker, record, commanded, starts⟩

end Desk

end Pinflow
