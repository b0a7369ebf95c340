import Pinflow.Proofs.Desk.Chronicle
import Pinflow.Proofs.Desk.Sessions
import Pinflow.Proofs.Walk.Checks

/-!
# The course of an invocation

However the moves at a desk interleave, each invocation follows one course of its own walk.
`Course` ties the two records together: the chronicle of the desk and the exchanges of the
walk. It says when a question was put, what may have gone on record before its answer came,
that a pause ends with one command on record and a resume with nothing else, and that the
token is answered for by the chronicle.
-/

namespace Pinflow

open Dialogue List

open Walk (Past opened questions)

variable {q : Query} {deeds : List Deed} {newer older : Past}

def Deed.query? (name : String) : Deed → Option Query
  | .asked other q => if other = name then some q else none
  | _ => none

/-- The questions that the walk of an invocation has put, latest first. -/
def askedBy (name : String) (log : List Deed) : List Query := log.filterMap (Deed.query? name)

def Deed.command? (name : String) : Deed → Option Command
  | .commanded other command => if other = name then some command else none
  | _ => none

/-- The commands that an invocation has taken, latest first. -/
def commandsTo (name : String) (log : List Deed) : List Command :=
  log.filterMap (Deed.command? name)

/-- The commands that ended the pauses of a walk, latest first. -/
def Walk.commands : Past → List Command
  | [] => []
  | ⟨.pause _ _ _, command⟩ :: past => command :: commands past
  | _ :: past => commands past

/-- How far an invocation is with its walk: it is being driven, it has put a question, or
it will put no more. -/
inductive Standing where
  | busy
  | asking (q : Query)
  | ended

/-- Questions that may have to wait for their answer, or in vain. -/
def Query.MayWait : Query → Prop
  | .pause _ _ _ | .act _ _ | .exhausted => True
  | _ => False

def Query.Pauses : Query → Prop
  | .pause _ _ _ => True
  | _ => False

theorem Invocation.Waits.mayWait {invocation after : Invocation} {world world' : Surroundings}
    {next : q.Answer → Run} (wait : Waits invocation world q next after world' deeds) :
    q.MayWait := by
  cases wait <;> trivial

def Standing.Rests : Standing → Prop
  | .busy => False
  | .asking q => q.MayWait
  | .ended => True

/-- Others may go on while an invocation rests, and where walks yield at any time. -/
def Standing.Open : Bool → Standing → Prop
  | true, _ => True
  | false, standing => standing.Rests

theorem Standing.Rests.isOpen {standing : Standing} {yields : Bool} (rests : standing.Rests) :
    standing.Open yields := by
  cases yields with
  | true => trivial
  | false => exact rests

/-- The answers about the token and about the session are no free choice. -/
def Fits (name session : String) (log : List Deed) : (q : Query) → q.Answer → Prop
  | .isCancelled, cancelled => cancelled = true ↔ .cancelled name ∈ log
  | .openSession, id => id = session
  | _, _ => True

/-- The chronicle `log` tells how the walk `origin` of an invocation came as far as `rest`,
with the exchanges `past` behind it. -/
inductive Course (yields : Bool) (origin : Run) (name session : String) :
    List Deed → Standing → Past → Run → Prop
  | begins {log : List Deed} (fresh : ∀ q, .asked name q ∉ log)
      (free : commandsTo name log = []) :
      Course yields origin name session log .busy [] origin
  | asks {log : List Deed} {past : Past} {q : Query} {next : q.Answer → Run}
      (before : Course yields origin name session log .busy past (ask q next)) :
      Course yields origin name session (.asked name q :: log) (.asking q) past (ask q next)
  | hears {log : List Deed} {past : Past} {q : Query} {next : q.Answer → Run} {answer : q.Answer}
      (before : Course yields origin name session log (.asking q) past (ask q next))
      (fits : Fits name session log q answer) (speaks : ¬ q.Pauses) :
      Course yields origin name session log .busy (⟨q, answer⟩ :: past) (next answer)
  | obeys {log deeds : List Deed} {past : Past} {id node : String} {snapshot : Value}
      {next : Command → Run} {command : Command}
      (before : Course yields origin name session log (.asking (.pause id node snapshot)) past
        (ask (.pause id node snapshot) next))
      (silent : askedBy name deeds = []) (once : commandsTo name deeds = [command])
      (bare : ∀ overrides, command = .resume overrides → deeds = [.commanded name command]) :
      Course yields origin name session (deeds ++ log) .busy
        (⟨.pause id node snapshot, command⟩ :: past) (next command)
  | ends {log : List Deed} {past : Past} {rest : Run}
      (before : Course yields origin name session log .busy past rest)
      (isOver : past = [] ∨ ∃ result, rest = done result) :
      Course yields origin name session log .ended past rest
  | drops {log : List Deed} {past : Past} {q : Query} {rest : Run}
      (before : Course yields origin name session log (.asking q) past rest) (waits : q.MayWait) :
      Course yields origin name session log .ended past rest
  | beside {log : List Deed} {standing : Standing} {past : Past} {rest : Run} {deed : Deed}
      (before : Course yields origin name session log standing past rest) (isOpen : standing.Open yields)
      (other : ∀ q, deed ≠ .asked name q) (free : deed.command? name = none) :
      Course yields origin name session (deed :: log) standing past rest

theorem askedBy_append (name : String) (later earlier : List Deed) :
    askedBy name (later ++ earlier) = askedBy name later ++ askedBy name earlier :=
  filterMap_append

@[simp] theorem askedBy_asked (name : String) (q : Query) (log : List Deed) :
    askedBy name (.asked name q :: log) = q :: askedBy name log :=
  filterMap_cons_some (if_pos rfl)

theorem commandsTo_append (name : String) (later earlier : List Deed) :
    commandsTo name (later ++ earlier) = commandsTo name later ++ commandsTo name earlier :=
  filterMap_append

@[simp] theorem commandsTo_commanded (name : String) (command : Command) (log : List Deed) :
    commandsTo name (.commanded name command :: log) = command :: commandsTo name log :=
  filterMap_cons_some (if_pos rfl)

theorem mem_askedBy {name : String} {log : List Deed} :
    q ∈ askedBy name log ↔ .asked name q ∈ log := by
  rw [askedBy, mem_filterMap]
  constructor
  · rintro ⟨deed, member, same⟩
    cases deed with
    | asked =>
      rw [Deed.query?] at same
      split at same
      · rename_i isName
        cases same
        exact isName ▸ member
      · cases same
    | _ => cases same
  · intro member
    exact ⟨_, member, if_pos rfl⟩

namespace Course

variable {origin rest : Run} {name session : String} {log : List Deed} {standing : Standing}
  {past : Past} {yields : Bool}

section

variable (course : Course yields origin name session log standing past rest)
include course

theorem leads : origin.Leads past rest := by
  induction course with
  | begins => exact .start
  | asks before ih | ends before isOver ih | drops before waits ih
  | beside before isOpen other free ih => exact ih
  | hears before fits speaks ih => exact .step ih _
  | obeys before silent once bare ih => exact .step ih _

/-- What happens meanwhile. -/
theorem besides (isOpen : standing.Open yields) (others : ∀ q, .asked name q ∉ deeds)
    (free : ∀ deed ∈ deeds, deed.command? name = none) :
    Course yields origin name session (deeds ++ log) standing past rest := by
  induction deeds with
  | nil => exact course
  | cons deed deeds ih =>
    refine .beside (ih (fun q member => others q (mem_cons_of_mem _ member))
      fun other member => free other (mem_cons_of_mem _ member)) isOpen ?_
      (free deed mem_cons_self)
    rintro q rfl
    exact others q mem_cons_self

/-- The questions on record are those of the exchanges, and the one that has no answer yet. -/
theorem askedBy_eq :
    match standing with
    | .busy => askedBy name log = questions past
    | .asking q => askedBy name log = q :: questions past ∧ ∃ next, rest = ask q next
    | .ended => askedBy name log = questions past ∨
        ∃ q next, rest = ask q next ∧ q.MayWait ∧
          askedBy name log = q :: questions past := by
  induction course with
  | @begins log fresh =>
    refine filterMap_eq_nil_iff.mpr fun deed member => ?_
    cases deed with
    | asked other q =>
      refine if_neg fun same => ?_
      exact fresh q (same ▸ member)
    | _ => rfl
  | asks before ih =>
    rw [← ih]
    exact ⟨askedBy_asked _ _ _, _, rfl⟩
  | hears before fits speaks ih => exact ih.1
  | obeys before silent once bare ih =>
    rw [askedBy_append, silent, ih.1]
    rfl
  | ends before isOver ih => exact .inl ih
  | drops before waits ih =>
    obtain ⟨asked, next, same⟩ := ih
    exact .inr ⟨_, next, same, waits, asked⟩
  | @beside log standing past rest deed before rests other free ih =>
    have silent : askedBy name (deed :: log) = askedBy name log := by
      refine filterMap_cons_none ?_
      cases deed with
      | asked someone q =>
        refine if_neg fun same => ?_
        exact other q (same ▸ rfl)
      | _ => rfl
    cases standing with
    | busy => exact silent.trans ih
    | asking => exact ⟨silent.trans ih.1, ih.2⟩
    | ended =>
      refine ih.imp silent.trans ?_
      rintro ⟨q, next, same, waits, asked⟩
      exact ⟨q, next, same, waits, silent.trans asked⟩

/-- The commands on record are those that ended the pauses. -/
theorem commandsTo_eq : commandsTo name log = Walk.commands past := by
  induction course with
  | begins fresh free => exact free
  | asks before ih | ends before isOver ih | drops before waits ih => exact ih
  | @hears log past q next answer before fits speaks ih =>
    cases q with
    | pause => exact absurd trivial speaks
    | _ => exact ih
  | obeys before silent once bare ih =>
    rw [commandsTo_append, once, ih]
    rfl
  | beside before isOpen other free ih => exact (filterMap_cons_none free).trans ih

/-- A session that was opened is the invocation's own. -/
theorem session_of_opened {id : String} (open_ : opened past = some id) : id = session := by
  induction course with
  | begins => cases open_
  | asks before ih | obeys before silent once bare ih | ends before isOver ih
  | drops before waits ih | beside before isOpen other free ih => exact ih open_
  | @hears log past q next answer before fits speaks ih =>
    cases q with
    | openSession =>
      cases open_
      exact fits
    | _ => exact ih open_

end

section

variable (course : Course false origin name session log standing past rest)
include course

/-- An invocation rests on a question that may have to wait, unless its walk has ended or has
not even begun. -/
theorem rests_on (rests : standing.Rests) :
    past = [] ∨ (∃ result, rest = done result) ∨
      ∃ q next, rest = ask q next ∧ q.MayWait := by
  induction course with
  | begins | hears | obeys =>
    exact rests.elim
  | @asks log past q next => exact .inr (.inr ⟨q, next, rfl, rests⟩)
  | ends before isOver => exact isOver.imp_right .inl
  | drops before waits ih => exact ih waits
  | beside before isOpen other free ih => exact ih isOpen

/-- The course of an invocation when it had just heard an answer. -/
theorem at_answer {x : Exchange Query.interface} (split : past = newer ++ x :: older) :
    ∃ known going, known <:+ log ∧ Course false origin name session known .busy (x :: older) going := by
  induction course generalizing newer with
  | begins => cases newer <;> cases split
  | asks before ih | beside before isOpen other free ih =>
    obtain ⟨known, going, suffix, there⟩ := ih split
    exact ⟨known, going, suffix.trans (suffix_cons _ _), there⟩
  | hears before fits speaks ih =>
    cases newer with
    | nil =>
      cases split
      exact ⟨_, _, suffix_rfl, .hears before fits speaks⟩
    | cons => exact ih (List.cons.inj split).2
  | obeys before silent once bare ih =>
    cases newer with
    | nil =>
      cases split
      exact ⟨_, _, suffix_rfl, .obeys before silent once bare⟩
    | cons =>
      obtain ⟨known, going, suffix, there⟩ := ih (List.cons.inj split).2
      exact ⟨known, going, suffix.trans (suffix_append _ _), there⟩
  | ends before isOver ih | drops before waits ih => exact ih split

/-- An answer was heard when its question was the last one on record. -/
theorem heard {answer : q.Answer} (split : past = newer ++ ⟨q, answer⟩ :: older) :
    ∃ known, known <:+ log ∧ Fits name session known q answer ∧
      askedBy name known = q :: questions older := by
  obtain ⟨known, going, suffix, there⟩ := course.at_answer split
  cases there with
  | hears before fits => exact ⟨known, suffix, fits, before.askedBy_eq.1⟩
  | obeys before =>
    exact ⟨_, (suffix_append _ _).trans suffix, trivial, before.askedBy_eq.1⟩
  | beside before rests => exact rests.elim

/-- An answer to a question that is not among those of an earlier record was heard after
that record, and so was its question put. -/
theorem heard_since {answer : q.Answer} {base : List Deed}
    (split : past = newer ++ ⟨q, answer⟩ :: older) (since : base <:+ log)
    (later : (askedBy name base).length ≤ older.length) :
    ∃ between, between ++ base <:+ log ∧ .asked name q ∈ between ∧
      Fits name session (between ++ base) q answer := by
  obtain ⟨known, suffix, fits, asked⟩ := course.heard split
  rcases suffix_or_suffix_of_suffix suffix since with before | ⟨between, rfl⟩
  · have shorter : (askedBy name known).length ≤ (askedBy name base).length :=
      (before.filterMap (Deed.query? name)).length_le
    rw [asked, length_cons, questions, length_map] at shorter
    omega
  · refine ⟨between, suffix, ?_, fits⟩
    rw [askedBy_append] at asked
    cases first : askedBy name between with
    | nil =>
      have length := congrArg List.length asked
      rw [first, nil_append, length_cons, questions, length_map] at length
      omega
    | cons =>
      rw [first] at asked
      cases (List.cons.inj asked).1
      exact mem_askedBy.mp (first ▸ mem_cons_self)

/-- Every question on record was put in the course of the walk. -/
theorem split {later earlier : List Deed} (record : log = later ++ .asked name q :: earlier) :
    ∃ before next, before <:+ past ∧
      Course false origin name session earlier .busy before (ask q next) := by
  induction course generalizing later with
  | begins fresh => exact absurd (record ▸ mem_append_cons_self) (fresh q)
  | @asks log past r next before ih =>
    cases later with
    | nil =>
      cases record
      exact ⟨past, next, suffix_rfl, before⟩
    | cons => exact ih (List.cons.inj record).2
  | hears before fits speaks ih =>
    obtain ⟨older, next, suffix, course⟩ := ih record
    exact ⟨older, next, suffix.trans (suffix_cons _ _), course⟩
  | @obeys log deeds past id node snapshot next command before silent once bare ih =>
    -- None of the deeds with which the command came is the question.
    have inner : ∃ between, log = between ++ .asked name q :: earlier := by
      rcases append_eq_append_iff.mp record with ⟨between, -, same⟩ | ⟨between, inside, same⟩
      · exact ⟨between, same⟩
      · cases between with
        | nil => exact ⟨[], same.symm⟩
        | cons =>
          have member : .asked name q ∈ deeds := by
            rw [inside, (List.cons.inj same).1]
            exact mem_append_cons_self
          rw [← mem_askedBy, silent] at member
          cases member
    obtain ⟨between, same⟩ := inner
    obtain ⟨older, next, suffix, course⟩ := ih same
    exact ⟨older, next, suffix.trans (suffix_cons _ _), course⟩
  | ends before isOver ih => exact ih record
  | drops before waits ih => exact ih record
  | beside before isOpen other free ih =>
    cases later with
    | nil => exact absurd (List.cons.inj record).1 (other q)
    | cons => exact ih (List.cons.inj record).2

/-- Where the token has just been found uncancelled, no cancellation is on record: only the
debugger can have been asked since, and it does not let the walk wait. -/
theorem not_cancelled_of_cleared (going : ¬ standing.Rests) (cleared : Walk.Cleared past) :
    .cancelled name ∉ log := by
  induction course with
  | begins => exact cleared.elim
  | asks before ih =>
    intro member
    cases member with
    | tail _ member => exact ih id cleared member
  | @hears log past q next answer before fits speaks ih =>
    cases q with
    | isCancelled =>
      intro member
      have found : answer = true := fits.mpr member
      have none : answer = false := cleared
      rw [none] at found
      cases found
    | visit | openSession => exact ih id cleared
    | _ => exact cleared.elim
  | obeys => exact cleared.elim
  | ends | drops => exact absurd trivial going
  | beside before rests => exact absurd rests going

end

end Course

end Pinflow
