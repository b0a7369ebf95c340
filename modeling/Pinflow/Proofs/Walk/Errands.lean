import Pinflow.Proofs.Walk.Operations

/-!
# The errands of a script

A script sends its walk on errands: it puts calls and goes on with the answers. Until an
answer comes the walk may ask its surroundings anything and change its own state. `Runs`
lists the errands of a script with the states in which they were begun, whatever happened on
the way, and `exists_runs` says that every course of a walk that performs the script,
finished or not, is such a list of errands.
-/

namespace Pinflow

namespace Dialogue

variable {I : Interface} {α β : Type}

variable {walker : Walker} {script : Script α} {past : Past} {h : History I} {a : α}

theorem Leads.of_done {rest : Dialogue I α} (course : (Dialogue.done a).Leads h rest) :
    h = [] ∧ rest = .done a := by
  induction course with
  | start => exact ⟨rfl, rfl⟩
  | step _ _ ih => cases ih.2

/-- A course of one dialogue after another is a course of the first, which still has a
question to put, or the first has come to its end and the rest is a course of the second. -/
theorem Leads.of_bind {d : Dialogue I α} {k : α → Dialogue I β} {rest : Dialogue I β}
    (course : (d >>= k).Leads h rest) :
    (∃ q next, d.Leads h (.ask q next) ∧ rest = .ask q next >>= k) ∨
      ∃ a early late, d.Leads early (.done a) ∧ (k a).Leads late rest ∧ h = late ++ early := by
  have goesOn : ∀ {h e}, d.Leads h e → (∃ q next, d.Leads h (.ask q next) ∧
      e >>= k = .ask q next >>= k) ∨ ∃ a early late, d.Leads early (.done a) ∧
        (k a).Leads late (e >>= k) ∧ h = late ++ early := by
    intro h e course
    cases e with
    | done a => exact .inr ⟨a, h, [], course, .start, rfl⟩
    | ask q next => exact .inl ⟨q, next, course, rfl⟩
  induction course with
  | start => exact goesOn .start
  | step _ answer ih =>
    rcases ih with ⟨q, next, before, same⟩ | ⟨a, early, late, ended, more, split⟩
    · cases same
      exact goesOn (.step before answer)
    · exact .inr ⟨a, early, _, ended, .step more answer, by rw [split]; rfl⟩

end Dialogue

namespace Walk

/-- A call that a script has put, in the state its walk was in, with the answer if one has
come. -/
structure Errand where
  call : Call
  before : Walker
  answer : Option call.Answer

/-- A time that a script has followed an exec output. -/
structure Passage where
  source : PinRef
  before : Walker
  answer : Option (Except Fault Signal)

def Passage.broke (passage : Passage) : Bool :=
  match passage.answer with
  | some (.ok signal) => signal.isBreak
  | _ => false

/-- A time that a script has read a data input. -/
structure Reading where
  target : PinRef
  before : Walker
  answer : Option (Except Fault Value)

def Errand.passage? : Errand → Option Passage
  | ⟨.traverse node pin, before, answer⟩ => some ⟨⟨node, pin⟩, before, answer⟩
  | _ => none

def Errand.reading? : Errand → Option Reading
  | ⟨.input node pin, before, answer⟩ => some ⟨⟨node, pin⟩, before, answer⟩
  | _ => none

def Errand.note? : Errand → Option (String × String)
  | ⟨.note node message, _, _⟩ => some (node, message)
  | _ => none

def passages (errands : List Errand) : List Passage := errands.filterMap Errand.passage?

def readings (errands : List Errand) : List Reading := errands.filterMap Errand.reading?

def notes (errands : List Errand) : List (String × String) := errands.filterMap Errand.note?

variable {α : Type} {server : Server}

/-- `Runs server script walker errands result past`: performed from a state on, the script has
put these calls so far and has come to this result, if to any. What the walk has asked
meanwhile is `past`. -/
inductive Runs (server : Server) :
    Script α → Walker → List Errand → Option (α × Walker) → Past → Prop
  | done {a : α} {walker : Walker} : Runs server (.done a) walker [] (some (a, walker)) []
  | underway {c : Call} {next : c.Answer → Script α} {walker : Walker} {past : Past}
      {inside : Walk (c.Answer × Walker)} (course : ((server c).run walker).Leads past inside) :
      Runs server (.ask c next) walker [⟨c, walker, none⟩] none past
  | answered {c : Call} {next : c.Answer → Script α} {walker middle : Walker}
      {answer : c.Answer} {errands : List Errand} {result : Option (α × Walker)}
      {first past : Past} (course : ((server c).run walker).Leads first (.done (answer, middle)))
      (more : Runs server (next answer) middle errands result past) :
      Runs server (.ask c next) walker (⟨c, walker, some answer⟩ :: errands) result (past ++ first)

theorem exists_runs {rest : Walk (α × Walker)}
    (course : ((perform server script).run walker).Leads past rest) :
    ∃ errands result, Runs server script walker errands result past ∧
      ∀ outcome, rest = .done outcome ↔ result = some outcome := by
  induction script generalizing walker past with
  | done a =>
    obtain ⟨rfl, rfl⟩ := Dialogue.Leads.of_done course
    exact ⟨[], some (a, walker), .done, fun outcome => by simp⟩
  | ask c next ih =>
    rcases course.of_bind with ⟨q, onward, inside, rfl⟩ | ⟨answer, early, late, ended, more, rfl⟩
    · exact ⟨_, none, .underway inside, fun outcome => by simp⟩
    · obtain ⟨errands, result, run, ends⟩ := ih answer.1 more
      exact ⟨_, result, .answered ended run, ends⟩

/-- Whichever way a walk that performs a script goes, its errands and what it has come to are
as told. -/
def Traced (server : Server) (script : Script α) (walker : Walker)
    (seen : List Errand → Option α → Prop) : Prop :=
  ∀ past rest, ((perform server script).run walker).Leads past rest →
    ∃ errands outcome, Runs server script walker errands outcome past ∧
      (∀ ended, rest = .done ended ↔ outcome = some ended) ∧ seen errands (outcome.map Prod.fst)

theorem traced_of_runs {seen : List Errand → Option α → Prop}
    (shows : ∀ errands outcome past, Runs server script walker errands outcome past →
      seen errands (outcome.map Prod.fst)) : Traced server script walker seen := by
  intro past rest course
  obtain ⟨errands, outcome, run, ends⟩ := exists_runs course
  exact ⟨errands, outcome, run, ends, shows errands outcome past run⟩

/-- A run of a script whose result is changed in the end is a run of the script. -/
theorem Runs.of_map {β : Type} {f : α → β} {errands : List Errand} {result : Option (β × Walker)}
    (run : Runs server (f <$> script) walker errands result past) :
    ∃ result', Runs server script walker errands result' past ∧
      result = result'.map fun outcome => (f outcome.1, outcome.2) := by
  induction script generalizing walker errands past with
  | done a =>
    cases run with
    | done => exact ⟨some (a, walker), .done, rfl⟩
  | ask c next ih =>
    cases run with
    | underway course => exact ⟨none, .underway course, rfl⟩
    | answered course more =>
      obtain ⟨result', run, same⟩ := ih _ more
      exact ⟨result', .answered course run, same⟩

/-- What is verified of a call holds once it has been answered. -/
theorem WP.of_answered {x : Stateful α} (post : Post α) {after : Walker}
    (wp : WP (fun _ _ => True) x post walker [])
    (course : (x.run walker).Leads past (.done (a, after))) : post a after past :=
  Dialogue.WP.onward wp course

end Walk

end Pinflow
