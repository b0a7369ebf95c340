import Pinflow.Dialogue

/-!
# Courses of a dialogue

A course is one way in which a dialogue can go: the questions it has put so far, each
with the answer it happened to get. `Leads` relates a dialogue to what is left of it
after a course, so a statement about every `Leads` is a statement about every run,
finished or not.

`WP` is the weakest precondition of a dialogue. It takes a rule for questions and a
condition on results, and both may look back at the whole history. A rule speaks of
questions, not of answers: what the surroundings reply is out of the dialogue's hands.
-/

namespace Pinflow

/-- A question that was put, and the answer it got. -/
structure Exchange (I : Interface) where
  query : I.Query
  answer : I.Answer query

/-- What was asked and answered so far, the latest exchange first. -/
abbrev History (I : Interface) := List (Exchange I)

def History.Obeys {I : Interface} (rule : I.Query → History I → Prop) (h : History I) : Prop :=
  ∀ later q answer earlier, h = later ++ ⟨q, answer⟩ :: earlier → rule q earlier

namespace History

variable {I : Interface} {rule : I.Query → History I → Prop}

theorem obeys_nil : Obeys rule ([] : History I) := by
  intro later q answer earlier split
  simp at split

theorem obeys_cons {q : I.Query} {answer : I.Answer q} {h : History I} :
    Obeys rule (⟨q, answer⟩ :: h) ↔ rule q h ∧ Obeys rule h := by
  constructor
  · intro obeys
    refine ⟨obeys [] q answer h rfl, ?_⟩
    intro later r reply earlier split
    exact obeys (⟨q, answer⟩ :: later) r reply earlier (by rw [split]; rfl)
  · rintro ⟨now, before⟩ later r reply earlier split
    cases later with
    | nil =>
      cases split
      exact now
    | cons last later =>
      obtain ⟨-, split⟩ := List.cons.inj split
      exact before later r reply earlier split

end History

namespace Dialogue

variable {I : Interface} {α β : Type}

inductive Leads (d : Dialogue I α) : History I → Dialogue I α → Prop
  | start : Leads d [] d
  | step {h : History I} {q : I.Query} {next : I.Answer q → Dialogue I α}
      (before : Leads d h (.ask q next)) (answer : I.Answer q) :
      Leads d (⟨q, answer⟩ :: h) (next answer)

/-- The course of at most `steps` questions in which each is answered by a given function of
what came before, up to the first one that has no answer. -/
def follow (reply : (q : I.Query) → History I → Option (I.Answer q)) :
    (steps : Nat) → History I → Dialogue I α → History I × Dialogue I α
  | steps + 1, h, .ask q next =>
    match reply q h with
    | some answer => follow reply steps (⟨q, answer⟩ :: h) (next answer)
    | none => (h, .ask q next)
  | _, h, d => (h, d)

theorem leads_follow {reply : (q : I.Query) → History I → Option (I.Answer q)} {steps : Nat}
    {d e : Dialogue I α} {h : History I} (before : d.Leads h e) :
    d.Leads (follow reply steps h e).1 (follow reply steps h e).2 := by
  induction steps generalizing h e with
  | zero => exact before
  | succ steps ih =>
    cases e with
    | done => exact before
    | ask q =>
      rw [follow]
      cases reply q h with
      | none => exact before
      | some answer => exact ih (.step before answer)

/-- Every question that a dialogue can still put obeys the rule, and every result that it
can still end with meets the postcondition. -/
def WP (rule : I.Query → History I → Prop) (post : α → History I → Prop) :
    Dialogue I α → History I → Prop
  | .done a, h => post a h
  | .ask q next, h => rule q h ∧ ∀ answer, (next answer).WP rule post (⟨q, answer⟩ :: h)

section WP

variable {rule rule' : I.Query → History I → Prop} {post post' : α → History I → Prop}
  {d e : Dialogue I α} {h k : History I}

@[simp] theorem WP_done {a : α} :
    (.done a : Dialogue I α).WP rule post h ↔ post a h := Iff.rfl

@[simp] theorem WP_ask {q : I.Query} {next : I.Answer q → Dialogue I α} :
    (Dialogue.ask q next).WP rule post h ↔
      rule q h ∧ ∀ answer, (next answer).WP rule post (⟨q, answer⟩ :: h) := Iff.rfl

@[simp] theorem WP_bind {post : β → History I → Prop} {k : α → Dialogue I β} :
    (d >>= k).WP rule post h ↔ d.WP rule (fun a => (k a).WP rule post) h := by
  induction d generalizing h with
  | done => rfl
  | ask q next ih => simp only [ask_bind, WP_ask, ih]

theorem WP.mono (wp : d.WP rule post h) (rules : ∀ q h, rule q h → rule' q h)
    (imp : ∀ a h, post a h → post' a h) : d.WP rule' post' h := by
  induction d generalizing h with
  | done a => exact imp a h wp
  | ask q next ih => exact ⟨rules q h wp.1, fun answer => ih answer (wp.2 answer)⟩

/-- A rule and a postcondition may be used under the assumption that another rule has
been obeyed so far, if the dialogue is known to obey it. -/
theorem WP.under (known : d.WP rule' post' h) (obeyed : History.Obeys rule' h)
    (wp : d.WP (fun q h => History.Obeys rule' h → rule q h)
      (fun a h => History.Obeys rule' h → post a h) h) : d.WP rule post h := by
  induction d generalizing h with
  | done => exact wp obeyed
  | ask q next ih =>
    refine ⟨wp.1 obeyed, fun answer => ?_⟩
    exact ih answer (known.2 answer) (History.obeys_cons.mpr ⟨known.1, obeyed⟩) (wp.2 answer)

/-- What is to be shown only where another rule has been obeyed so far may be shown under
the assumption that it has been obeyed up to here. -/
theorem WP.assuming
    (step : History.Obeys rule' h → d.WP (fun q h => History.Obeys rule' h → rule q h)
      (fun a h => History.Obeys rule' h → post a h) h) :
    d.WP (fun q h => History.Obeys rule' h → rule q h)
      (fun a h => History.Obeys rule' h → post a h) h := by
  by_cases obeyed : History.Obeys rule' h
  · exact step obeyed
  · -- Once disobeyed, always disobeyed.
    clear step
    induction d generalizing h with
    | done => exact fun obeys => absurd obeys obeyed
    | ask q next ih =>
      refine ⟨fun obeys => absurd obeys obeyed, fun answer => ih answer ?_⟩
      exact fun obeys => obeyed (History.obeys_cons.mp obeys).2

/-- What is verified of a dialogue holds of whatever is left of it. -/
theorem WP.rest (wp : d.WP rule post h) (course : d.Leads k e) : e.WP rule post (k ++ h) := by
  induction course with
  | start => exact wp
  | step _ answer ih => exact ih.2 answer

theorem WP.onward (wp : d.WP rule post []) (course : d.Leads k e) : e.WP rule post k := by
  have left := wp.rest course
  rwa [List.append_nil] at left

/-- What is verified of a dialogue holds of every course it can take. -/
theorem WP.leads (wp : d.WP rule post h) (obeyed : History.Obeys rule h) (course : d.Leads k e) :
    e.WP rule post (k ++ h) ∧ History.Obeys rule (k ++ h) := by
  refine ⟨wp.rest course, ?_⟩
  induction course with
  | start => exact obeyed
  | step before answer ih => exact History.obeys_cons.mpr ⟨(wp.rest before).1, ih⟩

/-- In a course of a verified dialogue every question obeys the rule. -/
theorem WP.obeys (wp : d.WP rule post []) (course : d.Leads k e) : History.Obeys rule k := by
  have result := (wp.leads History.obeys_nil course).2
  rwa [List.append_nil] at result

end WP

end Dialogue

end Pinflow
