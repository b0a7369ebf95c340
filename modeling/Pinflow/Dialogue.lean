/-!
# Dialogues

A dialogue is a computation that puts questions to its surroundings and continues
with the answers. It is a tree: a `done` leaf holds the result, an `ask` node holds
a question and one subtree per answer. Nothing else can influence it, so a fact
about every run of a dialogue is a fact about its tree.

Node behaviour, walks over a graph and the command line program are dialogues over
three interfaces. `interpret` answers the questions in any monad, and one dialogue
can thus be answered in terms of another.
-/

namespace Pinflow

/-- What a computation may ask: questions, and for each the type of its answer. -/
structure Interface where
  Query : Type
  Answer : Query → Type

/-- A computation that asks questions of an interface before it ends. -/
inductive Dialogue (I : Interface) (α : Type) : Type where
  | done (result : α)
  | ask (query : I.Query) (next : I.Answer query → Dialogue I α)

namespace Dialogue

variable {I : Interface} {α β γ : Type}

/-- Continue a dialogue with another one. -/
def bind : Dialogue I α → (α → Dialogue I β) → Dialogue I β
  | .done a, k => k a
  | .ask q next, k => .ask q fun answer => (next answer).bind k

instance : Monad (Dialogue I) where
  pure := .done
  bind := bind

def query (q : I.Query) : Dialogue I (I.Answer q) := .ask q .done

@[simp] theorem pure_eq_done (a : α) : (pure a : Dialogue I α) = .done a := rfl

@[simp] theorem done_bind (a : α) (k : α → Dialogue I β) : (.done a : Dialogue I α) >>= k = k a :=
  rfl

@[simp] theorem ask_bind (q : I.Query) (next : I.Answer q → Dialogue I α)
    (k : α → Dialogue I β) : .ask q next >>= k = .ask q fun answer => next answer >>= k := rfl

@[simp] theorem bind_done (d : Dialogue I α) : d >>= .done = d := by
  induction d with
  | done => rfl
  | ask q next ih => simp [ih]

theorem bind_assoc (d : Dialogue I α) (k : α → Dialogue I β) (l : β → Dialogue I γ) :
    d >>= k >>= l = d >>= fun a => k a >>= l := by
  induction d with
  | done => rfl
  | ask q next ih => simp [ih]

instance : LawfulMonad (Dialogue I) :=
  LawfulMonad.mk' (Dialogue I)
    (fun d => bind_done d)
    (fun _ _ => rfl)
    bind_assoc

def interpret {m : Type → Type} [Monad m] (answer : (q : I.Query) → m (I.Answer q)) :
    Dialogue I α → m α
  | .done a => pure a
  | .ask q next => do
    let reply ← answer q
    (next reply).interpret answer

section interpret

variable {m : Type → Type} [Monad m] (answer : (q : I.Query) → m (I.Answer q))

@[simp] theorem interpret_done (a : α) : (.done a : Dialogue I α).interpret answer = pure a := rfl

@[simp] theorem interpret_ask (q : I.Query) (next : I.Answer q → Dialogue I α) :
    (Dialogue.ask q next).interpret answer =
      answer q >>= fun reply => (next reply).interpret answer := rfl

@[simp] theorem interpret_bind [LawfulMonad m] (d : Dialogue I α) (k : α → Dialogue I β) :
    (d >>= k).interpret answer = d.interpret answer >>= fun a => (k a).interpret answer := by
  induction d with
  | done => simp
  | ask q next ih => simp [ih]

end interpret

end Dialogue

end Pinflow
