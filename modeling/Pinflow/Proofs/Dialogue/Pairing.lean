import Pinflow.Dialogue

/-!
# Two dialogues side by side

`Paired` follows two dialogues through all their courses at once. A `Matching` says which
questions both put together and how far the answers to them may differ, and which questions
the first one puts for itself. Whoever answers within the matching keeps the two together.
-/

namespace Pinflow

/-- How two dialogues keep together. -/
structure Matching (I : Interface) where
  /-- Questions that both put. -/
  together : I.Query → I.Query → Prop
  /-- The answers that such questions may get. -/
  answers : (q r : I.Query) → I.Answer q → I.Answer r → Prop
  /-- Questions that only the first one puts. -/
  apart : I.Query → Prop
  /-- The answers that these may get. -/
  replies : (q : I.Query) → I.Answer q → Prop

namespace Dialogue

variable {I : Interface} {α β γ δ : Type}

/-- Two dialogues that keep together until they end with related results. -/
inductive Paired (m : Matching I) (post : α → β → Prop) : Dialogue I α → Dialogue I β → Prop
  | done {a : α} {b : β} (ends : post a b) : Paired m post (.done a) (.done b)
  | together {q r : I.Query} {next : I.Answer q → Dialogue I α} {other : I.Answer r → Dialogue I β}
      (asks : m.together q r)
      (rest : ∀ a b, m.answers q r a b → Paired m post (next a) (other b)) :
      Paired m post (.ask q next) (.ask r other)
  | apart {q : I.Query} {next : I.Answer q → Dialogue I α} {d : Dialogue I β} (asks : m.apart q)
      (rest : ∀ a, m.replies q a → Paired m post (next a) d) :
      Paired m post (.ask q next) d

namespace Paired

variable {m : Matching I} {post : α → β → Prop} {post' : γ → δ → Prop}

theorem bind {d : Dialogue I α} {e : Dialogue I β} {k : α → Dialogue I γ} {l : β → Dialogue I δ}
    (paired : Paired m post d e) (rest : ∀ a b, post a b → Paired m post' (k a) (l b)) :
    Paired m post' (d >>= k) (e >>= l) := by
  induction paired with
  | done ends => exact rest _ _ ends
  | together asks _ ih => exact .together asks ih
  | apart asks _ ih => exact .apart asks ih

theorem mono {other : α → β → Prop} {d : Dialogue I α} {e : Dialogue I β}
    (paired : Paired m post d e) (imp : ∀ a b, post a b → other a b) : Paired m other d e := by
  induction paired with
  | done ends => exact .done (imp _ _ ends)
  | together asks _ ih => exact .together asks ih
  | apart asks _ ih => exact .apart asks ih

end Paired

end Dialogue

end Pinflow
