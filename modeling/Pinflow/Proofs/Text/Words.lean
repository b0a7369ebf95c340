import Mathlib.Data.List.TakeWhile
import Pinflow.Text.Words

/-!
# Cutting texts

A text is cut at the first occurrence of a separator, `splitFirst?_eq_some_iff`, and at every blank
into words, `words_append`: a text without blanks is one word, and one that shows something has
some.
-/

namespace Pinflow.Text

open List

variable {separator c : Char} {cs ds first rest word : List Char}

theorem splitFirst?_eq_some_iff : splitFirst? separator cs = some (first, rest) ↔
    cs = first ++ separator :: rest ∧ separator ∉ first := by
  constructor
  · intro cut
    rw [splitFirst?] at cut
    have isEnd := head?_dropWhile_not (· != separator) cs
    have parts := takeWhile_append_dropWhile (p := (· != separator)) (l := cs)
    cases dropped : cs.dropWhile (· != separator) with
    | nil =>
      rw [dropped] at cut
      cases cut
    | cons c tail =>
      rw [dropped] at cut isEnd parts
      cases cut
      obtain rfl : c = separator := by simpa using isEnd
      exact ⟨parts.symm, fun member => by simpa using mem_takeWhile_imp member⟩
  · rintro ⟨rfl, free⟩
    have before : ∀ c ∈ first, (c != separator) = true := fun c member => by grind
    rw [splitFirst?, dropWhile_append_of_pos before, takeWhile_append_of_pos before]
    simp

theorem splitWord_of_visible (visible : ∀ c ∈ cs, isBlank c = false) :
    splitWord cs = (cs, none) := by
  rw [splitWord, dropWhile_eq_nil_iff.mpr (by simpa using visible)]

theorem splitWord_append (visible : ∀ c ∈ cs, isBlank c = false) (blank : isBlank c = true) :
    splitWord (cs ++ c :: ds) = (cs, some ds) := by
  have word : ∀ c ∈ cs, (!isBlank c) = true := by simpa using visible
  rw [splitWord, dropWhile_append_of_pos word, takeWhile_append_of_pos word]
  simp [blank]

theorem wordsFrom_append (blank : isBlank c = true) :
    wordsFrom word (cs ++ c :: ds) = wordsFrom word cs ++ words ds := by
  induction cs generalizing word with
  | nil => cases word <;> simp [wordsFrom, words, blank]
  | cons d cs ih =>
    rw [cons_append, wordsFrom, wordsFrom]
    split
    · split <;> simp [ih]
    · exact ih

theorem words_append (blank : isBlank c = true) : words (cs ++ c :: ds) = words cs ++ words ds :=
  wordsFrom_append blank

theorem wordsFrom_of_visible (visible : ∀ c ∈ cs, isBlank c = false) :
    wordsFrom word cs = wordsFrom (cs.reverse ++ word) [] := by
  induction cs generalizing word with
  | nil => rfl
  | cons c cs ih =>
    obtain ⟨first, rest⟩ := forall_mem_cons.mp visible
    rw [reverse_cons, append_assoc, singleton_append, ← ih rest]
    simp [wordsFrom, first]

theorem words_of_visible (some : cs ≠ []) (visible : ∀ c ∈ cs, isBlank c = false) :
    words cs = [cs] := by
  rw [words, wordsFrom_of_visible visible]
  simp [wordsFrom, some]

theorem wordsFrom_ne_nil (seen : word ≠ [] ∨ ∃ c ∈ cs, isBlank c = false) :
    wordsFrom word cs ≠ [] := by
  fun_induction wordsFrom word cs <;> grind

end Pinflow.Text
