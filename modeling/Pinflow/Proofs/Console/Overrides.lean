import Pinflow.Console.Command
import Pinflow.Proofs.Condition.Roundtrip
import Pinflow.Proofs.Text.Words

/-!
# Overrides typed at the prompt

A resumption is typed as its overrides, each a path and the text of a value. They are read as they
were written just when the texts hold no blank, `DebugCommand.overrides_read_iff_visible`: a line
is cut into words first, so that a blank inside a text cuts its override in two.
-/

namespace Pinflow.Text

open List

variable {c : Char} {cs : List Char}

theorem Tight.seen (tight : Tight cs) : ∃ c ∈ cs, isBlank c = false := by
  obtain ⟨c, isFirst, visible⟩ := tight.first
  exact ⟨c, mem_of_head? isFirst, visible⟩

/-- A blank between visible ends parts two words. -/
theorem Tight.two_words (tight : Tight cs) (member : c ∈ cs) (blank : isBlank c = true) :
    2 ≤ (words cs).length := by
  obtain ⟨before, behind, rfl⟩ := append_of_mem member
  obtain ⟨first, isFirst, visible⟩ := tight.first
  obtain ⟨last, isLast, visible'⟩ := tight.last
  have some : words before ≠ [] :=
    wordsFrom_ne_nil (.inr ⟨first, by cases before <;> grind, visible⟩)
  have some' : words behind ≠ [] :=
    wordsFrom_ne_nil (.inr ⟨last, by cases behind <;> grind, visible'⟩)
  rw [words_append blank, length_append]
  exact Nat.add_le_add (length_pos_iff.mpr some) (length_pos_iff.mpr some')

theorem Tight.trim (tight : Tight cs) : trim cs = cs := by
  rw [Text.trim, trimLeft_eq tight.first, trimRight_eq tight.last]

end Pinflow.Text

namespace Pinflow.DebugCommand

open List Text

variable {overrides : List (String × Value)}

/-- The word that sets a variable. -/
def token (assignment : String × Value) : List Char :=
  assignment.1.toList ++ '=' :: assignment.2.render.toList

def line (overrides : List (String × Value)) : String :=
  String.ofList ("resume".toList ++ overrides.flatMap (' ' :: token ·))

/-- Some characters, none of them a blank or an equals sign. -/
def IsName (path : String) : Prop :=
  path ≠ "" ∧ ∀ c ∈ path.toList, isBlank c = false ∧ c ≠ '='

theorem tight_token {assignment : String × Value} (isName : IsName assignment.1) :
    Tight (token assignment) := by
  have name : Tight (assignment.1.toList ++ ['=']) := by
    refine tight_of_visible (by simp) fun c member => ?_
    rcases mem_append.mp member with member | member
    · exact (isName.2 c member).1
    · rw [mem_singleton.mp member]
      rfl
  simpa [token] using name.append assignment.2.tight_render

theorem tight_tokens (names : ∀ assignment ∈ overrides, IsName assignment.1) {cs : List Char}
    (tight : Tight cs) : Tight (cs ++ overrides.flatMap (' ' :: token ·)) := by
  induction overrides generalizing cs with
  | nil => simpa using tight
  | cons assignment overrides ih =>
    obtain ⟨first, rest⟩ := forall_mem_cons.mp names
    have gap : '\n' ∉ [' '] := by decide
    simpa using ih rest (tight.join gap (tight_token first))

theorem words_tokens (cs : List Char) :
    words (cs ++ overrides.flatMap (' ' :: token ·)) =
      words cs ++ overrides.flatMap (words <| token ·) := by
  induction overrides generalizing cs with
  | nil => simp
  | cons assignment overrides ih =>
    rw [flatMap_cons, flatMap_cons, cons_append, words_append rfl, ih]

theorem toList_line :
    (line overrides).toList = "resume".toList ++ overrides.flatMap (' ' :: token ·) :=
  String.toList_ofList

theorem parse_of_resume {line : String} {rest : Option (List Char)}
    (cut : splitWord (trim line.toList) = ("resume".toList, rest)) :
    parse line =
      (words (trim (rest.getD []))).mapM override >>= fun read => .ok (.resume read) := by
  simp only [parse, cut, String.ofList_toList]

theorem parse_line (names : ∀ assignment ∈ overrides, IsName assignment.1) :
    parse (line overrides) =
      (overrides.flatMap (words <| token ·)).mapM override >>= fun read => .ok (.resume read) := by
  have visible : ∀ c ∈ "resume".toList, isBlank c = false := by simp; decide
  have tight := tight_tokens names (tight_of_visible (by simp) visible)
  cases overrides with
  | nil =>
    have cut : splitWord (trim (line []).toList) = ("resume".toList, none) := by
      rw [toList_line, tight.trim, flatMap_nil, append_nil, splitWord_of_visible visible]
    exact parse_of_resume cut
  | cons assignment overrides =>
    obtain ⟨first, rest⟩ := forall_mem_cons.mp names
    have tight' := tight_tokens rest (tight_token first)
    have cut : splitWord (trim (line (assignment :: overrides)).toList) =
        ("resume".toList, some (token assignment ++ overrides.flatMap (' ' :: token ·))) := by
      rw [toList_line, tight.trim, flatMap_cons, cons_append, splitWord_append visible rfl]
    rw [parse_of_resume cut, Option.getD_some, tight'.trim, words_tokens, flatMap_cons]

/-- A value of distinct keys and finite floats that its compact text gives back. -/
structure Readable (value : Value) : Prop where
  proper : value.Proper
  within : value.depth ≤ Json.maxDepth
  rereads : ∀ x ∈ value.floats, Json.Rereads x

theorem override_token {path : String} {value : Value} (isName : IsName path)
    (readable : Readable value) : override (token (path, value)) = .ok (path, value) := by
  have cut : splitFirst? '=' (token (path, value)) = some (path.toList, value.render.toList) :=
    splitFirst?_eq_some_iff.mpr ⟨rfl, fun member => (isName.2 _ member).2 rfl⟩
  obtain ⟨c, cs, parts⟩ := exists_cons_of_ne_nil (mt String.toList_eq_nil_iff.mp isName.1)
  have read := Value.read?_render_eq readable.proper readable.rereads
  rw [if_pos readable.within] at read
  rw [parts] at cut
  rw [override, cut]
  simp [← parts, read]

theorem length_of_mapM {ws : List (List Char)} (read : ws.mapM override = .ok overrides) :
    ws.length = overrides.length := by
  induction ws generalizing overrides with
  | nil =>
    cases read
    rfl
  | cons word ws ih =>
    rw [mapM_cons] at read
    cases first : override word with
    | error =>
      rw [first] at read
      cases read
    | ok assignment =>
      cases rest : ws.mapM override with
      | error =>
        rw [first, rest] at read
        cases read
      | ok others =>
        rw [first, rest] at read
        cases read
        rw [length_cons, length_cons, ih rest]

/-- There is a word for each override, and only one if none holds a blank. -/
theorem words_count (names : ∀ assignment ∈ overrides, IsName assignment.1) :
    overrides.length ≤ (overrides.flatMap (words <| token ·)).length ∧
    ((overrides.flatMap (words <| token ·)).length = overrides.length →
      ∀ assignment ∈ overrides, ∀ c ∈ token assignment, isBlank c = false) := by
  induction overrides with
  | nil => simp
  | cons assignment overrides ih =>
    obtain ⟨first, rest⟩ := forall_mem_cons.mp names
    obtain ⟨least, single⟩ := ih rest
    have one : words (token assignment) ≠ [] := wordsFrom_ne_nil (.inr (tight_token first).seen)
    have some := length_pos_iff.mpr one
    rw [flatMap_cons, length_append, length_cons]
    refine ⟨by omega, fun same => forall_mem_cons.mpr ⟨fun c member => ?_, single (by omega)⟩⟩
    -- A blank in this one's word would make two words of it.
    by_contra blank
    have twice := (tight_token first).two_words member (by simpa using blank)
    omega

theorem mapM_words (names : ∀ assignment ∈ overrides, IsName assignment.1)
    (readable : ∀ assignment ∈ overrides, Readable assignment.2)
    (visible : ∀ assignment ∈ overrides, ∀ c ∈ assignment.2.render.toList, isBlank c = false) :
    (overrides.flatMap (words <| token ·)).mapM override = .ok overrides := by
  induction overrides with
  | nil => rfl
  | cons assignment overrides ih =>
    obtain ⟨first, rest⟩ := forall_mem_cons.mp names
    obtain ⟨first', rest'⟩ := forall_mem_cons.mp readable
    obtain ⟨seen, rest''⟩ := forall_mem_cons.mp visible
    have single : words (token assignment) = [token assignment] := by
      refine words_of_visible (by simp [token]) fun c member => ?_
      rcases mem_append.mp member with member | member
      · exact (first.2 c member).1
      · rcases mem_cons.mp member with rfl | member
        · rfl
        · exact seen c member
    rw [flatMap_cons, single, singleton_append, mapM_cons, override_token first first',
      ih rest rest' rest'']
    rfl

/-- Overrides of names and readable values that are typed at the prompt are read as they were
written just when no text of a value holds a blank. -/
theorem overrides_read_iff_visible (names : ∀ assignment ∈ overrides, IsName assignment.1)
    (readable : ∀ assignment ∈ overrides, Readable assignment.2) :
    parse (line overrides) = .ok (.resume overrides) ↔
      ∀ assignment ∈ overrides, ∀ c ∈ assignment.2.render.toList, isBlank c = false := by
  rw [parse_line names]
  constructor
  · intro read
    cases result : (overrides.flatMap (words <| token ·)).mapM override with
    | error =>
      rw [result] at read
      cases read
    | ok others =>
      rw [result] at read
      cases read
      intro assignment member c inside
      refine (words_count names).2 (length_of_mapM result) assignment member c ?_
      simp [token, inside]
  · intro visible
    rw [mapM_words names readable visible]
    rfl

theorem overrides_read_nested : parse "resume hp=-5 player.tags=[\"a=b\",null]" =
    .ok (.resume [("hp", .int (-5)), ("player.tags", .arr [.str "a=b", .null])]) := by
  have written : line [("hp", .int (-5)), ("player.tags", .arr [.str "a=b", .null])] =
      "resume hp=-5 player.tags=[\"a=b\",null]" := by decide +kernel
  rw [← written]
  refine (overrides_read_iff_visible (by simp [IsName]; decide) ?_).mpr ?_
  · simp only [forall_mem_cons, not_mem_nil, false_imp_iff, implies_true, and_true]
    refine ⟨⟨?_, by decide, by simp [Value.floats]⟩,
      ⟨?_, by decide, by simp [Value.floats, Value.itemsFloats]⟩⟩
    · exact ⟨by decide, .int _⟩
    · exact ⟨by decide, .arr (by simp [Value.Ordered.str, Value.Ordered.null])⟩
  · simp only [← Bool.not_eq_true', ← all_eq_true]
    decide +kernel

/-- The blank of a text cuts its assignment in two, and the second word assigns nothing. -/
theorem resume_cuts_text : line [("a", .str "b c")] = "resume a=\"b c\"" ∧
    parse "resume a=\"b c\"" = .error (.noAssignment "c\"") :=
  ⟨by decide +kernel, by rfl⟩

end Pinflow.DebugCommand
