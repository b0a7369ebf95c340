import Pinflow.Condition
import Pinflow.Proofs.Json.Roundtrip

/-!
# Conditions through text

A condition that is written as a path, an operator and a literal with one blank between them is
read as just these three, `Condition.parse_written`. The literal may be the text of a value or any
text that is no JSON. Of both it matters only that they are `Tight`: then the longest path is the
one that was written, the first operator that fits is the one behind it, and nothing is cut off
the literal.
-/

namespace Pinflow

open List

variable {c : Char} {cs ds text rest : List Char}

namespace Text

structure Tight (cs : List Char) : Prop where
  first : ∃ c, cs.head? = some c ∧ isBlank c = false
  last : ∃ c, cs.getLast? = some c ∧ isBlank c = false
  line : '\n' ∉ cs

theorem tight_of_visible (some : cs ≠ []) (visible : ∀ c ∈ cs, isBlank c = false) : Tight cs where
  first := ⟨cs.head some, head?_eq_some_head some, visible _ (head_mem some)⟩
  last := ⟨cs.getLast some, getLast?_eq_some_getLast some, visible _ (getLast_mem some)⟩
  line broken := by cases visible '\n' broken

theorem Tight.join (tight : Tight cs) (gap : '\n' ∉ between) (tight' : Tight ds) :
    Tight (cs ++ between ++ ds) where
  first := by
    obtain ⟨c, isFirst, visible⟩ := tight.first
    exact ⟨c, by rw [append_assoc, head?_append, isFirst, Option.some_or], visible⟩
  last := by
    obtain ⟨c, isLast, visible⟩ := tight'.last
    exact ⟨c, by rw [getLast?_append, isLast, Option.some_or], visible⟩
  line := by simp [tight.line, gap, tight'.line]

theorem Tight.append (tight : Tight cs) (tight' : Tight ds) : Tight (cs ++ ds) := by
  simpa using tight.join not_mem_nil tight'

theorem trimLeft_eq (first : ∃ c, cs.head? = some c ∧ isBlank c = false) : trimLeft cs = cs := by
  obtain ⟨c, isFirst, visible⟩ := first
  obtain ⟨rest, rfl⟩ := head?_eq_some_iff.mp isFirst
  exact dropWhile_cons_of_neg (ne_true_of_eq_false visible)

theorem trimRight_eq (last : ∃ c, cs.getLast? = some c ∧ isBlank c = false) :
    trimRight cs = cs := by
  rw [← head?_reverse] at last
  rw [trimRight, ← trimLeft, trimLeft_eq last, reverse_reverse]

theorem Tight.trim_cons (tight : Tight cs) : trim (' ' :: cs) = cs := by
  rw [trim, trimLeft, dropWhile_cons_of_pos rfl, ← trimLeft, trimLeft_eq tight.first,
    trimRight_eq tight.last]

theorem isBlank_of_visible (low : 33 ≤ c.toNat) (high : c.toNat < 128) : isBlank c = false := by
  simp only [isBlank, Bool.or_eq_false_iff, Bool.and_eq_false_imp, decide_eq_true_eq,
    decide_eq_false_iff_not, beq_eq_false_iff_ne]
  omega

end Text

open Text

namespace Json

def Inked (text rest : List Char) : Prop := ∃ ink, text = ink ++ rest ∧ Tight ink

theorem Inked.trans (first : Inked cs ds) (second : Inked ds rest) : Inked cs rest := by
  obtain ⟨ink, rfl, tight⟩ := first
  obtain ⟨more, rfl, tight'⟩ := second
  exact ⟨ink ++ more, (append_assoc ..).symm, tight.append tight'⟩

theorem inked_append (some : cs ≠ []) (visible : ∀ c ∈ cs, Text.isBlank c = false) :
    Inked (cs ++ rest) rest := ⟨cs, rfl, tight_of_visible some visible⟩

theorem inked_cons (visible : Text.isBlank c = false) : Inked (c :: rest) rest :=
  inked_append (cons_ne_nil c []) (by simpa using visible)

theorem Inked.cons (visible : Text.isBlank c = false) (inked : Inked cs rest) :
    Inked (c :: cs) rest := (inked_cons visible).trans inked

theorem isBlank_of_isNumberChar (number : isNumberChar c = true) : Text.isBlank c = false := by
  simp only [isNumberChar, Bool.or_eq_true, decide_eq_true_eq, Char.isDigit_iff_toNat] at number
  rcases number with ((((⟨low, high⟩ | rfl) | rfl) | rfl) | rfl) | rfl
  · exact isBlank_of_visible (Nat.le_trans (by decide) low) (Nat.lt_of_le_of_lt high (by decide))
  all_goals rfl

theorem IsNumeral.inked (numeral : IsNumeral cs) : Inked (cs ++ rest) rest := by
  refine inked_append ?_ fun c member => isBlank_of_isNumberChar (numeral.numberChar c member)
  rintro rfl
  exact numeral

theorem line_escapeChar (c : Char) : '\n' ∉ escapeChar c := by
  rw [escapeChar.eq_def]
  split
  any_goals decide
  split
  · have plain : ∀ n < 16, n.digitChar ≠ '\n' := by decide
    simp [hexPair, (plain (c.toNat / 16) (by omega)).symm, (plain (c.toNat % 16) (by omega)).symm]
  · simpa [eq_comm]

theorem inked_quoteOnto (s : String) : Inked (quoteOnto s rest) rest := by
  refine ⟨'"' :: s.toList.flatMap escapeChar ++ ['"'], ?_, ⟨'"', rfl, rfl⟩,
    ⟨'"', getLast?_concat, rfl⟩, ?_⟩
  · rw [quoteOnto]
    induction s.toList with
    | nil => rfl
    | cons => simp_all
  · simp [line_escapeChar]

end Json

namespace Value

open Json

mutual

theorem inked_onto (v : Value) (rest : List Char) : Inked (v.onto rest) rest := by
  cases v with
  | null => exact .cons rfl (.cons rfl (.cons rfl (inked_cons rfl)))
  | bool b =>
    cases b with
    | true => exact .cons rfl (.cons rfl (.cons rfl (inked_cons rfl)))
    | false => exact .cons rfl (.cons rfl (.cons rfl (.cons rfl (inked_cons rfl))))
  | int i =>
    rw [onto, intOnto_eq]
    exact (isNumeral_intOnto i).inked
  | float x => exact (isNumeral_float layout x).inked
  | str s => exact inked_quoteOnto s
  | arr items =>
    cases items with
    | nil => exact .cons rfl (inked_cons rfl)
    | cons v vs => exact .cons rfl ((inked_onto v _).trans (inked_itemsOnto vs rest))
  | obj fields =>
    cases fields with
    | nil => exact .cons rfl (inked_cons rfl)
    | cons field fields =>
      have value := (inked_onto field.2 _).trans (inked_fieldsOnto fields rest)
      exact .cons rfl ((inked_quoteOnto field.1).trans (value.cons rfl))
termination_by structural v

theorem inked_itemsOnto (items : List Value) (rest : List Char) :
    Inked (itemsOnto items rest) rest := by
  cases items with
  | nil => exact inked_cons rfl
  | cons v vs => exact .cons rfl ((inked_onto v _).trans (inked_itemsOnto vs rest))
termination_by structural items

theorem inked_fieldsOnto (fields : List (String × Value)) (rest : List Char) :
    Inked (fieldsOnto fields rest) rest := by
  cases fields with
  | nil => exact inked_cons rfl
  | cons field fields =>
    have value := (inked_onto field.2 _).trans (inked_fieldsOnto fields rest)
    exact .cons rfl ((inked_quoteOnto field.1).trans (value.cons rfl))
termination_by structural fields

end

theorem tight_render (v : Value) : Tight v.render.toList := by
  obtain ⟨ink, same, tight⟩ := v.inked_onto []
  rw [render, String.toList_ofList, same, append_nil]
  exact tight

end Value

namespace Condition

variable {path token : String} {op : Comparison}

/-- A letter or an underscore, and then word characters and dots. -/
def IsPath (path : String) : Prop :=
  ∃ first rest, path.toList = first :: rest ∧ isPathStart first = true ∧
    ∀ c ∈ rest, isPathChar c = true

def tokens : List String := ["==", "!=", ">", ">=", "<", "<=", "contains"]

theorem literal?_of_tight (tight : Tight text) : literal? (' ' :: text) = some text := by
  rw [literal?, tight.trim_cons]
  split
  · cases tight.first.choose_spec.1
  · rw [if_neg (by simpa using tight.line)]

/-- Behind a path and a blank the operator is read as it was written. -/
theorem rest?_written (isToken : token ∈ tokens) (means : Comparison.ofName? token = some op)
    (tight : Tight text) (last : Char) :
    rest? last (' ' :: (token.toList ++ ' ' :: text)) = some (op, literalValue text) := by
  have literal := literal?_of_tight tight
  have found : ∃ others, operators ' ' (token.toList ++ ' ' :: text) = (op, ' ' :: text) :: others ∧
      trimLeft (' ' :: (token.toList ++ ' ' :: text)) = token.toList ++ ' ' :: text := by
    simp only [tokens, mem_cons, not_mem_nil, or_false] at isToken
    rcases isToken with rfl | rfl | rfl | rfl | rfl | rfl | rfl <;> cases means <;>
      exact ⟨_, rfl, rfl⟩
  obtain ⟨others, reads, trimmed⟩ := found
  rw [rest?, trimmed]
  simp [reads, literal]

theorem isBlank_of_isPathStart (start : isPathStart c = true) : isBlank c = false := by
  change ((decide ('A'.val ≤ c.val ∧ c.val ≤ 'Z'.val) ||
    (decide ('a'.val ≤ c.val) && decide (c.val ≤ 'z'.val))) || c == '_') = true at start
  simp only [Bool.or_eq_true, Bool.and_eq_true, decide_eq_true_eq, beq_iff_eq,
    UInt32.le_iff_toNat_le] at start
  rcases start with (⟨low, high⟩ | ⟨low, high⟩) | rfl
  · exact isBlank_of_visible (Nat.le_trans (by decide) low) (Nat.lt_of_le_of_lt high (by decide))
  · exact isBlank_of_visible (Nat.le_trans (by decide) low) (Nat.lt_of_le_of_lt high (by decide))
  · rfl

theorem parse_of_tight (isPath : IsPath path) (isToken : token ∈ tokens)
    (means : Comparison.ofName? token = some op) {text : String} (tight : Tight text.toList) :
    let source := path ++ " " ++ token ++ " " ++ text
    parse source = .ok ⟨source, path, op, literalValue text.toList⟩ := by
  intro source
  obtain ⟨first, rest, isPath, start, chars⟩ := isPath
  have cut : source.toList =
      first :: (rest ++ ' ' :: (token.toList ++ ' ' :: text.toList)) := by
    simp [source, isPath]
  have trimmed : trimLeft source.toList = source.toList :=
    trimLeft_eq ⟨first, by rw [cut]; rfl, isBlank_of_isPathStart start⟩
  have run : (rest ++ ' ' :: (token.toList ++ ' ' :: text.toList)).takeWhile isPathChar = rest := by
    rw [takeWhile_append_of_pos chars, takeWhile_cons_of_neg (by decide), append_nil]
  rw [parse, trimmed, cut]
  simp only [if_pos start, run, range_succ, reverse_append, reverse_singleton,
    singleton_append, findSome?_cons, take_left, drop_left]
  rw [rest?_written isToken means tight]
  simp [← isPath]

/-- A condition that is written as path, operator and literal is read as these three. -/
theorem parse_written (isPath : IsPath path) (isToken : token ∈ tokens)
    (means : Comparison.ofName? token = some op) :
    (∀ v : Value, v.Proper → v.depth ≤ Json.maxDepth → (∀ x ∈ v.floats, Json.Rereads x) →
      let source := path ++ " " ++ token ++ " " ++ v.render
      parse source = .ok ⟨source, path, op, v⟩) ∧
    ∀ text : String, Tight text.toList → Value.read? text = none →
      let source := path ++ " " ++ token ++ " " ++ text
      parse source = .ok ⟨source, path, op, .str text⟩ := by
  constructor
  · intro v proper within rereads source
    rw [parse_of_tight isPath isToken means v.tight_render, literalValue, String.ofList_toList,
      Value.read?_render_eq proper rereads, if_pos within, Option.getD_some]
  · intro text tight foreign source
    rw [parse_of_tight isPath isToken means tight, literalValue, String.ofList_toList, foreign,
      Option.getD_none]

/-- A list whose text holds an operator and ends with a float. -/
def crowded : Value := .arr [.str "a == b\n", .int (-2), .float 1.5]

theorem parse_written_crowded :
    parse ("contains.x" ++ " " ++ ">" ++ " " ++ crowded.render) =
      .ok ⟨"contains.x > [\"a == b\\n\",-2,1.5]", "contains.x", .gt, crowded⟩ ∧
    parse ("contains" ++ " " ++ "contains" ++ " " ++ "= contains") =
      .ok ⟨"contains contains = contains", "contains", .contains, .str "= contains"⟩ := by
  have isPath : IsPath "contains.x" := ⟨'c', "ontains.x".toList, rfl, rfl, List.all_eq_true.mp rfl⟩
  have isWord : IsPath "contains" := ⟨'c', "ontains".toList, rfl, rfl, List.all_eq_true.mp rfl⟩
  constructor
  · refine (parse_written isPath (by decide) rfl).1 crowded ⟨by decide, .arr ?_⟩ (by decide) ?_
    · simp [Value.Ordered.str, Value.Ordered.int, Value.Ordered.float]
    · exact List.forall_mem_singleton.mpr rfl
  · refine (parse_written isWord (by decide) rfl).2 "= contains" ⟨⟨_, rfl, rfl⟩, ⟨_, rfl, rfl⟩, ?_⟩ ?_
    · decide
    · exact Option.isNone_iff_eq_none.mp (by decide +kernel)

/-- The text of a float may be read as a float next to it. -/
theorem parse_misses_tiny :
    IsPath "x" ∧ (Value.float 1e-23).Proper ∧ (Value.float 1e-23).depth ≤ Json.maxDepth ∧
    ∃ condition, parse ("x" ++ " " ++ "==" ++ " " ++ (Value.float 1e-23).render) = .ok condition ∧
      condition.literal ≠ .float 1e-23 := by
  have isPath : IsPath "x" := ⟨'x', [], rfl, rfl, List.forall_mem_nil _⟩
  have computed : (parse ("x" ++ " " ++ "==" ++ " " ++ (Value.float 1e-23).render)).toOption.any
      (fun condition => condition.literal.floats ≠ [1e-23]) = true := by decide +kernel
  obtain ⟨condition, parsed, apart⟩ := (Option.any_eq_true _ _).mp computed
  refine ⟨isPath, ⟨by decide, .float _⟩, by decide, condition, ?_, fun same => ?_⟩
  · cases answer : parse ("x" ++ " " ++ "==" ++ " " ++ (Value.float 1e-23).render) with
    | error =>
      rw [answer] at parsed
      cases parsed
    | ok =>
      rw [answer] at parsed
      cases parsed
      rfl
  · rw [same] at apart
    exact of_decide_eq_true apart rfl

end Condition

end Pinflow
