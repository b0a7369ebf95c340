import Mathlib.Data.List.Basic
import Pinflow.Proofs.Condition.Roundtrip

/-!
# What reads as a condition

A text reads as a condition only if it is a path, an operator and a `Tight` literal with blanks
around them, and then blanks at its ends change nothing, `Condition.parse_in_grammar_of_finished`.
This is so unless nothing but blanks stands behind the operator: then one of the blanks may be
taken for the literal, or a part of the operator.
-/

namespace Pinflow

open List

variable {c : Char} {cs ds text rest blanks : List Char}

namespace Text

def Blank (cs : List Char) : Prop := ∀ c ∈ cs, isBlank c = true

theorem isWord_of_isBlank (blank : isBlank c = true) : isWord c = false := by
  have listed : ∀ n ∈ [9, 10, 11, 12, 13, 0x20, 0x85, 0xA0, 0x1680, 0x2000, 0x2001, 0x2002, 0x2003,
      0x2004, 0x2005, 0x2006, 0x2007, 0x2008, 0x2009, 0x200A, 0x2028, 0x2029, 0x202F, 0x205F,
      0x3000], isWord (Char.ofNat n) = false := by decide +kernel
  rw [← Char.ofNat_toNat c]
  apply listed
  simp only [isBlank, Bool.or_eq_true, Bool.and_eq_true, decide_eq_true_eq, beq_iff_eq] at blank
  simp only [mem_cons, not_mem_nil, or_false]
  omega

theorem Blank.any_head? (blank : Blank cs) : cs.head?.any isWord = false := by
  cases cs with
  | nil => rfl
  | cons c cs => exact isWord_of_isBlank (blank c mem_cons_self)

theorem trimLeft_append (seen : ¬ Blank cs) : trimLeft (cs ++ ds) = trimLeft cs ++ ds := by
  rw [trimLeft, dropWhile_append, if_neg, trimLeft]
  rwa [List.isEmpty_iff, dropWhile_eq_nil_iff]

theorem trimLeft_blank_append (blank : Blank blanks) : trimLeft (blanks ++ cs) = trimLeft cs :=
  dropWhile_append_of_pos blank

theorem trimRight_append (blank : Blank blanks) : trimRight (cs ++ blanks) = trimRight cs := by
  have blank : ∀ c ∈ blanks.reverse, isBlank c = true := fun c member =>
    blank c (mem_reverse.mp member)
  rw [trimRight, reverse_append, dropWhile_append_of_pos blank, trimRight]

theorem trim_append (seen : ¬ Blank cs) (blank : Blank blanks) : trim (cs ++ blanks) = trim cs := by
  rw [trim, trimLeft_append seen, trimRight_append blank, trim]

theorem trimLeft_parts (seen : ¬ Blank cs) : ∃ left c rest, cs = left ++ trimLeft cs ∧
    Blank left ∧ trimLeft cs = c :: rest ∧ isBlank c = false := by
  obtain ⟨c, rest, begins⟩ := exists_cons_of_ne_nil (mt dropWhile_eq_nil_iff.mp seen)
  have visible : isBlank c = false := by simpa [begins] using head?_dropWhile_not isBlank cs
  exact ⟨cs.takeWhile isBlank, c, rest, takeWhile_append_dropWhile.symm,
    fun _ member => mem_takeWhile_imp member, begins, visible⟩

/-- What is trimmed off are blanks, and what is left begins and ends with none. -/
theorem trim_parts (seen : ¬ Blank cs) : ∃ left right, cs = left ++ trim cs ++ right ∧
    Blank left ∧ Blank right ∧ (∃ c, (trim cs).head? = some c ∧ isBlank c = false) ∧
    ∃ c, (trim cs).getLast? = some c ∧ isBlank c = false := by
  obtain ⟨left, c, rest, parts, blank, begins, visible⟩ := trimLeft_parts seen
  have seen' : ¬ Blank (trimLeft cs).reverse := fun all => by
    rw [all c (by simp [begins])] at visible
    cases visible
  obtain ⟨right, c', rest', parts', blank', ends, visible'⟩ := trimLeft_parts seen'
  have text : trim cs = rest'.reverse ++ [c'] := by
    rw [trim, trimRight, ← trimLeft, ends, reverse_cons]
  have whole : trim cs ++ right.reverse = c :: rest := by
    rw [← begins, ← reverse_reverse (trimLeft cs), parts', ends, text]
    simp
  refine ⟨left, right.reverse, by rw [append_assoc, whole, ← begins, ← parts], blank,
    fun c member => blank' c (mem_reverse.mp member), ⟨c, ?_, visible⟩, c', ?_, visible'⟩
  · have first := congrArg head? whole
    rw [text] at first ⊢
    simpa using first
  · rw [text, getLast?_concat]

end Text

open Text

namespace Condition

variable {source path : List Char} {op : Comparison} {last before : Char} {front : List Char}

theorem after?_eq_some_iff : after? text cs = some rest ↔ cs = text ++ rest := by
  rw [after?]
  constructor
  · intro found
    split at found
    · cases found
      obtain ⟨rest, rfl⟩ := ( isPrefixOf_iff_prefix).mp ‹_›
      simp
    · cases found
  · rintro rfl
    simp

theorem after?_append (visible : ∀ c ∈ text, isBlank c = false) (blank : Blank blanks) :
    after? text (cs ++ blanks) = (after? text cs).map (· ++ blanks) := by
  ext rest
  simp only [Option.map_eq_some_iff, after?_eq_some_iff]
  constructor
  · intro parts
    rcases append_eq_append_iff.mp parts with ⟨more, rfl, rfl⟩ | ⟨more, rfl, rfl⟩
    · -- What would reach into the blanks is visible.
      obtain rfl : more = [] := eq_nil_iff_forall_not_mem.mpr fun c member => by
        have seen := visible c (mem_append_right _ member)
        rw [blank c (mem_append_left _ member)] at seen
        cases seen
      exact ⟨[], by simp, rfl⟩
    · exact ⟨more, rfl, rfl⟩
  · rintro ⟨rest, rfl, rfl⟩
    rw [append_assoc]

/-- A word operator has no word character next to it. -/
def Separate (op : Comparison) (before behind : List Char) : Prop :=
  op = .contains → before.getLast?.any isWord = false ∧ behind.head?.any isWord = false

/-- A text of blanks, a path, blanks and an operator. -/
def Heads (source path : List Char) (op : Comparison) (behind : List Char) : Prop :=
  ∃ front gap token, source = front ++ path ++ gap ++ String.toList token ++ behind ∧
    Blank front ∧ Blank gap ∧ IsPath (String.ofList path) ∧ token ∈ tokens ∧
    Comparison.ofName? token = some op ∧ Separate op (path ++ gap) behind

/-- Nothing but blanks stands where the literal belongs. -/
def Unfinished (source : List Char) : Prop :=
  ∃ path op behind, Heads source path op behind ∧ Blank behind

/-- The parts of a condition with blanks around them. -/
def InGrammar (source : List Char) (condition : Condition) : Prop :=
  ∃ left text right, Heads source condition.path.toList condition.op (left ++ text ++ right) ∧
    Blank left ∧ Blank right ∧ Tight text ∧ condition.literal = literalValue text

theorem symbols_spec : ∀ entry ∈ symbols, entry.1 ∈ tokens ∧
    Comparison.ofName? entry.1 = some entry.2 ∧ entry.2 ≠ .contains ∧
    ∀ c ∈ entry.1.toList, isBlank c = false := by
  simp [symbols, tokens, Comparison.ofName?]
  decide

theorem operators_sound (member : (op, rest) ∈ operators before cs) :
    ∃ token ∈ tokens, Comparison.ofName? token = some op ∧ cs = token.toList ++ rest ∧
      (op = .contains → isWord before = false ∧ rest.head?.any isWord = false) := by
  rcases mem_append.mp member with symbol | word
  · obtain ⟨⟨symbol, op⟩, listed, found⟩ := mem_filterMap.mp symbol
    obtain ⟨rest, found, same⟩ := Option.map_eq_some_iff.mp found
    cases same
    obtain ⟨isToken, means, apart, -⟩ := symbols_spec _ listed
    exact ⟨symbol, isToken, means, after?_eq_some_iff.mp found, fun same => absurd same apart⟩
  · split at word
    · split at word
      · cases word
      · cases mem_singleton.mp word
        exact ⟨"contains", by decide, by decide, after?_eq_some_iff.mp ‹_›, fun _ => by simp_all⟩
    · cases word

theorem operators_append (blank : Blank blanks) :
    operators before (cs ++ blanks) = (operators before cs).map (Prod.map id (· ++ blanks)) := by
  have visible : ∀ c ∈ "contains".toList, isBlank c = false := by simp; decide
  rw [operators, operators, map_append, map_filterMap]
  congr 1
  · refine filterMap_congr fun entry listed => ?_
    dsimp only
    rw [after?_append (symbols_spec _ listed).2.2.2 blank, Option.map_map, Option.map_map]
    rfl
  · rw [after?_append visible blank]
    cases after? "contains".toList cs with
    | none => rfl
    | some rest =>
      have same : (rest ++ blanks).head?.any isWord = rest.head?.any isWord := by
        cases rest with
        | nil => exact blank.any_head?
        | cons => rfl
      simp only [Option.map_some, same]
      split <;> rfl

theorem literal?_of_seen (seen : ¬ Blank cs) :
    literal? cs = if '\n' ∈ trim cs then none else some (trim cs) := by
  obtain ⟨-, -, -, -, -, ⟨c, isFirst, -⟩, -⟩ := trim_parts seen
  rw [literal?]
  split
  · simp_all
  · simp

theorem literal?_append (seen : ¬ Blank cs) (blank : Blank blanks) :
    literal? (cs ++ blanks) = literal? cs := by
  have seen' : ¬ Blank (cs ++ blanks) := fun all => seen (forall_mem_append.mp all).1
  rw [literal?_of_seen seen', literal?_of_seen seen, trim_append seen blank]

theorem literal?_sound (seen : ¬ Blank cs) (found : literal? cs = some text) :
    ∃ left right, cs = left ++ text ++ right ∧ Blank left ∧ Blank right ∧ Tight text := by
  obtain ⟨left, right, parts, blank, blank', first, last⟩ := trim_parts seen
  rw [literal?_of_seen seen] at found
  split at found
  · cases found
  · cases found
    exact ⟨left, right, parts, blank, blank', first, last, ‹_›⟩

theorem isPathChar_of_isBlank (blank : isBlank c = true) : isPathChar c = false := by
  rw [isPathChar, isWord_of_isBlank blank, Bool.false_or, beq_eq_false_iff_ne]
  rintro rfl
  cases blank

theorem findSome?_congr {α β : Type} {l : List α} {f g : α → Option β}
    (same : ∀ a ∈ l, f a = g a) : l.findSome? f = l.findSome? g := by
  rw [← head?_filterMap, ← head?_filterMap, filterMap_congr same]

/-- The character before an operator. -/
def previous (last : Char) (cs : List Char) : Char :=
  if (trimLeft cs).length < cs.length then ' ' else last

theorem rest?_append (blank : Blank blanks)
    (finished : ∀ op rest, (op, rest) ∈ operators (previous last cs) (trimLeft cs) → ¬ Blank rest) :
    rest? last (cs ++ blanks) = rest? last cs := by
  by_cases seen : Blank cs
  · have none (cs : List Char) (seen : Blank cs) : rest? last cs = none := by
      rw [rest?, trimLeft, dropWhile_eq_nil_iff.mpr seen]
      rfl
    rw [none cs seen, none _ (forall_mem_append.mpr ⟨seen, blank⟩)]
  · rw [rest?, rest?, trimLeft_append seen, operators_append blank, findSome?_map]
    simp only [length_append, Nat.add_lt_add_iff_right]
    refine findSome?_congr fun entry member => ?_
    simp only [Function.comp_apply, Prod.map_fst, Prod.map_snd, id,
      literal?_append (finished _ _ member) blank]

/-- The path, the operator and the literal. -/
def parts (condition : Condition) : String × Comparison × Value :=
  (condition.path, condition.op, condition.literal)

/-- What a text that begins with no blank is read as. -/
def reading? : List Char → Option (String × Comparison × Value)
  | [] => none
  | first :: cs =>
    if isPathStart first then
      (range ((cs.takeWhile isPathChar).length + 1)).reverse.findSome? fun n =>
        (rest? ((first :: cs.take n).getLastD first) (cs.drop n)).map fun (op, literal) =>
          (String.ofList (first :: cs.take n), op, literal)
    else none

theorem parts_parse (source : String) :
    (parse source).toOption.map parts = reading? (trimLeft source.toList) := by
  rw [parse]
  cases trimLeft source.toList with
  | nil => rfl
  | cons first cs =>
    rw [reading?]
    dsimp only
    split
    · split <;> rename_i found <;>
        exact ((congrArg (Option.map parts) found).symm.trans map_findSome?).trans
          (findSome?_congr fun n _ => Option.map_map ..)
    · rfl

theorem heads_of_operators {n : Nat} {first : Char} (blank : Blank front)
    (start : isPathStart first = true) (short : n ≤ (cs.takeWhile isPathChar).length)
    (member : (op, rest) ∈ operators (previous ((first :: cs.take n).getLastD first) (cs.drop n))
      (trimLeft (cs.drop n))) :
    Heads (front ++ first :: cs) (first :: cs.take n) op rest := by
  obtain ⟨token, isToken, means, found, separate⟩ := operators_sound member
  have gap : (cs.drop n).takeWhile isBlank ++ trimLeft (cs.drop n) = cs.drop n :=
    takeWhile_append_dropWhile
  have inRun : cs.take n = (cs.takeWhile isPathChar).take n := by
    conv_lhs => rw [← takeWhile_append_dropWhile (p := isPathChar) (l := cs)]
    rw [take_append_of_le_length short]
  refine ⟨front, (cs.drop n).takeWhile isBlank, token, ?_, blank,
    fun _ member => mem_takeWhile_imp member, ⟨first, cs.take n, String.toList_ofList, start, ?_⟩,
    isToken, means, fun isWord => ⟨?_, (separate isWord).2⟩⟩
  · rw [found] at gap
    simp [gap]
  · rw [inRun]
    exact fun c member => mem_takeWhile_imp (mem_of_mem_take member)
  · have plain := (separate isWord).1
    rw [previous] at plain
    cases ends : ((cs.drop n).takeWhile isBlank).getLast? with
    | none =>
      rw [getLast?_eq_none_iff.mp ends, nil_append] at gap
      rw [gap, if_neg (Nat.lt_irrefl _)] at plain
      rw [getLast?_append, ends, Option.none_or]
      simpa [getLast?_cons] using plain
    | some c =>
      rw [getLast?_append, ends, Option.some_or]
      exact isWord_of_isBlank (mem_takeWhile_imp (mem_of_getLast? ends))

theorem reading?_sound {path : String} {literal : Value} (blank : Blank front)
    (read : reading? cs = some (path, op, literal)) :
    ∃ rest text, Heads (front ++ cs) path.toList op rest ∧ literal? rest = some text ∧
      literal = literalValue text := by
  cases cs with
  | nil => cases read
  | cons first cs =>
    rw [reading?] at read
    split at read
    case isTrue start =>
      obtain ⟨n, member, found⟩ := exists_of_findSome?_eq_some read
      obtain ⟨⟨op, literal⟩, found, same⟩ := Option.map_eq_some_iff.mp found
      cases same
      obtain ⟨⟨op, rest⟩, member', found⟩ := exists_of_findSome?_eq_some found
      obtain ⟨text, isText, same⟩ := Option.map_eq_some_iff.mp found
      cases same
      have short : n ≤ (cs.takeWhile isPathChar).length := by
        simpa [Nat.lt_succ_iff] using member
      refine ⟨rest, text, ?_, isText, rfl⟩
      rw [String.toList_ofList]
      exact heads_of_operators blank start short member'
    case isFalse => cases read

theorem reading?_append (blank : Blank front) (finished : ¬ Unfinished (front ++ cs))
    (some : cs ≠ []) (blank' : Blank blanks) :
    reading? (cs ++ blanks) = reading? cs := by
  cases cs with
  | nil => exact absurd rfl some
  | cons first cs =>
    rw [cons_append, reading?, reading?]
    split
    case isTrue start =>
      have run : (cs ++ blanks).takeWhile isPathChar = cs.takeWhile isPathChar := by
        have none : blanks.takeWhile isPathChar = [] := by
          cases blanks with
          | nil => rfl
          | cons c blanks =>
            rw [takeWhile_cons, isPathChar_of_isBlank (blank' c mem_cons_self)]
            rfl
        rw [takeWhile_append, none, append_nil]
        split
        case isTrue whole => exact (( takeWhile_prefix _).eq_of_length whole).symm
        case isFalse => rfl
      rw [run]
      refine findSome?_congr fun n member => ?_
      have short : n ≤ (cs.takeWhile isPathChar).length := by
        simpa [Nat.lt_succ_iff] using member
      have le : n ≤ cs.length := short.trans (takeWhile_sublist _).length_le
      rw [take_append_of_le_length le, drop_append_of_le_length le, rest?_append blank' ?_]
      intro op rest member empty
      exact finished ⟨_, op, rest, heads_of_operators blank start short member, empty⟩
    case isFalse => rfl

/-- A text that goes on behind its operator reads as a condition only if it is in the grammar, and
blanks around it do not change what it reads as. -/
theorem parse_in_grammar_of_finished {source : String} (finished : ¬ Unfinished source.toList) :
    (∀ condition, parse source = .ok condition → InGrammar source.toList condition) ∧
    ∀ front behind : String, Blank front.toList → Blank behind.toList →
      (parse (front ++ source ++ behind)).toOption.map parts =
        (parse source).toOption.map parts := by
  constructor
  · intro condition parsed
    have read := parts_parse source
    rw [parsed] at read
    have whole : source.toList.takeWhile isBlank ++ trimLeft source.toList = source.toList :=
      takeWhile_append_dropWhile
    obtain ⟨rest, text, heads, isText, literal⟩ :=
      reading?_sound (fun _ member => mem_takeWhile_imp member) read.symm
    rw [whole] at heads
    have seen : ¬ Blank rest := fun empty => finished ⟨_, _, _, heads, empty⟩
    obtain ⟨left, right, rfl, blank, blank', tight⟩ := literal?_sound seen isText
    exact ⟨left, text, right, heads, blank, blank', tight, literal⟩
  · intro front behind blank blank'
    rw [parts_parse, parts_parse, String.toList_append, String.toList_append, append_assoc,
      trimLeft_blank_append blank]
    by_cases seen : Blank source.toList
    · rw [trimLeft, trimLeft, dropWhile_eq_nil_iff.mpr seen,
        dropWhile_eq_nil_iff.mpr (forall_mem_append.mpr ⟨seen, blank'⟩)]
    · obtain ⟨left, c, rest, whole, blankLeft, begins, -⟩ := trimLeft_parts seen
      rw [trimLeft_append seen]
      exact reading?_append blankLeft (by rwa [← whole]) (by simp [begins]) blank'

theorem parse_in_grammar_ordered :
    InGrammar "hp>=5".toList ⟨"hp>=5", "hp", .ge, .int 5⟩ ∧
    (parse ("\t" ++ "hp>=5" ++ "\n ")).toOption.map parts = some ("hp", .ge, .int 5) := by
  have finished : ¬ Unfinished "hp>=5".toList := by
    rintro ⟨path, op, behind, ⟨front, gap, token, whole, -, -, -, isToken, -⟩, blank⟩
    have last := congrArg getLast? whole
    rw [getLast?_append] at last
    cases ends : behind.getLast? with
    | some c =>
      rw [ends] at last
      cases last
      cases blank '5' (mem_of_getLast? ends)
    | none =>
      rw [ends, getLast?_append] at last
      simp only [tokens, mem_cons, not_mem_nil, or_false] at isToken
      rcases isToken with rfl | rfl | rfl | rfl | rfl | rfl | rfl <;> cases last
  have read : parse "hp>=5" = .ok ⟨"hp>=5", "hp", .ge, .int 5⟩ := rfl
  obtain ⟨sound, stable⟩ := parse_in_grammar_of_finished finished
  refine ⟨sound _ read, ?_⟩
  rw [stable "\t" "\n " (by simp [Blank]; decide) (by simp [Blank]; decide), read]
  rfl

/-- A blank is taken for the literal that is missing. -/
theorem parse_takes_blank : parse "x == " = .ok ⟨"x == ", "x", .eq, .str " "⟩ ∧
    parse "x ==" = .error (.debug (.unparseable "x ==")) := ⟨rfl, rfl⟩

end Condition

end Pinflow
