import Pinflow.Json.Printer
import Pinflow.Json.Token

/-!
# Cutting printed text

What the tokens of a printed text are, whatever follows it: a separator is one token, a
quoted string is the string, and a numeral is whatever its literal denotes. The text that
follows must not go on with a word or a number, see `Ends`.
-/

namespace Pinflow.Json

open List Option

variable {c : Char} {rest cs : List Char} {reading next : Reading}

/-- The tokens found before stand in front. -/
theorem tokensFrom?_found (reading : Reading) (found : List Token) (cs : List Char) :
    tokensFrom? reading found cs = (tokensFrom? reading [] cs).map (found.reverse ++ ·) := by
  induction cs generalizing reading found with
  | nil =>
    rw [tokensFrom?, tokensFrom?, Option.map_map]
    refine congrArg (Option.map · reading.close?) (funext fun tokens => ?_)
    simp
  | cons c cs ih =>
    rw [tokensFrom?, tokensFrom?]
    cases reading.next? c with
    | none => rfl
    | some next =>
      obtain ⟨tokens, reading⟩ := next
      simp only
      rw [ih, ih reading (tokens.reverse ++ []), Option.map_map]
      refine congrArg (Option.map · _) (funext fun more => ?_)
      simp

/-- One character is read. -/
theorem tokensFrom?_cons {tokens : List Token} (reads : reading.next? c = some (tokens, next))
    (cs : List Char) :
    tokensFrom? reading [] (c :: cs) = (tokensFrom? next [] cs).map (tokens ++ ·) := by
  rw [tokensFrom?, reads]
  simp only
  rw [tokensFrom?_found]
  simp

/-- One character is read, and no token is complete. -/
theorem tokensFrom?_step (reads : reading.next? c = some ([], next)) (cs : List Char) :
    tokensFrom? reading [] (c :: cs) = tokensFrom? next [] cs := by
  rw [tokensFrom?_cons reads]
  exact map_id'

theorem tokens?_punctuation {token : Token} (mark : punctuation? c = some token)
    (rest : List Char) : tokens? (c :: rest) = (tokens? rest).map (token :: ·) := by
  have starts : Reading.idle.next? c = some ([token], .idle) := by
    rw [punctuation?.eq_def] at mark
    split at mark <;> cases mark <;> rfl
  exact tokensFrom?_cons starts rest

/-- A text that goes on with neither a word nor a number. -/
def Ends : List Char → Prop
  | [] => True
  | c :: _ => isNumberChar c = false ∧ c.isLower = false

/-- A reading that is complete when a text begins, and that no character of it goes on with. -/
def Reading.Stops (reading : Reading) : List Char → Prop
  | [] => True
  | c :: _ => reading.next? c = do
    let done ← reading.close?
    let (tokens, next) ← start? c
    some (done ++ tokens, next)

theorem Ends.word (ends : Ends rest) (seen : List Char) : (Reading.word seen).Stops rest := by
  cases rest with
  | nil => trivial
  | cons =>
    rw [Reading.Stops, Reading.next?, if_neg (ne_true_of_eq_false ends.2)]

theorem Ends.number (ends : Ends rest) (seen : List Char) : (Reading.number seen).Stops rest := by
  cases rest with
  | nil => trivial
  | cons =>
    rw [Reading.Stops, Reading.next?, if_neg (ne_true_of_eq_false ends.1)]

/-- The token being read ends where the text does not go on with it. -/
theorem tokensFrom?_of_stops (stops : reading.Stops rest) :
    tokensFrom? reading [] rest =
      reading.close?.bind fun done => (tokens? rest).map (done ++ ·) := by
  cases rest with
  | nil =>
    rw [tokensFrom?]
    cases reading.close? with
    | none => rfl
    | some => simp [tokens?, tokensFrom?, Reading.close?]
  | cons c rest =>
    rw [tokensFrom?, stops, tokens?, tokensFrom?]
    cases reading.close? with
    | none => rfl
    | some done =>
      have idle : Reading.idle.next? c = Reading.start? c := rfl
      rw [idle]
      cases Reading.start? c with
      | none => rfl
      | some next =>
        obtain ⟨tokens, next⟩ := next
        show tokensFrom? next ((done ++ tokens).reverse ++ []) rest =
          (tokensFrom? next (tokens.reverse ++ []) rest).map (done ++ ·)
        rw [tokensFrom?_found, tokensFrom?_found next (tokens.reverse ++ []), Option.map_map]
        refine congrArg (Option.map · _) (funext fun more => ?_)
        simp

/-- A digit opens and closes nothing. -/
theorem digitChar_plain : ∀ n < 16, n.digitChar ≠ '\\' ∧ n.digitChar ≠ '"' := by
  decide

theorem hexUnit?_hexPair : ∀ n < 32,
    hexUnit? '0' '0' (Nat.digitChar (n / 16)) (Nat.digitChar (n % 16)) = some n := by
  decide

/-- A character inside quotes is read on. -/
theorem tokensFrom?_escapeChar (c : Char) (seen rest : List Char) :
    tokensFrom? (.quoted seen false) [] (escapeChar c ++ rest) =
      tokensFrom? (.quoted ((escapeChar c).reverse ++ seen) false) [] rest := by
  have plain : ∀ {c : Char} {seen rest : List Char}, c ≠ '\\' → c ≠ '"' →
      tokensFrom? (.quoted seen false) [] (c :: rest) =
        tokensFrom? (.quoted (c :: seen) false) [] rest := by
    intro c seen rest noEscape noQuote
    refine tokensFrom?_step ?_ rest
    rw [Reading.next?, if_neg noEscape, if_neg noQuote]
  rw [escapeChar.eq_def]
  split
  any_goals rfl
  rename_i noQuote noEscape _ _ _ _ _
  split
  · have first := digitChar_plain (c.toNat / 16) (by omega)
    have second := digitChar_plain (c.toNat % 16) (by omega)
    show tokensFrom? (.quoted ('0' :: '0' :: 'u' :: '\\' :: seen) false) [] (_ :: _ :: rest) = _
    rw [plain first.1 first.2, plain second.1 second.2]
    rfl
  · exact plain noEscape noQuote

theorem tokensFrom?_escaped (cs seen rest : List Char) :
    tokensFrom? (.quoted seen false) [] (cs.foldr (fun c tail => escapeChar c ++ tail) rest) =
      tokensFrom? (.quoted ((cs.flatMap escapeChar).reverse ++ seen) false) [] rest := by
  induction cs generalizing seen with
  | nil => rfl
  | cons c cs ih =>
    rw [foldr_cons, tokensFrom?_escapeChar, ih]
    simp

theorem pieces?_letter {letter : Char} (stands : escaped? letter = some c) (rest : List Char) :
    pieces? ('\\' :: letter :: rest) = (pieces? rest).map (.char c :: ·) := by
  have noUnit : letter ≠ 'u' := by
    rintro rfl
    cases stands
  rw [pieces?, stands]
  · exact map_eq_bind.symm
  · intro _ _ _ _ _ isUnit
    exact absurd isUnit noUnit

/-- A character inside quotes is one piece, which stands for it. -/
theorem pieces?_escapeChar (c : Char) (rest : List Char) :
    ∃ piece, pieces? (escapeChar c ++ rest) = (pieces? rest).map (piece :: ·) ∧
      ∀ more, joinPieces? (piece :: more) = (joinPieces? more).map (c :: ·) := by
  have isUnit : ∀ n < 32, ∀ more,
      joinPieces? (.unit n :: more) = (joinPieces? more).map (Char.ofNat n :: ·) := by
    intro n small more
    have noHigh : isHighSurrogate n = false := by simp [isHighSurrogate]; omega
    have noLow : isLowSurrogate n = false := by simp [isLowSurrogate]; omega
    cases more with
    | nil => simp [joinPieces?, noHigh, noLow]
    | cons piece => cases piece <;> simp [joinPieces?, noHigh, noLow]
  rw [escapeChar.eq_def]
  split
  any_goals exact ⟨.char _, pieces?_letter rfl rest, fun _ => rfl⟩
  rename_i noQuote noEscape _ _ _ _ _
  split
  · rename_i control
    refine ⟨.unit c.toNat, ?_, fun more => ?_⟩
    · show (hexUnit? '0' '0' _ _).bind _ = _
      rw [hexUnit?_hexPair c.toNat control]
      exact map_eq_bind.symm
    · rw [isUnit c.toNat control, Char.ofNat_toNat]
  · rename_i printed
    refine ⟨.char c, ?_, fun _ => rfl⟩
    rw [singleton_append, pieces?, if_neg (not_or.mpr ⟨noEscape, printed⟩)]
    · exact map_eq_bind.symm
    · exact fun _ _ _ _ _ escape _ => noEscape escape
    · exact fun _ _ escape _ => noEscape escape

theorem quoted?_escaped (cs : List Char) :
    quoted? (cs.flatMap escapeChar) = some (.text (some (String.ofList cs))) := by
  have cut : ∃ pieces, pieces? (cs.flatMap escapeChar) = some pieces ∧
      joinPieces? pieces = some cs := by
    induction cs with
    | nil => exact ⟨[], rfl, rfl⟩
    | cons c cs ih =>
      obtain ⟨pieces, cuts, joins⟩ := ih
      obtain ⟨piece, isCut, joined⟩ := pieces?_escapeChar c (cs.flatMap escapeChar)
      refine ⟨piece :: pieces, ?_, ?_⟩
      · rw [flatMap_cons, isCut, cuts]
        rfl
      · rw [joined, joins]
        rfl
  obtain ⟨pieces, cuts, joins⟩ := cut
  rw [quoted?, cuts]
  simp [joins]

theorem tokens?_quoteOnto (s : String) (rest : List Char) :
    tokens? (quoteOnto s rest) = (tokens? rest).map (.text (some s) :: ·) := by
  have closes : (Reading.quoted (s.toList.flatMap escapeChar).reverse false).next? '"' =
      some ([.text (some s)], .idle) := by
    show (quoted? (s.toList.flatMap escapeChar).reverse.reverse).map (fun token => ([token], Reading.idle)) = _
    rw [reverse_reverse, quoted?_escaped, String.ofList_toList]
    rfl
  have opens : Reading.idle.next? '"' = some ([], .quoted [] false) := rfl
  rw [quoteOnto, tokens?, tokensFrom?_step opens, tokensFrom?_escaped, append_nil]
  exact tokensFrom?_cons closes rest

/-- A digit or a minus sign, and then only characters of numbers. -/
def IsNumeral : List Char → Prop
  | [] => False
  | c :: cs => (c.isDigit = true ∨ c = '-') ∧ ∀ d ∈ cs, isNumberChar d = true

theorem isNumberChar_of_isDigit (digit : c.isDigit = true) : isNumberChar c = true := by
  simp [isNumberChar, digit]

namespace IsNumeral

variable {cs more : List Char}

theorem numberChar (numeral : IsNumeral cs) : ∀ c ∈ cs, isNumberChar c = true := by
  cases cs with
  | nil => exact numeral.elim
  | cons =>
    intro c member
    rcases mem_cons.mp member with rfl | member
    · rcases numeral.1 with digit | rfl
      · exact isNumberChar_of_isDigit digit
      · rfl
    · exact numeral.2 c member

theorem append (numeral : IsNumeral cs) (numbers : ∀ c ∈ more, isNumberChar c = true) :
    IsNumeral (cs ++ more) := by
  cases cs with
  | nil => exact numeral.elim
  | cons =>
    refine ⟨numeral.1, fun c member => ?_⟩
    rcases mem_append.mp member with member | member
    · exact numeral.2 c member
    · exact numbers c member

theorem of_digits (some : cs ≠ []) (digits : ∀ c ∈ cs, c.isDigit = true) : IsNumeral cs := by
  cases cs with
  | nil => exact absurd rfl some
  | cons first =>
    refine ⟨.inl (digits first mem_cons_self), fun c member => ?_⟩
    exact isNumberChar_of_isDigit (digits c (mem_cons_of_mem _ member))

theorem negative (numeral : IsNumeral cs) : IsNumeral ('-' :: cs) := ⟨.inr rfl, numeral.numberChar⟩

theorem starts (numeral : IsNumeral (c :: cs)) : Reading.idle.next? c = some ([], .number [c]) := by
  have isStart : (c.isDigit || c = '-') = true := by simpa using numeral.1
  have noBlank : isBlank c = false := by
    rw [Bool.eq_false_iff, Ne, isBlank]
    simp only [Bool.or_eq_true, decide_eq_true_eq]
    rintro (((rfl | rfl) | rfl) | rfl) <;> cases isStart
  have noQuote : c ≠ '"' := by
    rintro rfl
    cases isStart
  show Reading.start? c = _
  rw [Reading.start?, if_neg (ne_true_of_eq_false noBlank), if_neg noQuote, if_pos isStart]

end IsNumeral

theorem tokensFrom?_number (numbers : ∀ c ∈ cs, isNumberChar c = true) (seen rest : List Char) :
    tokensFrom? (.number seen) [] (cs ++ rest) =
      tokensFrom? (.number (cs.reverse ++ seen)) [] rest := by
  induction cs generalizing seen with
  | nil => rfl
  | cons c cs ih =>
    have reads : (Reading.number seen).next? c = some ([], .number (c :: seen)) := by
      rw [Reading.next?, if_pos (numbers c mem_cons_self)]
    rw [cons_append, tokensFrom?_step reads]
    rw [ih fun d member => numbers d (mem_cons_of_mem c member)]
    simp

/-- A numeral is one token, if it is well written. -/
theorem tokens?_numeral (numeral : IsNumeral cs) (ends : Ends rest) :
    tokens? (cs ++ rest) = (Literal.ofChars? cs).bind fun literal =>
      (tokens? rest).map (.number literal.number? :: ·) := by
  cases cs with
  | nil => exact numeral.elim
  | cons =>
    rw [cons_append, tokens?, tokensFrom?_step numeral.starts, tokensFrom?_number numeral.2,
      tokensFrom?_of_stops (ends.number _)]
    rw [Reading.close?, bind_map, reverse_append, reverse_reverse]
    rfl

theorem isDigit_digitChars {n : Nat} : ∀ c ∈ Decimal.digitChars n, c.isDigit = true :=
  fun _ member => Nat.isDigit_of_mem_toDigits (by decide) (by decide) member

theorem isNumeral_digitChars (n : Nat) : IsNumeral (Decimal.digitChars n) :=
  .of_digits Nat.toDigits_ne_nil isDigit_digitChars

theorem isNumeral_intOnto (i : Int) : IsNumeral (intOnto i []) := by
  rw [intOnto.eq_def]
  split
  · rw [append_nil]
    exact isNumeral_digitChars _
  · rw [append_nil]
    exact (isNumeral_digitChars _).negative

theorem intOnto_eq (i : Int) (rest : List Char) : intOnto i rest = intOnto i [] ++ rest := by
  cases i <;> simp [intOnto]

theorem isNumeral_spell (layout : Decimal.Layout) (s : Decimal.Scientific) :
    IsNumeral (layout.spell s) := by
  have digits := isNumeral_digitChars s.digits
  have zeros : ∀ n, ∀ c ∈ List.replicate n '0', isNumberChar c = true := by
    intro n c member
    rw [eq_of_mem_replicate member]
    rfl
  have point : ∀ cs : List Char, (∀ c ∈ cs, isNumberChar c = true) →
      ∀ c ∈ '.' :: cs, isNumberChar c = true := by
    intro cs numbers
    exact forall_mem_cons.mpr ⟨rfl, numbers⟩
  rw [Decimal.Layout.spell]
  split
  · split
    · exact (digits.append (zeros _)).append (point ['0'] (zeros 1))
    · split
      · refine (IsNumeral.of_digits ?_ fun c member => ?_).append (point _ fun c member => ?_)
        · rw [Ne, take_eq_nil_iff, not_or]
          exact ⟨by omega, Nat.toDigits_ne_nil⟩
        · exact isDigit_digitChars c (mem_of_mem_take member)
        · exact digits.numberChar c (mem_of_mem_drop member)
      · have zero : IsNumeral ['0'] := isNumeral_digitChars 0
        refine zero.append (point _ fun c member => ?_)
        rcases mem_append.mp member with member | member
        · exact zeros _ c member
        · exact digits.numberChar c member
  · refine IsNumeral.append ?_ ?_
    · split
      · rename_i same
        rw [← same]
        exact digits
      · rename_i d rest _ same
        rw [same] at digits
        exact ⟨digits.1, point rest digits.2⟩
      · rename_i same
        exact absurd same Nat.toDigits_ne_nil
    · refine forall_mem_cons.mpr ⟨rfl, forall_mem_cons.mpr ⟨?_, ?_⟩⟩
      · split <;> rfl
      · exact (isNumeral_digitChars _).numberChar

theorem isNumeral_float (layout : Decimal.Layout) (x : Float) : IsNumeral (layout.float x) := by
  have size : IsNumeral (if x == 0.0 then ['0', '.', '0'] else
      layout.spell (Decimal.shortest (.ofFloat x))) := by
    split
    · exact ⟨.inl rfl, by simp [isNumberChar]⟩
    · exact isNumeral_spell layout _
  rw [Decimal.Layout.float]
  split
  · exact size.negative
  · exact size

end Pinflow.Json
