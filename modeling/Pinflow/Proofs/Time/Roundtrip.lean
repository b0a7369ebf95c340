import Mathlib.Data.List.TakeWhile
import Pinflow.Proofs.Time.Calendar

/-!
# Instants through text

An instant of the calendar comes back from its text: `Instant.read?_text`. Each part of the text
is digits up to a mark, so one lemma about digits, `digits?_append`, serves all of them.
-/

namespace Pinflow.Instant

open List Nat Option

variable {nano : Nat} {mark c : Char}

section Digits

variable {n width most : Nat} {digits rest : List Char}

theorem isDigit_padded (member : c ∈ padded width n) : c.isDigit = true := by
  rcases mem_append.mp member with zero | digit
  · rw [eq_of_mem_replicate zero]
    rfl
  · exact isDigit_of_mem_toDigits (by decide) (by decide) digit

theorem length_padded (positive : 0 < width) (small : n < Nat.pow 10 width) :
    (padded width n).length = width := by
  have short : (Decimal.digitChars n).length ≤ width :=
    (length_toDigits_le_iff (by decide) positive).mpr small
  simp [padded, short]

theorem natOfDigits_padded : natOfDigits (padded width n) = n := by
  have zeros : ∀ k,
      (List.replicate k '0').foldl (fun n c => n * 10 + (c.toNat - '0'.toNat)) 0 = 0 := by
    intro k
    induction k with
    | zero => rfl
    | succ k ih => exact ih
  have step : (fun (n : Nat) (c : Char) => n * 10 + (c.toNat - '0'.toNat)) =
      fun n c => 10 * n + (c.toNat - '0'.toNat) := by
    funext n c
    rw [Nat.mul_comm]
  rw [natOfDigits, padded, foldl_append, zeros, step, ← ofDigitChars_eq_foldl]
  exact ofDigitChars_ten_toDigits

theorem not_isBlank_of_isDigit (digit : c.isDigit = true) : Text.isBlank c = false := by
  simp only [Char.isDigit, Bool.and_eq_true, decide_eq_true_eq, ge_iff_le,
    UInt32.le_iff_toNat_le] at digit
  have range : 48 ≤ c.toNat ∧ c.toNat ≤ 57 := digit
  simp only [Text.isBlank, Bool.or_eq_false_iff, Bool.and_eq_false_imp, decide_eq_true_eq,
    decide_eq_false_iff_not, beq_eq_false_iff_ne]
  omega

theorem trimLeft_append (all : ∀ c ∈ digits, c.isDigit = true) (some : digits ≠ []) :
    Text.trimLeft (digits ++ rest) = digits ++ rest := by
  cases digits with
  | nil => exact absurd rfl some
  | cons c =>
    rw [Text.trimLeft, cons_append, dropWhile_cons_of_neg]
    rw [not_isBlank_of_isDigit (all c mem_cons_self)]
    decide

/-- Digits up to something else are read as their number. -/
theorem digits?_append (all : ∀ c ∈ digits, c.isDigit = true) (nonempty : digits ≠ [])
    (short : digits.length ≤ most) (stop : ∀ c ∈ rest.head?, c.isDigit = false) :
    digits? most (digits ++ rest) = some (natOfDigits digits, rest) := by
  have stopped : (rest.take (most - digits.length)).takeWhile Char.isDigit = [] := by
    cases rest with
    | nil => rw [take_nil, takeWhile_nil]
    | cons c =>
      cases most - digits.length with
      | zero => rfl
      | succ => simp [stop c rfl]
  have taken : ((digits ++ rest).take most).takeWhile Char.isDigit = digits := by
    rw [take_append, take_of_length_le short, takeWhile_append_of_pos all, stopped,
      append_nil]
  rw [digits?, taken, if_neg nonempty, drop_left]

theorem padded_ne_nil : padded width n ≠ [] :=
  append_ne_nil_of_right_ne_nil _ toDigits_ne_nil

/-- A number of two digits, up to something else. -/
theorem field?_padded (small : n < 100) (stop : ∀ c ∈ rest.head?, c.isDigit = false) :
    field? (padded 2 n ++ rest) = some (n, rest) := by
  have short : (padded 2 n).length ≤ 2 := le_of_eq (length_padded (by decide) small)
  rw [field?, trimLeft_append (fun _ => isDigit_padded) padded_ne_nil,
    digits?_append (fun _ => isDigit_padded) padded_ne_nil short stop, natOfDigits_padded]

theorem head_cons (isMark : mark.isDigit = false) :
    ∀ c ∈ (mark :: rest).head?, c.isDigit = false := by
  intro c isFirst
  cases isFirst
  exact isMark

theorem field?_padded_cons (small : n < 100) (mark : Char) (isMark : mark.isDigit = false)
    (rest : List Char) : field? (padded 2 n ++ mark :: rest) = some (n, mark :: rest) :=
  field?_padded small (head_cons isMark)

end Digits

theorem mark?_cons (visible : Text.isBlank mark = false) (rest : List Char) :
    mark? mark (mark :: rest) = some rest := by
  simp [mark?, Text.trimLeft, visible]

theorem year?_yearChars (year : Int) (rest : List Char) :
    year? (yearChars year ++ '-' :: rest) = some (year, '-' :: rest) := by
  have stop : ∀ c ∈ ('-' :: rest).head?, c.isDigit = false := head_cons rfl
  by_cases plain : 0 ≤ year ∧ year ≤ 9999
  · rw [yearChars, if_pos plain, year?, trimLeft_append (fun _ => isDigit_padded) padded_ne_nil]
    have short : (padded 4 year.toNat).length ≤ 4 :=
      le_of_eq (length_padded (by decide) (by show _ < 10000; omega))
    have reads := digits?_append (fun _ => isDigit_padded) padded_ne_nil short stop
    have unsigned : ∀ sign others, padded 4 year.toNat ++ '-' :: rest = sign :: others →
        sign.isDigit = true := by
      intro sign others same
      obtain ⟨first, digits, isPadded⟩ := exists_cons_of_ne_nil (@padded_ne_nil year.toNat 4)
      rw [isPadded] at same
      cases same
      exact isDigit_padded (isPadded ▸ mem_cons_self)
    split
    · rename_i others same
      exact absurd (unsigned '-' others same) (by decide)
    · rename_i others same
      exact absurd (unsigned '+' others same) (by decide)
    · simp only [reads, natOfDigits_padded, map_some, Int.toNat_of_nonneg plain.1]
  · have long : (padded 4 year.natAbs).length ≤ (padded 4 year.natAbs ++ '-' :: rest).length := by
      simp
    have reads := digits?_append (fun _ => isDigit_padded) padded_ne_nil long stop
    rw [natOfDigits_padded] at reads
    rw [yearChars, if_neg plain]
    by_cases negative : year < 0
    · rw [if_pos negative, year?, cons_append, Text.trimLeft,
        dropWhile_cons_of_neg (by decide)]
      simp only [reads, map_some]
      rw [Int.ofNat_natAbs_of_nonpos (by omega), Int.neg_neg]
    · rw [if_neg negative, year?, cons_append, Text.trimLeft,
        dropWhile_cons_of_neg (by decide)]
      simp only [reads, map_some]
      rw [Int.natAbs_of_nonneg (by omega)]

/-- A fraction of so many digits. -/
theorem fraction?_padded {digits count : Nat} (positive : 0 < digits) (nine : digits ≤ 9)
    (small : count < Nat.pow 10 digits) (scaled : count * Nat.pow 10 (9 - digits) = nano)
    (rest : List Char) :
    fraction? ('.' :: padded digits count ++ 'Z' :: rest) = some (nano, 'Z' :: rest) := by
  have taken :
      (padded digits count ++ 'Z' :: rest).takeWhile Char.isDigit = padded digits count := by
    rw [takeWhile_append_of_pos fun _ => isDigit_padded,
      takeWhile_cons_of_neg (by decide), append_nil]
  have length := length_padded positive small
  have allTaken : (padded digits count).take 9 = padded digits count :=
    take_of_length_le (by omega)
  have left : (padded digits count ++ 'Z' :: rest).drop digits = 'Z' :: rest :=
    drop_left' length
  simp only [fraction?, cons_append, taken, if_neg padded_ne_nil, allTaken, natOfDigits_padded,
    length, left, scaled]

/-- A fraction is written with as many digits as make it exact. -/
theorem exists_fractionChars (some : nano ≠ 0) (small : nano < 1000000000) :
    ∃ digits count, 0 < digits ∧ digits ≤ 9 ∧ count < Nat.pow 10 digits ∧
      count * Nat.pow 10 (9 - digits) = nano ∧ fractionChars nano = '.' :: padded digits count := by
  by_cases millis : nano % 1000000 = 0
  · refine ⟨3, nano / 1000000, by decide, by decide, ?_, ?_, ?_⟩
    · show nano / 1000000 < 1000
      omega
    · exact Nat.div_mul_cancel (dvd_of_mod_eq_zero millis)
    · rw [fractionChars, if_neg some, if_pos millis]
  · by_cases micros : nano % 1000 = 0
    · refine ⟨6, nano / 1000, by decide, by decide, ?_, ?_, ?_⟩
      · show nano / 1000 < 1000000
        omega
      · exact Nat.div_mul_cancel (dvd_of_mod_eq_zero micros)
      · rw [fractionChars, if_neg some, if_neg millis, if_pos micros]
    · refine ⟨9, nano, by decide, by decide, small, Nat.mul_one nano, ?_⟩
      rw [fractionChars, if_neg some, if_neg millis, if_neg micros]

theorem fraction?_fractionChars (small : nano < 1000000000) (rest : List Char) :
    fraction? (fractionChars nano ++ 'Z' :: rest) = some (nano, 'Z' :: rest) := by
  by_cases zero : nano = 0
  · rw [zero]
    rfl
  · obtain ⟨digits, count, positive, nine, short, scaled, written⟩ :=
      exists_fractionChars zero small
    rw [written]
    exact fraction?_padded positive nine short scaled rest

theorem head_fractionChars (small : nano < 1000000000) (rest : List Char) :
    ∀ c ∈ (fractionChars nano ++ 'Z' :: rest).head?, c.isDigit = false := by
  by_cases zero : nano = 0
  · rw [zero]
    exact head_cons rfl
  · obtain ⟨digits, count, -, -, -, -, written⟩ := exists_fractionChars zero small
    rw [written]
    exact head_cons rfl

structure Valid (instant : Instant) : Prop where
  after : dayOf firstYear 1 1 ≤ instant.day
  before : instant.day ≤ dayOf lastYear 12 31
  second : instant.second < 86400
  nano : instant.nano < 2000000000
  leap : 1000000000 ≤ instant.nano → instant.second % 60 = 59

instance (instant : Instant) : Decidable instant.Valid :=
  decidable_of_iff (dayOf firstYear 1 1 ≤ instant.day ∧ instant.day ≤ dayOf lastYear 12 31 ∧
      instant.second < 86400 ∧ instant.nano < 2000000000 ∧
      (1000000000 ≤ instant.nano → instant.second % 60 = 59))
    ⟨fun facts => ⟨facts.1, facts.2.1, facts.2.2.1, facts.2.2.2.1, facts.2.2.2.2⟩,
      fun valid => ⟨valid.after, valid.before, valid.second, valid.nano, valid.leap⟩⟩

/-- The numbers that the text of an instant shows. -/
def stamp (instant : Instant) : Stamp where
  year := (dateOf instant.day).1
  month := (dateOf instant.day).2.1
  day := (dateOf instant.day).2.2
  hour := instant.second / 3600
  minute := instant.second / 60 % 60
  second := instant.second % 60 + instant.nano / 1000000000
  nano := instant.nano % 1000000000
  offset := 0

theorem toList_text (instant : Instant) :
    instant.text.toList = yearChars instant.stamp.year ++ '-' ::
      (padded 2 instant.stamp.month ++ '-' :: (padded 2 instant.stamp.day ++ 'T' ::
        (padded 2 instant.stamp.hour ++ ':' :: (padded 2 instant.stamp.minute ++ ':' ::
          (padded 2 instant.stamp.second ++ (fractionChars instant.stamp.nano ++ ['Z'])))))) := by
  simp [text, localText, stamp]

section Valid

variable {instant : Instant} (valid : instant.Valid)
include valid

/-- The numbers of an instant fit into their places. -/
theorem stamp_small : instant.stamp.month < 100 ∧ instant.stamp.day < 100 ∧
    instant.stamp.hour < 100 ∧ instant.stamp.minute < 100 ∧ instant.stamp.second < 100 ∧
    instant.stamp.nano < 1000000000 := by
  obtain ⟨-, -, second, nano, -⟩ := valid
  obtain ⟨-, lastMonth, -, lastDay⟩ := dateOf_valid instant.day
  have days := daysInMonth_le (dateOf instant.day).1 (dateOf instant.day).2.1
  simp only [stamp]
  omega

/-- The text of an instant shows its numbers. -/
theorem stamp?_text : stamp? instant.text = some instant.stamp := by
  obtain ⟨month, day, hour, minute, seconds, fraction⟩ := stamp_small valid
  have utc : offset? (Text.trimLeft ['Z']) = some (instant.stamp.offset, []) := rfl
  have dash := @mark?_cons '-' rfl
  have colon := @mark?_cons ':' rfl
  have letter : ∀ rest, separator? ('T' :: rest) = some rest := fun _ => rfl
  rw [stamp?, toList_text, year?_yearChars]
  dsimp only [bind_eq_bind, bind_some]
  rw [dash, bind_some, field?_padded_cons month '-' rfl, bind_some,
    dash, bind_some, field?_padded_cons day 'T' rfl, bind_some,
    letter, bind_some, field?_padded_cons hour ':' rfl, bind_some,
    colon, bind_some, field?_padded_cons minute ':' rfl, bind_some,
    colon, bind_some, field?_padded seconds (head_fractionChars fraction []),
    bind_some, fraction?_fractionChars fraction, bind_some, utc, bind_some]
  rfl

theorem isPossible_stamp : instant.stamp.isPossible = true := by
  obtain ⟨after, before, second, nano, leap⟩ := valid
  obtain ⟨firstMonth, lastMonth, firstDay, lastDay⟩ := dateOf_valid instant.day
  obtain ⟨firstYear, lastYear⟩ := year_dateOf after before
  have hour : instant.second / 3600 ≤ 23 := by omega
  have minute : instant.second / 60 % 60 ≤ 59 := by omega
  have seconds : instant.second % 60 + instant.nano / 1000000000 ≤ 60 := by omega
  simp [Stamp.isPossible, stamp, firstMonth, lastMonth, firstDay, lastDay, hour, minute, seconds,
    firstYear, lastYear]

theorem moment_stamp : instant.stamp.moment = (instant.second % 60, instant.nano) := by
  obtain ⟨-, -, second, nano, leap⟩ := valid
  by_cases isLeap : instant.stamp.second = 60
  · have parts : instant.second % 60 + instant.nano / 1000000000 = 60 := isLeap
    rw [Stamp.moment, if_pos isLeap, Prod.mk.injEq]
    show 59 = instant.second % 60 ∧ instant.nano % 1000000000 + 1000000000 = instant.nano
    omega
  · have parts : instant.second % 60 + instant.nano / 1000000000 ≠ 60 := isLeap
    rw [Stamp.moment, if_neg isLeap, Prod.mk.injEq]
    show instant.second % 60 + instant.nano / 1000000000 = instant.second % 60 ∧
      instant.nano % 1000000000 = instant.nano
    omega

theorem total_stamp : instant.stamp.total = instant.day * 86400 + instant.second := by
  rw [Stamp.total, moment_stamp valid]
  simp only [stamp, dayOf_dateOf]
  omega

/-- An instant is read back from its text. -/
theorem read?_text : read? instant.text = some instant := by
  have second := valid.second
  have day : (instant.day * 86400 + instant.second) / 86400 = instant.day := by omega
  have rest : ((instant.day * 86400 + instant.second) % 86400).toNat = instant.second := by omega
  rw [read?, stamp?_text valid, bind_some, Stamp.instant?]
  simp only [total_stamp valid, moment_stamp valid, isPossible_stamp valid, day, rest,
    valid.after, valid.before, decide_true, Bool.and_self, if_true]

end Valid

end Pinflow.Instant
