import Pinflow.Proofs.Time.Roundtrip

/-!
# The order of instants and of their texts

Texts are compared character by character. As long as years are written with four digits and no
sign, the text of an earlier instant is less than that of a later one: `offsetText_lt_iff`. The
parts of a text stand in the order of their weight and have fixed widths, except for the
fraction, which leaves zeros out at its end; the sign of the offset behind it is less than every
digit and than the point.
-/

namespace Pinflow.Instant

open List Nat

variable {r s : List Char} {a b : Instant}

def Before (a b : Instant) : Prop :=
  a.day < b.day ∨ a.day = b.day ∧ (a.second < b.second ∨ a.second = b.second ∧ a.nano < b.nano)

/-- The year has four digits and no sign. -/
def PlainYear (instant : Instant) : Prop :=
  0 ≤ (dateOf instant.day).1 ∧ (dateOf instant.day).1 ≤ 9999

theorem before_trichotomy (a b : Instant) : a.Before b ∨ a = b ∨ b.Before a := by
  obtain ⟨dayA, secondA, nanoA⟩ := a
  obtain ⟨dayB, secondB, nanoB⟩ := b
  simp only [Before, Instant.mk.injEq]
  omega

section Digits

variable {width a b : Nat}

/-- The last digit of a padded number. -/
theorem padded_succ (positive : 0 < width) (n : Nat) :
    padded (width + 1) n = padded width (n / 10) ++ [(n % 10).digitChar] := by
  by_cases small : n < 10
  · have whole : Decimal.digitChars n = [n.digitChar] := toDigits_of_lt_base small
    have rest : Decimal.digitChars (n / 10) = ['0'] := by rw [div_eq_of_lt small]; rfl
    obtain ⟨width, rfl⟩ := exists_eq_succ_of_ne_zero (ne_of_gt positive)
    simp only [padded, whole, rest, mod_eq_of_lt small, length_singleton,
      succ_eq_add_one, Nat.add_sub_cancel, replicate_succ']
  · have last : Decimal.digitChars n = Decimal.digitChars (n / 10) ++ [(n % 10).digitChar] :=
      toDigits_of_base_le (by decide) (Nat.le_of_not_lt small)
    simp only [padded, last, length_append, length_singleton, Nat.add_sub_add_right,
      append_assoc]

theorem digitChar_lt : ∀ a < 10, ∀ b < 10, a < b → a.digitChar < b.digitChar := by decide

theorem digitChar_cons_lt (less : a < b) (small : b < 10) :
    a.digitChar :: r < b.digitChar :: s :=
  cons_lt_cons_iff.mpr (.inl (digitChar_lt a (lt_trans less small) b small less))

/-- Numbers of one width are in the order of their texts, and what follows decides if they are
the same. -/
theorem padded_append_lt (positive : 0 < width) (small : b < Nat.pow 10 width)
    (less : a < b ∨ a = b ∧ r < s) : padded width a ++ r < padded width b ++ s := by
  induction width, positive using le_induction generalizing a b r s with
  | base =>
    rcases less with less | ⟨rfl, rest⟩
    · have digit : ∀ n, n < 10 → padded 1 n = [n.digitChar] := by
        intro n short
        simp [padded, Decimal.digitChars, toDigits_of_lt_base short]
      rw [digit a (lt_trans less small), digit b small]
      exact digitChar_cons_lt less small
    · exact append_left_lt rest
  | succ width positive ih =>
    have short : b / 10 < Nat.pow 10 width := Nat.div_lt_of_lt_mul (Nat.mul_comm .. ▸ small)
    rw [padded_succ positive, padded_succ positive, append_assoc, append_assoc]
    apply ih short
    rcases less with less | ⟨rfl, rest⟩
    · by_cases tens : a / 10 = b / 10
      · exact .inr ⟨tens, digitChar_cons_lt (by omega) (mod_lt b (by decide))⟩
      · exact .inl (by omega)
    · exact .inr ⟨rfl, append_left_lt rest⟩

/-- A padded number begins with the same number less its last digits. -/
theorem exists_padded_add (positive : 0 < width) (more n : Nat) :
    ∃ last, padded (width + more) n = padded width (n / Nat.pow 10 more) ++ last ∧
      last.length = more ∧ ∀ c ∈ last, c.isDigit = true := by
  induction more generalizing n with
  | zero => exact ⟨[], by simp, rfl, forall_mem_nil _⟩
  | succ more ih =>
    obtain ⟨last, split, length, digits⟩ := ih (n / 10)
    have count : n / 10 / Nat.pow 10 more = n / Nat.pow 10 (more + 1) := by
      rw [Nat.div_div_eq_div_mul, Nat.mul_comm]
      rfl
    refine ⟨last ++ [(n % 10).digitChar], ?_, ?_, ?_⟩
    · rw [← Nat.add_assoc, padded_succ (by omega), split, count, append_assoc]
    · rw [length_append, length, length_singleton]
    · intro c member
      rcases mem_append.mp member with before | isLast
      · exact digits c before
      · rw [mem_singleton.mp isLast, isDigit_digitChar]
        exact decide_eq_true (mod_lt n (by decide))

end Digits

theorem plus_lt_of_isDigit {c : Char} (digit : c.isDigit = true) : '+' < c := by
  simp only [Char.isDigit, Bool.and_eq_true, decide_eq_true_eq, ge_iff_le] at digit
  have first : '0'.val ≤ c.val := digit.1
  exact Char.lt_def.mpr (Nat.lt_of_lt_of_le (by decide) first)

theorem pow_sub_eq {more digits : Nat} (nine : digits + more ≤ 9) :
    Nat.pow 10 (9 - digits) = Nat.pow 10 more * Nat.pow 10 (9 - (digits + more)) := by
  have sum : 9 - digits = more + (9 - (digits + more)) := by omega
  rw [sum]
  exact Nat.pow_add 10 more _

/-- Behind the point the smaller fraction is less, also if it has fewer or more digits. -/
theorem padded_plus_lt {digitsA digitsB a b : Nat} (positiveA : 0 < digitsA)
    (positiveB : 0 < digitsB) (nineA : digitsA ≤ 9) (nineB : digitsB ≤ 9)
    (small : b < Nat.pow 10 digitsB)
    (less : a * Nat.pow 10 (9 - digitsA) < b * Nat.pow 10 (9 - digitsB)) :
    padded digitsA a ++ '+' :: r < padded digitsB b ++ '+' :: s := by
  have ten : ∀ n, 0 < Nat.pow 10 n := fun n => Nat.pow_pos (by decide)
  rcases le_total digitsA digitsB with lessDigits | moreDigits
  · obtain ⟨more, rfl⟩ := Nat.exists_eq_add_of_le lessDigits
    obtain ⟨last, split, length, digits⟩ := exists_padded_add positiveA more b
    rw [pow_sub_eq nineB, ← Nat.mul_assoc] at less
    have scaled : a * Nat.pow 10 more < b := Nat.lt_of_mul_lt_mul_right less
    have short : b / Nat.pow 10 more < Nat.pow 10 digitsA := by
      apply Nat.div_lt_of_lt_mul
      rw [Nat.mul_comm]
      exact Nat.pow_add 10 digitsA more ▸ small
    rw [split, append_assoc]
    apply padded_append_lt positiveA short
    rcases lt_or_eq_of_le ((le_div_iff_mul_le (ten more)).mpr (le_of_lt scaled)) with
      smaller | same
    · exact .inl smaller
    · refine .inr ⟨same, ?_⟩
      cases last with
      | nil =>
        subst length
        rw [same] at scaled
        simp at scaled
      | cons c =>
        exact cons_lt_cons_iff.mpr (.inl (plus_lt_of_isDigit (digits c mem_cons_self)))
  · obtain ⟨more, rfl⟩ := Nat.exists_eq_add_of_le moreDigits
    obtain ⟨last, split, -, -⟩ := exists_padded_add positiveB more a
    rw [pow_sub_eq nineA, ← Nat.mul_assoc] at less
    have scaled : a < b * Nat.pow 10 more := Nat.lt_of_mul_lt_mul_right less
    have smaller : a / Nat.pow 10 more < b := (div_lt_iff_lt_mul (ten more)).mpr scaled
    rw [split, append_assoc]
    exact padded_append_lt positiveB small (.inl smaller)

theorem fractionChars_append_lt {a b : Nat} (small : b < 1000000000) (less : a < b) :
    fractionChars a ++ '+' :: r < fractionChars b ++ '+' :: s := by
  obtain ⟨digitsB, countB, positiveB, nineB, shortB, scaledB, writtenB⟩ :=
    exists_fractionChars (ne_of_gt (lt_of_le_of_lt (zero_le a) less)) small
  rw [writtenB]
  by_cases zero : a = 0
  · rw [zero]
    exact cons_lt_cons_iff.mpr (.inl (by decide))
  · obtain ⟨digitsA, countA, positiveA, nineA, -, scaledA, writtenA⟩ :=
      exists_fractionChars zero (lt_trans less small)
    rw [← scaledA, ← scaledB] at less
    rw [writtenA]
    exact cons_lt_cons_iff.mpr
      (.inr ⟨rfl, padded_plus_lt positiveA positiveB nineA nineB shortB less⟩)

theorem toList_offsetText {instant : Instant} (plain : instant.PlainYear) :
    instant.offsetText.toList = padded 4 instant.stamp.year.toNat ++ '-' ::
      (padded 2 instant.stamp.month ++ '-' :: (padded 2 instant.stamp.day ++ 'T' ::
        (padded 2 instant.stamp.hour ++ ':' :: (padded 2 instant.stamp.minute ++ ':' ::
          (padded 2 instant.stamp.second ++
            (fractionChars instant.stamp.nano ++ "+00:00".toList)))))) := by
  have year : yearChars (dateOf instant.day).1 = padded 4 (dateOf instant.day).1.toNat :=
    if_pos plain
  simp [offsetText, localText, stamp, year]

/-- The first number in which two instants differ is less for the earlier one. -/
theorem stamp_lt (validA : a.Valid) (before : a.Before b) :
    a.stamp.year < b.stamp.year ∨ a.stamp.year = b.stamp.year ∧
      (a.stamp.month < b.stamp.month ∨ a.stamp.month = b.stamp.month ∧
        (a.stamp.day < b.stamp.day ∨ a.stamp.day = b.stamp.day ∧
          (a.stamp.hour < b.stamp.hour ∨ a.stamp.hour = b.stamp.hour ∧
            (a.stamp.minute < b.stamp.minute ∨ a.stamp.minute = b.stamp.minute ∧
              (a.stamp.second < b.stamp.second ∨ a.stamp.second = b.stamp.second ∧
                a.stamp.nano < b.stamp.nano))))) := by
  have leap := validA.leap
  simp only [stamp]
  rcases before with earlier | ⟨sameDay, earlier⟩
  · have dates := dateOf_lt earlier
    omega
  · rw [sameDay]
    omega

theorem padded_cons_lt {width a b : Nat} (mark : Char) (positive : 0 < width)
    (small : b < Nat.pow 10 width) (less : a < b ∨ a = b ∧ r < s) :
    padded width a ++ mark :: r < padded width b ++ mark :: s := by
  apply padded_append_lt positive small
  rcases less with less | ⟨same, rest⟩
  · exact .inl less
  · exact .inr ⟨same, cons_lt_cons_iff.mpr (.inr ⟨rfl, rest⟩)⟩

theorem offsetText_lt (validA : a.Valid) (validB : b.Valid) (plainA : a.PlainYear)
    (plainB : b.PlainYear) (before : a.Before b) : a.offsetText < b.offsetText := by
  obtain ⟨month, day, hour, minute, second, nano⟩ := stamp_small validB
  have yearA : 0 ≤ a.stamp.year := plainA.1
  have yearB : b.stamp.year ≤ 9999 := plainB.2
  have less := stamp_lt validA before
  rw [String.lt_iff, toList_offsetText plainA, toList_offsetText plainB]
  apply padded_cons_lt '-' (by decide) (by show _ < 10000; omega)
  refine less.imp (by omega) (And.imp (congrArg Int.toNat) fun less => ?_)
  apply padded_cons_lt '-' (by decide) month
  refine less.imp_right (And.imp_right fun less => ?_)
  apply padded_cons_lt 'T' (by decide) day
  refine less.imp_right (And.imp_right fun less => ?_)
  apply padded_cons_lt ':' (by decide) hour
  refine less.imp_right (And.imp_right fun less => ?_)
  apply padded_cons_lt ':' (by decide) minute
  refine less.imp_right (And.imp_right fun less => ?_)
  apply padded_append_lt (by decide) second
  exact less.imp_right (And.imp_right (fractionChars_append_lt nano))

/-- While years have four digits, instants are in the order of their texts. -/
theorem offsetText_lt_iff (validA : a.Valid) (validB : b.Valid) (plainA : a.PlainYear)
    (plainB : b.PlainYear) : a.offsetText < b.offsetText ↔ a.Before b := by
  constructor
  · intro less
    rcases before_trichotomy a b with before | same | after
    · exact before
    · rw [same] at less
      exact absurd less (String.lt_irrefl _)
    · exact absurd less (String.lt_asymm (offsetText_lt validB validA plainB plainA after))
  · exact offsetText_lt validA validB plainA plainB

end Pinflow.Instant
