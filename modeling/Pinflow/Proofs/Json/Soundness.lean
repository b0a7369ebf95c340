import Pinflow.Json.Raw
import Pinflow.Proofs.Value.Shape

/-!
# What can be read

Whatever the text, a value that is read from it is proper and nests no deeper than is
allowed: `Value.proper_of_read?`. Integers have 64 bits because their literals were found to
be small enough, and this is followed from literals through tokens to trees; the keys of an
object increase because its entries were collected.
-/

namespace Pinflow

open List Option

variable {c : Char} {tokens : List Token}

namespace Json

variable {reading next : Reading} {cs : List Char} {expect : Expect} {token : Token}

/-- A number that is an integer of 64 bits, or none. -/
def NumberFits (n : Option Number) : Prop := ∀ i, n = some (.int i) → Value.Fits i

theorem Literal.numberFits (l : Literal) : NumberFits l.number? := by
  intro i isInt
  have noInt : l.float?.map Number.float ≠ some (.int i) := by
    cases l.float? <;> simp
  rw [number?] at isInt
  split at isInt
  · split at isInt
    · split at isInt
      · cases isInt
        rw [Value.Fits]
        omega
      · exact absurd isInt noInt
    · split at isInt
      · cases isInt
        rw [Value.Fits]
        omega
      · exact absurd isInt noInt
  · exact absurd isInt noInt

def Token.Fits : Token → Prop
  | .number n => NumberFits n
  | _ => True

theorem fits_of_word? (known : word? cs = some token) : token.Fits := by
  rw [word?.eq_def] at known
  split at known <;> cases known <;> trivial

theorem fits_of_punctuation? (known : punctuation? c = some token) : token.Fits := by
  rw [punctuation?.eq_def] at known
  split at known <;> cases known <;> trivial

namespace Reading

theorem close?_fits (closes : reading.close? = some tokens) : ∀ token ∈ tokens, token.Fits := by
  cases reading with
  | idle =>
    cases closes
    exact forall_mem_nil _
  | word =>
    obtain ⟨token, known, rfl⟩ := map_eq_some_iff.mp closes
    exact forall_mem_singleton.mpr (fits_of_word? known)
  | number =>
    obtain ⟨literal, -, rfl⟩ := map_eq_some_iff.mp closes
    exact forall_mem_singleton.mpr literal.numberFits
  | quoted => cases closes

theorem start?_fits (starts : start? c = some (tokens, next)) : ∀ token ∈ tokens, token.Fits := by
  have none : ∀ token ∈ ([] : List Token), token.Fits := fun _ member =>
    absurd member not_mem_nil
  rw [start?] at starts
  split at starts
  · cases starts
    exact none
  · split at starts
    · cases starts
      exact none
    · split at starts
      · cases starts
        exact none
      · split at starts
        · cases starts
          exact none
        · obtain ⟨token, known, same⟩ := map_eq_some_iff.mp starts
          cases same
          exact forall_mem_singleton.mpr (fits_of_punctuation? known)

theorem closeStart_fits
    (reads : (do
      let done ← reading.close?
      let (tokens, next) ← start? c
      some (done ++ tokens, next)) = some (tokens, next)) : ∀ token ∈ tokens, token.Fits := by
  obtain ⟨done, closes, reads⟩ := bind_eq_some_iff.mp reads
  obtain ⟨⟨started, next'⟩, starts, reads⟩ := bind_eq_some_iff.mp reads
  cases reads
  exact forall_mem_append.mpr ⟨close?_fits closes, start?_fits starts⟩

theorem next?_fits (reads : reading.next? c = some (tokens, next)) :
    ∀ token ∈ tokens, token.Fits := by
  have none : ∀ token ∈ ([] : List Token), token.Fits := fun _ member =>
    absurd member not_mem_nil
  cases reading with
  | idle => exact start?_fits reads
  | word | number =>
    rw [next?] at reads
    split at reads
    · cases reads
      exact none
    · exact closeStart_fits reads
  | quoted seen escaping =>
    cases escaping with
    | true =>
      cases reads
      exact none
    | false =>
      rw [next?] at reads
      split at reads
      · cases reads
        exact none
      · split at reads
        · obtain ⟨token, known, same⟩ := map_eq_some_iff.mp reads
          obtain ⟨pieces, -, rfl⟩ := map_eq_some_iff.mp known
          cases same
          exact forall_mem_singleton.mpr trivial
        · cases reads
          exact none

end Reading

theorem tokensFrom?_fits {found : List Token} (before : ∀ token ∈ found, token.Fits)
    (cut : tokensFrom? reading found cs = some tokens) : ∀ token ∈ tokens, token.Fits := by
  induction cs generalizing reading found with
  | nil =>
    obtain ⟨done, closes, rfl⟩ := map_eq_some_iff.mp cut
    intro token member
    rw [mem_reverse, mem_append, mem_reverse] at member
    exact member.elim (Reading.close?_fits closes token) (before token)
  | cons c cs ih =>
    rw [tokensFrom?] at cut
    cases reads : reading.next? c with
    | none =>
      rw [reads] at cut
      cases cut
    | some =>
      rw [reads] at cut
      refine ih (fun token member => ?_) cut
      rw [mem_append, mem_reverse] at member
      exact member.elim (Reading.next?_fits reads token) (before token)

inductive Raw.Fits : Raw → Prop
  | null : Fits .null
  | bool (b : Bool) : Fits (.bool b)
  | number {n : Option Number} (fits : NumberFits n) : Fits (.number n)
  | text (s : Option String) : Fits (.text s)
  | list {items : List Raw} (all : ∀ item ∈ items, Fits item) : Fits (.list items)
  | table {members : List (Option String × Raw)} (all : ∀ member ∈ members, Fits member.2) :
    Fits (.table members)

def Frame.Fits : Frame → Prop
  | .list items => ∀ item ∈ items, item.Fits
  | .table members => ∀ member ∈ members, member.2.Fits
  | .member _ => True

def Expect.Fits : Expect → Prop
  | .ending tree => tree.Fits
  | _ => True

/-- What one step of reading keeps. -/
def StateFits (state : List Frame × Expect) : Prop :=
  (∀ frame ∈ state.1, frame.Fits) ∧ state.2.Fits

namespace Expect

variable {stack : List Frame} {state : List Frame × Expect} {token : Token}

theorem complete_fits {tree : Raw} (fits : tree.Fits) (before : ∀ frame ∈ stack, frame.Fits)
    (completes : complete tree stack = some state) : StateFits state := by
  rw [complete.eq_def] at completes
  split at completes
  · cases completes
    exact ⟨forall_mem_nil _, fits⟩
  · cases completes
    obtain ⟨first, rest⟩ := forall_mem_cons.mp before
    exact ⟨forall_mem_cons.mpr ⟨forall_mem_cons.mpr ⟨fits, first⟩, rest⟩, trivial⟩
  · cases completes
    obtain ⟨-, later⟩ := forall_mem_cons.mp before
    obtain ⟨first, rest⟩ := forall_mem_cons.mp later
    exact ⟨forall_mem_cons.mpr ⟨forall_mem_cons.mpr ⟨fits, first⟩, rest⟩, trivial⟩
  · cases completes

theorem open?_fits (fits : token.Fits) (before : ∀ frame ∈ stack, frame.Fits)
    (opens : open? stack token = some state) : StateFits state := by
  have opened : ∀ frame : Frame, frame.Fits → ∀ expect : Expect, expect.Fits →
      StateFits (frame :: stack, expect) := fun frame isFrame expect isExpect =>
    ⟨forall_mem_cons.mpr ⟨isFrame, before⟩, isExpect⟩
  cases token with
  | null => exact complete_fits .null before opens
  | bool b => exact complete_fits (.bool b) before opens
  | number => exact complete_fits (.number fits) before opens
  | text s => exact complete_fits (.text s) before opens
  | openBracket =>
    cases opens
    exact opened (.list []) (forall_mem_nil _) .firstItem trivial
  | openBrace =>
    cases opens
    exact opened (.table []) (forall_mem_nil _) .firstKey trivial
  | _ => cases opens

theorem close?_fits (before : ∀ frame ∈ stack, frame.Fits)
    (closes : close? stack token = some state) :
    StateFits state := by
  rw [close?.eq_def] at closes
  split at closes
  · obtain ⟨first, rest⟩ := forall_mem_cons.mp before
    exact complete_fits (.list fun item member => first item (mem_reverse.mp member)) rest
      closes
  · obtain ⟨first, rest⟩ := forall_mem_cons.mp before
    exact complete_fits (.table fun item member => first item (mem_reverse.mp member)) rest
      closes
  · cases closes

theorem next?_fits (fits : token.Fits) (before : ∀ frame ∈ stack, frame.Fits)
    (reads : expect.next? stack token = some state) : StateFits state := by
  rw [next?.eq_def] at reads
  split at reads
  · exact open?_fits fits before reads
  · exact close?_fits before reads
  · exact open?_fits fits before reads
  · exact close?_fits before reads
  · cases reads
    exact ⟨before, trivial⟩
  · cases reads
    exact ⟨before, trivial⟩
  · cases reads
    exact ⟨forall_mem_cons.mpr ⟨trivial, before⟩, trivial⟩
  · split at reads <;> cases reads
    · exact ⟨before, trivial⟩
    · exact ⟨before, trivial⟩
  · exact close?_fits before reads
  · cases reads

end Expect

namespace Raw

theorem build?_fits (fits : ∀ token ∈ tokens, token.Fits) {stack : List Frame} {tree : Raw}
    (before : StateFits (stack, expect)) (built : build? stack expect tokens = some tree) :
    tree.Fits := by
  induction tokens generalizing stack expect with
  | nil =>
    rw [build?.eq_def] at built
    simp only at built
    split at built
    · cases built
      exact before.2
    · cases built
  | cons token tokens ih =>
    obtain ⟨first, rest⟩ := forall_mem_cons.mp fits
    rw [build?] at built
    cases reads : expect.next? stack token with
    | none =>
      rw [reads] at built
      cases built
    | some =>
      rw [reads] at built
      exact ih rest (Expect.next?_fits first before.1 reads) built

/-- Numbers in a tree that is read have 64 bits. -/
theorem fits_of_read? {text : String} {tree : Raw} (reads : read? text = some tree) :
    tree.Fits := by
  obtain ⟨tokens, cut, built⟩ := bind_eq_some_iff.mp reads
  have start : StateFits ([], .value) := ⟨forall_mem_nil _, trivial⟩
  refine build?_fits (tokensFrom?_fits ?_ cut) start built
  exact forall_mem_nil _

mutual

/-- The value of a tree is proper and nests no deeper than allowed. -/
theorem proper_of_value? {tree : Raw} {depth : Nat} {v : Value} (fits : tree.Fits)
    (holds : tree.value? depth = some v) : v.Proper ∧ v.depth ≤ depth := by
  cases tree with
  | null =>
    cases holds
    exact ⟨⟨Value.whole_null, .null⟩, Nat.zero_le _⟩
  | bool b =>
    cases holds
    exact ⟨⟨Value.whole_bool b, .bool b⟩, Nat.zero_le _⟩
  | number n =>
    obtain ⟨n, rfl, rfl⟩ := map_eq_some_iff.mp holds
    cases fits with
    | number fits =>
      cases n with
      | int i => exact ⟨⟨Value.whole_int_iff.mpr (fits i rfl), .int i⟩, Nat.zero_le _⟩
      | float x => exact ⟨⟨Value.whole_float x, .float x⟩, Nat.zero_le _⟩
  | text s =>
    obtain ⟨s, rfl, rfl⟩ := map_eq_some_iff.mp holds
    exact ⟨⟨Value.whole_str s, .str s⟩, Nat.zero_le _⟩
  | list =>
    cases fits with
    | list all =>
      cases depth with
      | zero => cases holds
      | succ =>
        obtain ⟨values, held, rfl⟩ := map_eq_some_iff.mp holds
        have each := proper_of_values? all held
        exact ⟨.arr fun item member => (each item member).1,
          Nat.succ_le_succ (Value.itemsDepth_le_iff.mpr fun item member => (each item member).2)⟩
  | table =>
    cases fits with
    | table all =>
      cases depth with
      | zero => cases holds
      | succ =>
        obtain ⟨entries, held, rfl⟩ := map_eq_some_iff.mp holds
        have each := proper_of_entries? all held
        exact ⟨.object fun entry member => (each entry member).1,
          Value.depth_object_le fun entry member => (each entry member).2⟩
termination_by structural tree

theorem proper_of_values? {trees : List Raw} {depth : Nat} {values : List Value}
    (all : ∀ tree ∈ trees, tree.Fits) (hold : values? trees depth = some values) :
    ∀ v ∈ values, v.Proper ∧ v.depth ≤ depth := by
  cases trees with
  | nil =>
    cases hold
    exact forall_mem_nil _
  | cons =>
    obtain ⟨first, rest⟩ := forall_mem_cons.mp all
    obtain ⟨v, holds, hold⟩ := bind_eq_some_iff.mp hold
    obtain ⟨vs, held, same⟩ := bind_eq_some_iff.mp hold
    cases same
    exact forall_mem_cons.mpr ⟨proper_of_value? first holds, proper_of_values? rest held⟩
termination_by structural trees

theorem proper_of_entries? {members : List (Option String × Raw)} {depth : Nat}
    {entries : List (String × Value)} (all : ∀ member ∈ members, member.2.Fits)
    (hold : entries? members depth = some entries) :
    ∀ entry ∈ entries, entry.2.Proper ∧ entry.2.depth ≤ depth := by
  cases members with
  | nil =>
    cases hold
    exact forall_mem_nil _
  | cons =>
    obtain ⟨first, rest⟩ := forall_mem_cons.mp all
    obtain ⟨key, -, hold⟩ := bind_eq_some_iff.mp hold
    obtain ⟨v, holds, hold⟩ := bind_eq_some_iff.mp hold
    obtain ⟨vs, held, same⟩ := bind_eq_some_iff.mp hold
    cases same
    exact forall_mem_cons.mpr ⟨proper_of_value? first holds, proper_of_entries? rest held⟩
termination_by structural members

end

end Raw

end Json

open Json in
/-- A value that is read is proper and nests no deeper than allowed. -/
theorem Value.proper_of_read? {text : String} {v : Value} (reads : Value.read? text = some v) :
    v.Proper ∧ v.depth ≤ maxDepth := by
  obtain ⟨tree, read, holds⟩ := bind_eq_some_iff.mp reads
  exact Raw.proper_of_value? (Raw.fits_of_read? read) holds

end Pinflow
