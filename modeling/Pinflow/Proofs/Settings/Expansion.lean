import Pinflow.Proofs.Text.Words
import Pinflow.Settings.Reference

/-!
# References filled in

What `Reference.expand` makes of a text is the text with each reference that is set replaced by
its value in one pass from left to right, `Reference.replaced`, as long as every reference is
closed. One that is not closed is the exception: where it is not set, a closing brace is added
behind it.
-/

namespace Pinflow.Reference

open List

variable {lookup : String → Option String} {name acc cs : List Char}

/-- A text with the references that are set replaced by their values: a name reaches up to the
first closing brace, and all else stays as it is. -/
def replaced (lookup : String → Option String) : List Char → List Char
  | '$' :: '\x7b' :: cs =>
    match _cut : Text.splitFirst? '\x7d' cs with
    | none => '$' :: '\x7b' :: cs
    | some (name, rest) =>
      let value := (lookup (String.ofList name)).map String.toList
      value.getD ('$' :: '\x7b' :: name ++ ['\x7d']) ++ replaced lookup rest
  | c :: cs => c :: replaced lookup cs
  | [] => []
termination_by cs => cs.length
decreasing_by
  · obtain ⟨rfl, -⟩ := Text.splitFirst?_eq_some_iff.mp _cut
    grind
  · grind

/-- Every reference that is begun is closed somewhere behind. -/
def Closed (cs : List Char) : Prop :=
  ∀ before rest, cs = before ++ '$' :: '\x7b' :: rest → '\x7d' ∈ rest

theorem Closed.of_append (before : List Char) (closed : Closed (before ++ cs)) : Closed cs := by
  rintro inner rest rfl
  exact closed (before ++ inner) rest (by rw [append_assoc])

theorem piecesFrom_name (free : '\x7d' ∉ name) :
    piecesFrom (some acc) (name ++ '\x7d' :: cs) =
      .name (String.ofList (acc.reverse ++ name)) :: piecesFrom none cs := by
  induction name generalizing acc with
  | nil => simp [piecesFrom]
  | cons c name ih =>
    obtain ⟨apart, free⟩ := not_or.mp (mt mem_cons.mpr free)
    rw [cons_append, piecesFrom, if_neg (Ne.symm apart), ih free]
    simp

theorem flatMap_pieces (closed : Closed cs) :
    (piecesFrom none cs).flatMap (fill lookup) = replaced lookup cs := by
  fun_induction replaced lookup cs with
  | case1 cs never =>
    obtain ⟨name, rest, rfl, free⟩ := eq_append_cons_of_mem (closed [] cs rfl)
    rw [Text.splitFirst?_eq_some_iff.mpr ⟨rfl, free⟩] at never
    cases never
  | case2 cs name rest cut value ih =>
    obtain ⟨rfl, free⟩ := Text.splitFirst?_eq_some_iff.mp cut
    have closed : Closed (('$' :: '\x7b' :: name ++ ['\x7d']) ++ rest) := by simpa using closed
    rw [piecesFrom, piecesFrom_name free, reverse_nil, nil_append, flatMap_cons,
      ih (.of_append _ closed)]
    simp only [fill, value]
    cases lookup (String.ofList name) <;> simp
  | case3 c cs apart ih =>
    rw [piecesFrom, flatMap_cons, ih (.of_append [c] closed)]
    · rfl
    · exact apart
  | case4 => rfl

theorem replaced_of_unset (unset : ∀ name, lookup name = none) : replaced lookup cs = cs := by
  fun_induction replaced lookup cs with
  | case1 => rfl
  | case2 cs name rest cut value ih =>
    obtain ⟨rfl, -⟩ := Text.splitFirst?_eq_some_iff.mp cut
    simp [value, unset, ih]
  | case3 c cs _ ih => rw [ih]
  | case4 => rfl

/-- As long as every reference is closed, each one that is set is replaced by its value, and a text
in which none is set stays as it is. -/
theorem expand_replaces_unless_open {text : String} (closed : Closed text.toList) :
    expand lookup text = String.ofList (replaced lookup text.toList) ∧
    ((∀ name, lookup name = none) → expand lookup text = text) := by
  have filled : expand lookup text = String.ofList (replaced lookup text.toList) := by
    rw [expand, pieces, flatMap_pieces closed]
  refine ⟨filled, fun unset => ?_⟩
  rw [filled, replaced_of_unset unset, String.ofList_toList]

/-- A value that looks like a reference is not looked up again, and a name may hold the beginning
of another reference. -/
theorem expand_replaces_nested :
    expand (fun name =>
        if name = "A" then some "$\x7bB\x7d" else if name = "B" then some "!" else none)
      "$$\x7bA\x7d$\x7bB\x7d$\x7bC$\x7bB\x7d" = "$$\x7bB\x7d!$\x7bC$\x7bB\x7d" := by
  have closed : Closed "$$\x7bA\x7d$\x7bB\x7d$\x7bC$\x7bB\x7d".toList := by
    intro before rest parts
    have last := congrArg getLast? parts
    rw [getLast?_append, getLast?_cons, getLast?_cons] at last
    cases isEnd : rest.getLast? with
    | none => simp [isEnd] at last
    | some c =>
      obtain rfl : '\x7d' = c := by simpa [isEnd] using last
      exact mem_of_getLast? isEnd
  rw [(expand_replaces_unless_open closed).1]
  cbv

/-- A reference that is neither set nor closed is closed. -/
theorem expand_closes_open : expand (fun _ => none) "$\x7bA" = "$\x7bA\x7d" := by
  decide +kernel

end Pinflow.Reference
