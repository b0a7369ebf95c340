import Pinflow.Json.Raw
import Pinflow.Proofs.Json.Lexing

/-!
# Reading printed text

The text of a value is read as the tree of the value, in which every number is what its
numeral denotes: `Raw.read?_render`. Reading fails only if a numeral is not well written.
The two halves meet in the tokens of a tree: a printed text is cut into the tokens of its
tree, and from the tokens of a tree that tree is built.
-/

namespace Pinflow

namespace Json.Raw

mutual

/-- The tokens of a tree, followed by `rest`. -/
def tokensOnto : Raw → List Token → List Token
  | .null, rest => .null :: rest
  | .bool b, rest => .bool b :: rest
  | .number n, rest => .number n :: rest
  | .text s, rest => .text s :: rest
  | .list [], rest => .openBracket :: .closeBracket :: rest
  | .list (tree :: trees), rest => .openBracket :: tokensOnto tree (itemTokens trees rest)
  | .table [], rest => .openBrace :: .closeBrace :: rest
  | .table ((key, tree) :: members), rest =>
    .openBrace :: .text key :: .colon :: tokensOnto tree (memberTokens members rest)
termination_by structural tree => tree

def itemTokens : List Raw → List Token → List Token
  | [], rest => .closeBracket :: rest
  | tree :: trees, rest => .comma :: tokensOnto tree (itemTokens trees rest)
termination_by structural trees => trees

/-- The tokens of the remaining members of a table, each after a comma, and of its end. -/
def memberTokens : List (Option String × Raw) → List Token → List Token
  | [], rest => .closeBrace :: rest
  | (key, tree) :: members, rest =>
    .comma :: .text key :: .colon :: tokensOnto tree (memberTokens members rest)
termination_by structural members => members

end

def resume? (tree : Raw) (stack : List Frame) (rest : List Token) : Option Raw :=
  (Expect.complete tree stack).bind fun next => build? next.1 next.2 rest

theorem resume?_list (tree : Raw) (done : List Raw) (stack : List Frame) (rest : List Token) :
    resume? tree (.list done :: stack) rest =
      build? (.list (tree :: done) :: stack) .separator rest := rfl

theorem resume?_member (tree : Raw) (key : Option String) (done : List (Option String × Raw))
    (stack : List Frame) (rest : List Token) :
    resume? tree (.member key :: .table done :: stack) rest =
      build? (.table ((key, tree) :: done) :: stack) .separator rest := rfl

theorem build?_complete {stack : List Frame} {expect : Expect} {token : Token} {tree : Raw}
    {outer : List Frame} (completes : expect.next? stack token = Expect.complete tree outer)
    (rest : List Token) : build? stack expect (token :: rest) = resume? tree outer rest := by
  rw [build?, completes, resume?]
  cases Expect.complete tree outer <;> rfl

theorem build?_firstItem (tree : Raw) (stack : List Frame) (rest : List Token) :
    build? stack .firstItem (tokensOnto tree rest) = build? stack .value (tokensOnto tree rest) := by
  cases tree with
  | list items => cases items <;> rfl
  | table members => cases members <;> rfl
  | _ => rfl

mutual

/-- From the tokens of a tree the tree is built. -/
theorem build?_tokensOnto (tree : Raw) (stack : List Frame) (rest : List Token) :
    build? stack .value (tokensOnto tree rest) = resume? tree stack rest := by
  cases tree with
  | null | bool | number | text => exact build?_complete rfl rest
  | list items =>
    cases items with
    | nil =>
      show build? (.list [] :: stack) .firstItem (.closeBracket :: rest) = _
      exact build?_complete rfl rest
    | cons tree trees =>
      show build? (.list [] :: stack) .firstItem (tokensOnto tree (itemTokens trees rest)) = _
      rw [build?_firstItem, build?_tokensOnto tree, resume?_list]
      exact build?_itemTokens trees [tree] stack rest
  | table members =>
    cases members with
    | nil =>
      show build? (.table [] :: stack) .firstKey (.closeBrace :: rest) = _
      exact build?_complete rfl rest
    | cons member members =>
      obtain ⟨key, tree⟩ := member
      show build? (.member key :: .table [] :: stack) .value
        (tokensOnto tree (memberTokens members rest)) = _
      rw [build?_tokensOnto tree, resume?_member]
      exact build?_memberTokens members [(key, tree)] stack rest
termination_by structural tree

theorem build?_itemTokens (trees done : List Raw) (stack : List Frame) (rest : List Token) :
    build? (.list done :: stack) .separator (itemTokens trees rest) =
      resume? (.list (done.reverse ++ trees)) stack rest := by
  cases trees with
  | nil =>
    rw [List.append_nil]
    exact build?_complete rfl rest
  | cons tree trees =>
    show build? (.list done :: stack) .value (tokensOnto tree (itemTokens trees rest)) = _
    rw [build?_tokensOnto tree, resume?_list, build?_itemTokens trees]
    simp
termination_by structural trees

theorem build?_memberTokens (members done : List (Option String × Raw)) (stack : List Frame)
    (rest : List Token) :
    build? (.table done :: stack) .separator (memberTokens members rest) =
      resume? (.table (done.reverse ++ members)) stack rest := by
  cases members with
  | nil =>
    rw [List.append_nil]
    exact build?_complete rfl rest
  | cons member members =>
    obtain ⟨key, tree⟩ := member
    show build? (.member key :: .table done :: stack) .value
      (tokensOnto tree (memberTokens members rest)) = _
    rw [build?_tokensOnto tree, resume?_member, build?_memberTokens members]
    simp
termination_by structural members

end

def ofNumeral? (numeral : List Char) : Option Raw :=
  (Literal.ofChars? numeral).map fun literal => .number literal.number?

end Json.Raw

namespace Value

open Json

mutual

/-- The tree that the text of a value is read as, if its numerals are well written. -/
def reread? : Value → Option Raw
  | .null => some .null
  | .bool b => some (.bool b)
  | .int i => Raw.ofNumeral? (intOnto i [])
  | .float x => Raw.ofNumeral? (layout.float x)
  | .str s => some (.text (some s))
  | .arr items => (rereadItems? items).map .list
  | .obj fields => (rereadFields? fields).map .table
termination_by structural v => v

def rereadItems? : List Value → Option (List Raw)
  | [] => some []
  | v :: vs => do
    let tree ← reread? v
    let trees ← rereadItems? vs
    some (tree :: trees)
termination_by structural vs => vs

def rereadFields? : List (String × Value) → Option (List (Option String × Raw))
  | [] => some []
  | (k, v) :: fields => do
    let tree ← reread? v
    let members ← rereadFields? fields
    some ((some k, tree) :: members)
termination_by structural fields => fields

end

theorem ends_itemsOnto (items : List Value) (rest : List Char) : Ends (itemsOnto items rest) := by
  cases items <;> exact ⟨rfl, rfl⟩

theorem ends_fieldsOnto (fields : List (String × Value)) (rest : List Char) :
    Ends (fieldsOnto fields rest) := by
  cases fields <;> exact ⟨rfl, rfl⟩

/-- A word is cut off where the text does not go on with it. -/
theorem tokens?_word (word : List Char) {token : Token} {rest : List Char}
    (reads : tokens? (word ++ rest) = tokensFrom? (.word word.reverse) [] rest)
    (known : word? word = some token) (ends : Ends rest) :
    tokens? (word ++ rest) = (tokens? rest).map (token :: ·) := by
  rw [reads, tokensFrom?_of_stops (ends.word _), Reading.close?, List.reverse_reverse, known]
  rfl

theorem tokens?_ofNumeral? {numeral rest : List Char} (isNumeral : IsNumeral numeral)
    (ends : Ends rest) :
    tokens? (numeral ++ rest) =
      (Raw.ofNumeral? numeral).bind fun tree => (tokens? rest).map tree.tokensOnto := by
  rw [tokens?_numeral isNumeral ends, Raw.ofNumeral?, Option.bind_map]
  rfl

mutual

/-- A printed text is cut into the tokens of its tree. -/
theorem tokens?_onto (v : Value) {rest : List Char} (ends : Ends rest) :
    tokens? (v.onto rest) = v.reread?.bind fun tree => (tokens? rest).map tree.tokensOnto := by
  cases v with
  | null => exact tokens?_word ['n', 'u', 'l', 'l'] rfl rfl ends
  | bool b =>
    cases b with
    | true => exact tokens?_word ['t', 'r', 'u', 'e'] rfl rfl ends
    | false => exact tokens?_word ['f', 'a', 'l', 's', 'e'] rfl rfl ends
  | int i =>
    rw [onto, intOnto_eq]
    exact tokens?_ofNumeral? (isNumeral_intOnto i) ends
  | float x => exact tokens?_ofNumeral? (isNumeral_float layout x) ends
  | str s => exact tokens?_quoteOnto s rest
  | arr items =>
    cases items with
    | nil =>
      rw [onto, tokens?_punctuation rfl, tokens?_punctuation rfl, Option.map_map]
      rfl
    | cons v vs =>
      rw [onto, tokens?_punctuation rfl, tokens?_onto v (ends_itemsOnto vs rest),
        tokens?_itemsOnto vs rest, reread?, rereadItems?]
      cases v.reread? <;> cases rereadItems? vs <;> cases tokens? rest <;> rfl
  | obj fields =>
    cases fields with
    | nil =>
      rw [onto, tokens?_punctuation rfl, tokens?_punctuation rfl, Option.map_map]
      rfl
    | cons field fields =>
      obtain ⟨k, v⟩ := field
      rw [onto, tokens?_punctuation rfl, tokens?_quoteOnto, tokens?_punctuation rfl,
        tokens?_onto v (ends_fieldsOnto fields rest), tokens?_fieldsOnto fields rest, reread?,
        rereadFields?]
      cases v.reread? <;> cases rereadFields? fields <;> cases tokens? rest <;> rfl
termination_by structural v

theorem tokens?_itemsOnto (items : List Value) (rest : List Char) :
    tokens? (itemsOnto items rest) =
      (rereadItems? items).bind fun trees => (tokens? rest).map (Raw.itemTokens trees) := by
  cases items with
  | nil => exact tokens?_punctuation rfl rest
  | cons v vs =>
    rw [itemsOnto, tokens?_punctuation rfl, tokens?_onto v (ends_itemsOnto vs rest),
      tokens?_itemsOnto vs rest, rereadItems?]
    cases v.reread? <;> cases rereadItems? vs <;> cases tokens? rest <;> rfl
termination_by structural items

theorem tokens?_fieldsOnto (fields : List (String × Value)) (rest : List Char) :
    tokens? (fieldsOnto fields rest) =
      (rereadFields? fields).bind fun members => (tokens? rest).map (Raw.memberTokens members) := by
  cases fields with
  | nil => exact tokens?_punctuation rfl rest
  | cons field fields =>
    obtain ⟨k, v⟩ := field
    rw [fieldsOnto, tokens?_punctuation rfl, tokens?_quoteOnto, tokens?_punctuation rfl,
      tokens?_onto v (ends_fieldsOnto fields rest), tokens?_fieldsOnto fields rest, rereadFields?]
    cases v.reread? <;> cases rereadFields? fields <;> cases tokens? rest <;> rfl
termination_by structural fields

end

/-- The text of a value is read as the value's tree. -/
theorem read?_render (v : Value) : Raw.read? v.render = v.reread? := by
  have ends : Ends [] := trivial
  have cut := tokens?_onto v ends
  rw [Raw.read?, render, String.toList_ofList, cut]
  cases v.reread? with
  | none => rfl
  | some tree => exact Raw.build?_tokensOnto tree [] []

end Value

end Pinflow
