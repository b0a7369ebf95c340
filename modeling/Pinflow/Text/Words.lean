import Pinflow.Text.Blank

/-!
# Words

Cutting a text at its blanks or at a separator.
-/

namespace Pinflow.Text

/-- The first word of a text and what stands behind the blank after it; nothing stands
behind a text without blanks. -/
def splitWord (cs : List Char) : List Char × Option (List Char) :=
  match cs.dropWhile (!isBlank ·) with
  | [] => (cs, none)
  | _ :: rest => (cs.takeWhile (!isBlank ·), some rest)

/-- The words of a text, of which `word` has been read in reverse so far. -/
def wordsFrom (word : List Char) : List Char → List (List Char)
  | [] => if word.isEmpty then [] else [word.reverse]
  | c :: cs =>
    if isBlank c then
      if word.isEmpty then wordsFrom [] cs else word.reverse :: wordsFrom [] cs
    else wordsFrom (c :: word) cs

/-- The words of a text. -/
def words (cs : List Char) : List (List Char) := wordsFrom [] cs

/-- The pieces between the separators of a text. -/
def splitAll (separator : Char) : List Char → List (List Char)
  | [] => [[]]
  | c :: cs =>
    if c == separator then [] :: splitAll separator cs
    else
      match splitAll separator cs with
      | [] => [[c]]
      | piece :: pieces => (c :: piece) :: pieces

/-- Cut a text at the first occurrence of a character. -/
def splitFirst? (separator : Char) (cs : List Char) : Option (List Char × List Char) :=
  match cs.dropWhile (· != separator) with
  | [] => none
  | _ :: rest => some (cs.takeWhile (· != separator), rest)

end Pinflow.Text
