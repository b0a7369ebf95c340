import Pinflow.Toml.Scalar

/-!
# TOML text

Strings are written in the plainest of the four sorts that can hold them: between
double quotes if nothing has to be escaped, else between single quotes, else in the
forms for several lines, and with escapes if nothing else will do.
-/

namespace Pinflow.Toml

def longestRun (quote : Char) : (current longest : Nat) → List Char → Nat
  | current, longest, [] => max current longest
  | current, longest, c :: cs =>
    if c = quote then longestRun quote (current + 1) longest cs
    else longestRun quote 0 (max current longest) cs

/-- Four upper-case hexadecimal digits. -/
def hexDigits (n : Nat) : List Char :=
  let digits := (Nat.toDigits 16 n).map Char.toUpper
  List.replicate (4 - digits.length) '0' ++ digits

/-- Escape a text. In a text of several lines, line breaks stay and so do up to two
quotes in a row; `quotes` of them stand right before. -/
def escape (lines : Bool) : (quotes : Nat) → List Char → List Char
  | _, [] => []
  | quotes, c :: cs =>
    if c = '"' then
      if lines && quotes < 2 then '"' :: escape lines (quotes + 1) cs
      else '\\' :: '"' :: escape lines 0 cs
    else
      let shown := match c with
        | '\x08' => ['\\', 'b']
        | '\t' => ['\\', 't']
        | '\n' => if lines then ['\n'] else ['\\', 'n']
        | '\x0c' => ['\\', 'f']
        | '\r' => ['\\', 'r']
        | '\\' => ['\\', '\\']
        | _ => if isControl c then '\\' :: 'u' :: hexDigits c.toNat else [c]
      shown ++ escape lines 0 cs

/-- Write a string. -/
def quote (s : String) : String :=
  let cs := s.toList
  let hasControl := cs.any fun c => isControl c && c != '\n'
  let hasBreak := cs.contains '\n'
  let hasBackslash := cs.contains '\\'
  let doubles := longestRun '"' 0 0 cs
  let singles := longestRun '\'' 0 0 cs
  let lead := if hasBreak then ['\n'] else []
  let text :=
    if !hasControl && !hasBackslash && doubles == 0 && !hasBreak then
      '"' :: escape false 0 cs ++ ['"']
    else if !hasControl && singles == 0 && !hasBreak then '\'' :: cs ++ ['\'']
    else if !hasControl && !hasBackslash && doubles ≤ 2 then
      ['"', '"', '"'] ++ lead ++ escape true 0 cs ++ ['"', '"', '"']
    else if !hasControl && singles ≤ 2 then
      ['\'', '\'', '\''] ++ lead ++ cs ++ ['\'', '\'', '\'']
    else if hasBreak then ['"', '"', '"'] ++ lead ++ escape true 0 cs ++ ['"', '"', '"']
    else '"' :: escape false 0 cs ++ ['"']
  String.ofList text

end Pinflow.Toml
