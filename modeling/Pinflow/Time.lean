import Pinflow.Decimal.Layout
import Pinflow.Text.Blank

/-!
# Instants

Points in time of the Gregorian calendar, in UTC. `Instant.read?` accepts the usual
text with any offset; blanks may stand in front of a part, and a blank may stand in
for the letter between date and time. `Instant.text` writes the text in UTC with as
few groups of three fraction digits as are exact.
-/

namespace Pinflow

/-- A day counted from 1 January 1970, a second of that day and a nanosecond of that
second. The nanoseconds of a leap second start at one billion. -/
structure Instant where
  day : Int
  second : Nat
  nano : Nat
deriving DecidableEq

namespace Instant

/-- The day number of a date. Years are counted from March, so that the leap day
comes last. -/
def dayOf (year : Int) (month day : Nat) : Int :=
  let y := if month ≤ 2 then year - 1 else year
  let era := y / 400
  let yearOfEra := y % 400
  let monthFromMarch : Nat := (month + 9) % 12
  let dayOfYear : Nat := (153 * monthFromMarch + 2) / 5 + day - 1
  let dayOfEra := yearOfEra * 365 + yearOfEra / 4 - yearOfEra / 100 + dayOfYear
  era * 146097 + dayOfEra - 719468

def dateOf (day : Int) : Int × Nat × Nat :=
  let z := day + 719468
  let era := z / 146097
  let dayOfEra := (z % 146097).toNat
  let yearOfEra := (dayOfEra - dayOfEra / 1460 + dayOfEra / 36524 - dayOfEra / 146096) / 365
  let dayOfYear := dayOfEra - (365 * yearOfEra + yearOfEra / 4 - yearOfEra / 100)
  let monthFromMarch := (5 * dayOfYear + 2) / 153
  let day := dayOfYear - (153 * monthFromMarch + 2) / 5 + 1
  let month := if monthFromMarch < 10 then monthFromMarch + 3 else monthFromMarch - 9
  let year := era * 400 + yearOfEra
  (if month ≤ 2 then year + 1 else year, month, day)

def isLeapYear (year : Int) : Bool := year % 4 == 0 && (year % 100 != 0 || year % 400 == 0)

def daysInMonth (year : Int) (month : Nat) : Nat :=
  if month = 2 then if isLeapYear year then 29 else 28
  else if month = 4 ∨ month = 6 ∨ month = 9 ∨ month = 11 then 30
  else 31

def firstYear : Int := -262143

def lastYear : Int := 262142

def natOfDigits (cs : List Char) : Nat :=
  cs.foldl (fun n c => n * 10 + (c.toNat - '0'.toNat)) 0

/-- Up to `most` digits, and what follows them. -/
def digits? (most : Nat) (cs : List Char) : Option (Nat × List Char) :=
  let taken := (cs.take most).takeWhile Char.isDigit
  if taken = [] then none else some (natOfDigits taken, cs.drop taken.length)

/-- A number of at most two digits, after blanks. -/
def field? (cs : List Char) : Option (Nat × List Char) := digits? 2 (Text.trimLeft cs)

/-- A fixed character, after blanks. -/
def mark? (mark : Char) (cs : List Char) : Option (List Char) :=
  match Text.trimLeft cs with
  | c :: rest => if c = mark then some rest else none
  | [] => none

/-- What stands between date and time. -/
def separator? : List Char → Option (List Char)
  | 'T' :: rest | 't' :: rest | ' ' :: rest => some rest
  | _ => none

/-- A year: four digits at most, or any number of them after a sign. -/
def year? (cs : List Char) : Option (Int × List Char) :=
  match Text.trimLeft cs with
  | '-' :: rest => (digits? rest.length rest).map fun (n, rest) => (-(n : Int), rest)
  | '+' :: rest => (digits? rest.length rest).map fun (n, rest) => ((n : Int), rest)
  | rest => (digits? 4 rest).map fun (n, rest) => ((n : Int), rest)

/-- The fraction of a second in nanoseconds. Digits past the ninth are dropped. -/
def fraction? : List Char → Option (Nat × List Char)
  | '.' :: cs =>
    let taken := cs.takeWhile Char.isDigit
    if taken = [] then none
    else
      let nine := taken.take 9
      some (natOfDigits nine * Nat.pow 10 (9 - nine.length), cs.drop taken.length)
  | cs => some (0, cs)

/-- The offset from UTC in minutes, and what follows it. -/
def offset? (cs : List Char) : Option (Int × List Char) :=
  match cs with
  | 'Z' :: rest | 'z' :: rest => some (0, rest)
  | u :: t :: c :: rest =>
    if [u, t, c].map Char.toUpper = ['U', 'T', 'C'] then some (0, rest)
    else do
      let negative ← match u with
        | '+' => some false
        | '-' | '−' => some true
        | _ => none
      if !(t.isDigit && c.isDigit) then none
      let hours := natOfDigits [t, c]
      let rest := rest.dropWhile fun x => x == ':' || Text.isBlank x
      match rest with
      | a :: b :: rest =>
        if !(a.isDigit && b.isDigit) then none
        let minutes := natOfDigits [a, b]
        if 60 ≤ minutes then none
        let offset : Int := hours * 60 + minutes
        some (if negative then -offset else offset, rest)
      | _ => none
  | _ => none

/-- The numbers in the text of an instant. -/
structure Stamp where
  year : Int
  month : Nat
  day : Nat
  hour : Nat
  minute : Nat
  second : Nat
  nano : Nat
  /-- The offset from UTC in minutes. -/
  offset : Int

/-- Find the numbers in a text. -/
def stamp? (text : String) : Option Stamp := do
  let (year, cs) ← year? text.toList
  let cs ← mark? '-' cs
  let (month, cs) ← field? cs
  let cs ← mark? '-' cs
  let (day, cs) ← field? cs
  let cs ← separator? cs
  let (hour, cs) ← field? cs
  let cs ← mark? ':' cs
  let (minute, cs) ← field? cs
  let cs ← mark? ':' cs
  let (second, cs) ← field? cs
  let (nano, cs) ← fraction? cs
  let (offset, cs) ← offset? (Text.trimLeft cs)
  if Text.trimLeft cs ≠ [] then none
  else some ⟨year, month, day, hour, minute, second, nano, offset⟩

namespace Stamp

/-- Is there such a date, time of day and offset? -/
def isPossible (stamp : Stamp) : Bool :=
  1 ≤ stamp.month && stamp.month ≤ 12 && 1 ≤ stamp.day &&
    stamp.day ≤ daysInMonth stamp.year stamp.month &&
    stamp.hour ≤ 23 && stamp.minute ≤ 59 && stamp.second ≤ 60 && stamp.offset.natAbs < 1440 &&
    firstYear ≤ stamp.year && stamp.year ≤ lastYear

/-- The second of the minute, and its nanoseconds. -/
def moment (stamp : Stamp) : Nat × Nat :=
  if stamp.second = 60 then (59, stamp.nano + 1000000000) else (stamp.second, stamp.nano)

/-- The seconds since 1 January 1970. -/
def total (stamp : Stamp) : Int :=
  (dayOf stamp.year stamp.month stamp.day * 1440 + (stamp.hour * 60 + stamp.minute) -
    stamp.offset) * 60 + stamp.moment.1

/-- The instant at which the numbers stand, if the calendar has it. -/
def instant? (stamp : Stamp) : Option Instant :=
  let day := stamp.total / 86400
  if stamp.isPossible && dayOf firstYear 1 1 ≤ day && day ≤ dayOf lastYear 12 31 then
    some ⟨day, (stamp.total % 86400).toNat, stamp.moment.2⟩
  else none

end Stamp

def read? (text : String) : Option Instant := (stamp? text).bind Stamp.instant?

/-- A number with leading zeros up to a width. -/
def padded (width n : Nat) : List Char :=
  let digits := Decimal.digitChars n
  List.replicate (width - digits.length) '0' ++ digits

def yearChars (year : Int) : List Char :=
  if 0 ≤ year ∧ year ≤ 9999 then padded 4 year.toNat
  else (if year < 0 then '-' else '+') :: padded 4 year.natAbs

/-- As few groups of three digits as are exact. -/
def fractionChars (nano : Nat) : List Char :=
  if nano = 0 then []
  else if nano % 1000000 = 0 then '.' :: padded 3 (nano / 1000000)
  else if nano % 1000 = 0 then '.' :: padded 6 (nano / 1000)
  else '.' :: padded 9 nano

/-- Date and time without an offset. -/
def localText (instant : Instant) : String :=
  let (year, month, day) := dateOf instant.day
  let leap := instant.nano / 1000000000
  let second := instant.second % 60 + leap
  String.ofList (yearChars year ++ '-' :: padded 2 month ++ '-' :: padded 2 day ++ 'T' ::
    padded 2 (instant.second / 3600) ++ ':' :: padded 2 (instant.second / 60 % 60) ++ ':' ::
    padded 2 second ++ fractionChars (instant.nano % 1000000000))

def text (instant : Instant) : String := instant.localText ++ "Z"

/-- The text with a numeric offset; stored traces are ordered by it. -/
def offsetText (instant : Instant) : String := instant.localText ++ "+00:00"

end Instant

end Pinflow
