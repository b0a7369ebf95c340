import Pinflow.Program.Basic

/-!
# The executable

Answers the questions of the program with the terminal, the files and the environment
of a process.
-/

namespace Pinflow

/-- Is there something at a path? -/
def pathExists (path : String) : IO Bool := do
  try
    let _ ← IO.FS.realPath path
    return true
  catch _ => return false

def readText (path : String) : IO (Option String) := do
  try
    return some (← IO.FS.readFile path)
  catch _ => return none

def writeText (path text : String) : IO Bool := do
  try
    IO.FS.writeFile path text
    return true
  catch _ => return false

/-- Why the host refused a path. -/
def pathFault : IO.Error → PathFault
  | .noFileOrDirectory .. => .missing
  | .alreadyExists .. => .taken
  | .inappropriateType .. => .notDirectory
  | fault => .refused fault.toString

/-- Make a directory and those above it. -/
def makeDirectories (path : String) : IO (Option PathFault) := do
  try
    IO.FS.createDirAll path
    return none
  catch fault => return some (pathFault fault)

/-- Two hexadecimal digits. -/
def hexByte (n : Nat) : List Char :=
  let digits := Nat.toDigits 16 (n % 256)
  List.replicate (2 - digits.length) '0' ++ digits

/-- An id made of sixteen random bytes. -/
def idOfBytes (bytes : List Nat) : String :=
  let marked := bytes.zipIdx.map fun (byte, i) =>
    if i == 6 then byte % 16 + 0x40 else if i == 8 then byte % 64 + 0x80 else byte
  let text (part : List Nat) : String := String.ofList (part.flatMap hexByte)
  "-".intercalate [text (marked.take 4), text ((marked.drop 4).take 2),
    text ((marked.drop 6).take 2), text ((marked.drop 8).take 2), text (marked.drop 10)]

def randomId : IO String := do
  let bytes ← IO.getRandomBytes 16
  return idOfBytes (bytes.toList.map UInt8.toNat)

/-- The date, as the file system gives it to a new file. -/
def currentInstant : IO Instant := do
  let (_, path) ← IO.FS.createTempFile
  let time := (← path.metadata).modified
  IO.FS.removeFile path
  return {
    day := time.sec.fdiv 86400
    second := (time.sec.fmod 86400).toNat
    nano := time.nsec.toNat }

/-- Answer a question of the program. -/
def answerHost : (q : HostQuery) → IO q.Answer
  | .print text => do
    let output ← IO.getStdout
    output.putStr text
    output.flush
  | .report text => do
    let output ← IO.getStderr
    output.putStr text
  | .readLine => do
    let line ← (← IO.getStdin).getLine
    return if line.isEmpty then none else some line
  | .hasPath path => pathExists path
  | .readFile path => readText path
  | .writeFile path text => writeText path text
  | .makeDirectories path => makeDirectories path
  | .environment name => IO.getEnv name
  | .freshId => randomId
  | .now => currentInstant

/-- How many lines of input the program reads at most. -/
def maxLines : Nat := 1000000000

end Pinflow

open Pinflow in
/-- Run the program on the words of the command line. -/
def main (words : List String) : IO UInt32 := do
  let code ← (Program.start maxLines words).interpret answerHost
  return code.toUInt32
