import Pinflow.Dialogue
import Pinflow.Files.Fault
import Pinflow.Time

/-!
# What the program asks of its host

The command line program is a dialogue too. Its host has a terminal, files, an
environment and a calendar, and hands out fresh ids.
-/

namespace Pinflow

inductive HostQuery where
  /-- Write to the output. -/
  | print (text : String)
  /-- Write to the error output. -/
  | report (text : String)
  /-- Read a line; there is none at the end of the input. -/
  | readLine
  /-- Is there something at a path? -/
  | hasPath (path : String)
  /-- The text of a file, if it can be read. -/
  | readFile (path : String)
  /-- Write a file into a directory that is there; say whether that worked. -/
  | writeFile (path text : String)
  /-- Make a directory and those above it, unless they are there; say what is wrong. -/
  | makeDirectories (path : String)
  /-- The value of a variable of the environment. -/
  | environment (name : String)
  /-- An id that nothing else has. -/
  | freshId
  /-- The date. -/
  | now

namespace HostQuery

def Answer : HostQuery → Type
  | print _ | report _ => Unit
  | readLine => Option String
  | hasPath _ | writeFile .. => Bool
  | readFile _ | environment _ => Option String
  | makeDirectories _ => Option PathFault
  | freshId => String
  | now => Instant

def interface : Interface := ⟨HostQuery, Answer⟩

end HostQuery

abbrev Program := Dialogue HostQuery.interface

namespace Program

/-- Put one question. -/
def query (q : HostQuery) : Program q.Answer := Dialogue.query (I := HostQuery.interface) q

def print (text : String) : Program Unit := query (.print text)

def printLine (text : String) : Program Unit := print (text ++ "\n")

def report (text : String) : Program Unit := query (.report text)

def reportLine (text : String) : Program Unit := report (text ++ "\n")

/-- Show a prompt and read a line, without the blanks around it. -/
def readLine (prompt : String) : Program (Option String) := do
  print prompt
  let line ← query .readLine
  return line.map fun line => String.ofList (Text.trim line.toList)

def hasPath (path : String) : Program Bool := query (.hasPath path)

def readFile (path : String) : Program (Option String) := query (.readFile path)

def writeFile (path text : String) : Program Bool := query (.writeFile path text)

def makeDirectories (path : String) : Program (Option PathFault) := query (.makeDirectories path)

def environment (name : String) : Program (Option String) := query (.environment name)

def freshId : Program String := query .freshId

def now : Program Instant := query .now

end Program

end Pinflow
