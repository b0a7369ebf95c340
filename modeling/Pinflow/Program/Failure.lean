import Pinflow.Fault
import Pinflow.Program.Host
import Pinflow.Settings.Basic

/-!
# Why the program fails
-/

namespace Pinflow

/-- What ends the program before it has done its work. -/
inductive Failure where
  | fault (cause : Fault)
  /-- The settings cannot be loaded. -/
  | loading (path : String)
  /-- A file cannot be read. -/
  | reading (path : String)
  /-- The arguments of an invocation are no JSON. -/
  | badArguments
  | noTrace (id : String) (backend : Backend)

def Failure.message : Failure → String
  | fault cause => cause.message
  | loading path => "loading " ++ path
  | reading path => "reading " ++ path
  | badArguments => "--args is not valid JSON"
  | noTrace id .memory =>
    s!"trace {id} not found (the memory store keeps nothing between runs; " ++
      "set [trace] store = \"sqlite\")"
  | noTrace id .table => s!"trace {id} not found"

/-- A step of the program that may fail. -/
abbrev Attempt := ExceptT Failure Program

end Pinflow
