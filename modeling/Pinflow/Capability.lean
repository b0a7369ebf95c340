import Pinflow.Fault

/-!
# Capabilities

What acts for the nodes of a graph. The engine only hands actions on; how they are
answered is up to the capability. An answer may come at once or later.
-/

namespace Pinflow

inductive Reply where
  | now (answer : Except Fault Value)
  | later

/-- What a host provides: its name, whether the actions put to it are written down, and
its reply to an action with a payload. -/
structure Capability where
  name : String
  keepsCalls : Bool
  reply : String → Value → Reply

namespace Capability

/-- Nothing acts: every action fails. -/
def none : Capability where
  name := "none"
  keepsCalls := false
  reply action _ := .now (.error (.evaluation "capability" (.noCapability action)))

def prepared (answers : List (String × Except Fault Value)) : Capability where
  name := "canned"
  keepsCalls := true
  reply action _ :=
    match answers.find? fun entry => entry.1 == action with
    | some (_, answer) => .now answer
    | Option.none => .now (.error (.evaluation "canned" (.noAnswer action)))

/-- The action and its payload given back. -/
def echoed (action : String) (payload : Value) : Except Fault Value :=
  if action = "fail" then .error (.evaluation "echo" .refused)
  else .ok (.object [("action", .str action), ("payload", payload)])

/-- Gives every action back, except one that is named to fail. -/
def echo : Capability where
  name := "canned"
  keepsCalls := true
  reply action payload := .now (echoed action payload)

def waits (action : String) : Bool := "wait".toList.isPrefixOf action.toList

/-- Like `echo`, but actions that wait are answered later. -/
def gate : Capability where
  name := "canned"
  keepsCalls := true
  reply action payload := if waits action then .later else .now (echoed action payload)

end Capability

end Pinflow
