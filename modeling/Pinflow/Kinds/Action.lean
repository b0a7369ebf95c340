import Pinflow.Kinds.Control

/-!
# Action kinds

The kinds that reach beyond the graph: actions of the host, and the log.
-/

namespace Pinflow.Kinds

/-- Lets the host act. A failed action is data: it fills `error` and goes on at
`failure`. -/
def agentAction : Kind where
  id := "agent_action"
  description := "Perform an agent action through the capability handle."
  pins _ := .ok {
    inputs := [.execIn execIn, (Pin.input "action" .string).isRequired, .input "payload" .wildcard]
    outputs := [.execOut "success", .execOut "failure", .output "result" .wildcard,
      .output "error" .string] }
  evaluate node pin := .fail node.id (.onlyAfterAction pin)
  execute node := do
    let name ← Routine.input node.id "action"
    match name with
    | .str action =>
      let payload ← Routine.input node.id "payload"
      let answer ← Routine.act action payload
      match answer with
      | .ok result =>
        Routine.store node.id [("result", result), ("error", .null)]
        return .next "success"
      | .error fault =>
        Routine.store node.id [("result", .null), ("error", .str fault.message)]
        return .next "failure"
    | other => .fail node.id (.notAnAction other)

/-- Writes a line to the log. -/
def log : Kind where
  id := "log"
  description := "Write a message to the log and the invocation's log lines."
  pins _ := .ok {
    inputs := [.execIn execIn, (Pin.input "message" .wildcard).withDefault (.str "")]
    outputs := [.execOut thenPin] }
  execute node := do
    let message ← Routine.input node.id "message"
    Routine.log message.display
    return .next thenPin

end Pinflow.Kinds
