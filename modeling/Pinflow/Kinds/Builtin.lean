import Pinflow.Kinds.Action
import Pinflow.Kinds.Data

/-!
# Built-in kinds
-/

namespace Pinflow

/-- Every kind that graphs can use without further registration. -/
def Kinds.builtin : List Kind :=
  [onEvent, branch, sequence, forEach, whileLoop, breakLoop, constant, getVariable, setVariable,
    persistVariable, math, compare, makeArray, agentAction, log]

def Registry.builtin : Registry := ⟨Kinds.builtin⟩

end Pinflow
