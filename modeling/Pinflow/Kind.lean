import Pinflow.Script

/-!
# Node kinds

A kind says which pins its nodes have, how their data outputs are computed and what
they do when control reaches them. A registry holds kinds by name.
-/

namespace Pinflow

/-- What a node wants to happen after it ran: follow one of its exec pins, end here,
break out of the nearest loop, or hand on a signal that it received itself. -/
inductive Flow where
  | next (pin : String)
  | finish
  | break
  | forward (signal : Signal)
deriving DecidableEq

structure Kind where
  id : String
  description : String := ""
  volatile : Bool := false
  pins : Fields → Except Fault Schema
  evaluate : Node → String → Routine Value := fun node pin => .fail node.id (.kindHasNoOutput id pin)
  execute : Node → Routine Flow := fun node => .fail node.id (.kindNotExecutable id)

/-- The kinds that graphs may use, in order of registration. -/
structure Registry where
  kinds : List Kind := []

namespace Registry

def find? (registry : Registry) (id : String) : Option Kind :=
  registry.kinds.find? fun kind => kind.id == id

/-- Look a kind up by name. -/
def lookup (registry : Registry) (id : String) : Except Fault Kind :=
  match registry.find? id with
  | some kind => .ok kind
  | none => .error (.unknownKind id)

/-- Add a kind in place of any earlier one of its name. -/
def register (registry : Registry) (kind : Kind) : Registry :=
  ⟨registry.kinds.filter (fun other => other.id != kind.id) ++ [kind]⟩

def unregister (registry : Registry) (id : String) : Registry :=
  ⟨registry.kinds.filter fun kind => kind.id != id⟩

/-- The names of the kinds in increasing order. -/
def names (registry : Registry) : List String :=
  (registry.kinds.map Kind.id).mergeSort fun a b => a ≤ b

end Registry

end Pinflow
