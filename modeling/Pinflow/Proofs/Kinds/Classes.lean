import Mathlib.Data.List.Nodup
import Pinflow.Proofs.Kinds.Evaluators

/-!
# Classes of built-in kinds

The built-in kinds fall into classes by what their data outputs are: those of data kinds
are computed on demand, those of loops and actions are there once the node has put them
into the memo, and the other kinds have none. Control enters no data kind.
-/

namespace Pinflow

variable {config : Fields} {schema : Schema} {pin : Pin}

/-- What succeeds in two steps succeeds in the first. -/
theorem exists_of_bind_eq_ok {α β : Type} {x : Except Fault α} {f : α → Except Fault β} {b : β}
    (succeeds : x >>= f = .ok b) : ∃ a, x = .ok a ∧ f a = .ok b := by
  cases x with
  | ok a => exact ⟨a, rfl, succeeds⟩
  | error => cases succeeds

/-- A kind that computes no output. -/
def Kind.Unevaluable (kind : Kind) : Prop :=
  ∀ node pin, ∃ fault, kind.evaluate node pin = throw fault

inductive Looks {α : Type} : Script α → Prop
  | done (result : α) : Looks (.done result)
  | context {next : Context → Script α} (rest : ∀ context, Looks (next context)) :
      Looks (.ask .context next)

namespace Kinds

/-- The kinds whose outputs an evaluator computes. -/
def data : List Kind := [onEvent, constant, getVariable, math, compare, makeArray]

/-- The kinds that only compute: control cannot enter their nodes. -/
def pureData : List Kind := [constant, getVariable, math, compare, makeArray]

/-- The kinds that run a body. -/
def loops : List Kind := [forEach, whileLoop]

/-- The kinds that let the host act. -/
def actions : List Kind := [agentAction]

def breaks : List Kind := [breakLoop]

/-- The kinds that only pass control on, whatever else they write. -/
def passing : List Kind := [branch, sequence, setVariable, persistVariable, log]

variable {kind : Kind}

theorem class_of_builtin (known : kind ∈ builtin) :
    kind ∈ data ∨ kind ∈ loops ∨ kind ∈ actions ∨ kind ∈ breaks ∨ kind ∈ passing := by
  cases builtin_of_mem known <;> simp [data, loops, actions, breaks, passing]

theorem mem_of_id_mem {kinds : List Kind} (sub : kinds ⊆ builtin) (known : kind ∈ builtin)
    (named : kind.id ∈ kinds.map Kind.id) : kind ∈ kinds := by
  obtain ⟨other, member, same⟩ := List.mem_map.mp named
  have distinct : (builtin.map Kind.id).Nodup := by decide
  rwa [List.inj_on_of_nodup_map distinct known (sub member) same.symm]

theorem data_subset : data ⊆ builtin := by
  simp [data, builtin]

theorem loops_subset : loops ⊆ builtin := by
  simp [loops, builtin]

theorem actions_subset : actions ⊆ builtin := by
  simp [actions, builtin]

theorem unevaluable_of_loop (loop : kind ∈ loops) : kind.Unevaluable := by
  simp only [loops, List.mem_cons, List.not_mem_nil, or_false] at loop
  rcases loop with rfl | rfl <;> exact fun _ _ => ⟨_, rfl⟩

theorem unevaluable_of_action (action : kind ∈ actions) : kind.Unevaluable := by
  rw [List.mem_singleton.mp action]
  exact fun _ _ => ⟨_, rfl⟩

theorem unevaluable_of_not_data (known : kind ∈ builtin) (other : kind ∉ data) :
    kind.Unevaluable := by
  cases builtin_of_mem known with
  | onEvent | constant | getVariable | math | compare | makeArray =>
    exact absurd (by simp [data]) other
  | _ => exact fun _ _ => ⟨_, rfl⟩

/-- A data kind either pulls nothing, or computes a single output. -/
theorem looks_or_single (isData : kind ∈ data) (node : Node) :
    (∀ pin, Looks (ExceptT.run (kind.evaluate node pin))) ∨
      ∃ only, ∀ pin, pin ≠ only → ∃ fault, kind.evaluate node pin = throw fault := by
  have single : ∀ {only : String} {body : Routine Value} (pin : String), pin ≠ only → ∃ fault,
      (if pin != only then .fail node.id (.noDataOutput pin) else body : Routine Value) =
        throw fault := by
    intro only body pin other
    rw [if_pos (by simpa using other)]
    exact ⟨_, rfl⟩
  simp only [data, List.mem_cons, List.not_mem_nil, or_false] at isData
  rcases isData with rfl | rfl | rfl | rfl | rfl | rfl
  · refine .inl fun pin => ?_
    simp only [onEvent]
    split
    · exact .context fun _ => .done _
    · exact .context fun _ => .done _
    · exact .done _
  · exact .inl fun _ => .done _
  · exact .inr ⟨"value", single⟩
  · exact .inr ⟨"result", single⟩
  · exact .inr ⟨"result", single⟩
  · exact .inr ⟨"array", single⟩

/-- Control enters no data kind. -/
theorem input_not_exec_of_data (isData : kind ∈ data) (pins : kind.pins config = .ok schema)
    (member : pin ∈ schema.inputs) : pin.type.isExec = false := by
  suffices all : ∀ pin ∈ schema.inputs, pin.type.isExec = false from all pin member
  simp only [data, List.mem_cons, List.not_mem_nil, or_false] at isData
  rcases isData with rfl | rfl | rfl | rfl | rfl | rfl
  · cases pins
    simp
  · cases pins
    simp
  · obtain ⟨name, -, ⟨⟩⟩ := exists_of_bind_eq_ok pins
    simp [Pin.input, PinType.isExec]
  · obtain ⟨op, -, pins⟩ := exists_of_bind_eq_ok pins
    obtain ⟨n, -, ⟨⟩⟩ := exists_of_bind_eq_ok pins
    simp [Pin.input, Pin.withDefault, PinType.isExec]
  · obtain ⟨op, -, ⟨⟩⟩ := exists_of_bind_eq_ok pins
    simp [Pin.input, PinType.isExec]
  · obtain ⟨n, -, ⟨⟩⟩ := exists_of_bind_eq_ok pins
    simp [Pin.input, PinType.isExec]

/-- Kinds that compute nothing and store nothing have control outputs only. -/
theorem output_exec_of_rest (rest : kind ∈ breaks ∨ kind ∈ passing)
    (pins : kind.pins config = .ok schema) (member : pin ∈ schema.outputs) :
    pin.type.isExec = true := by
  suffices all : ∀ pin ∈ schema.outputs, pin.type.isExec = true from all pin member
  rcases rest with breaking | passes
  · rw [List.mem_singleton.mp breaking] at pins
    cases pins
    simp
  · simp only [passing, List.mem_cons, List.not_mem_nil, or_false] at passes
    rcases passes with rfl | rfl | rfl | rfl | rfl
    · cases pins
      simp [Pin.execOut, Pin.output, PinType.isExec]
    · obtain ⟨count, -, ⟨⟩⟩ := exists_of_bind_eq_ok pins
      simp [Pin.execOut, Pin.output, PinType.isExec]
    · obtain ⟨name, -, ⟨⟩⟩ := exists_of_bind_eq_ok pins
      simp [Pin.execOut, Pin.output, PinType.isExec]
    · obtain ⟨key, -, ⟨⟩⟩ := exists_of_bind_eq_ok pins
      simp [Pin.execOut, Pin.output, PinType.isExec]
    · cases pins
      simp [Pin.execOut, Pin.output, PinType.isExec]

end Kinds

end Pinflow
