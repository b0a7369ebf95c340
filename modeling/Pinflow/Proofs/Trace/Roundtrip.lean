import Pinflow.Proofs.Json.Records
import Pinflow.Proofs.Time.Roundtrip
import Pinflow.Trace.Text

/-!
# Traces through text

A trace comes back from its own text if and only if the inputs and outputs of its steps leave
room for the three levels that the trace puts around them: `Trace.read?_render`.
-/

namespace Pinflow

open Json

namespace Instant

theorem reader_text {instant : Instant} (valid : instant.Valid) (depth : Nat) :
    reader depth (Raw.ofValue (.str instant.text)) = some instant := by
  rw [reader, Reader.string_ofValue, Option.bind_some, read?_text valid]

theorem reader_optional {finished : Option Instant} (valid : ∀ instant ∈ finished, instant.Valid)
    (depth : Nat) :
    Reader.optional reader depth (Raw.ofValue (optionalString (finished.map text))) =
      some finished := by
  cases finished with
  | none => rfl
  | some instant =>
    show (reader depth (Raw.ofValue (.str instant.text))).map some = _
    rw [reader_text (valid instant rfl), Option.map_some]

end Instant

theorem orElse_map_str (s : Option String) (depth : Nat) :
    (Reader.optional Reader.string).orElse none depth (s.map fun s => Raw.ofValue (.str s)) =
      some s := by
  cases s <;> rfl

theorem optional_optionalString (s : Option String) (depth : Nat) :
    Reader.optional Reader.string depth (Raw.ofValue (optionalString s)) = some s := by
  cases s <;> rfl

theorem optional_optionalNat (n : Option Nat) (depth : Nat) :
    Reader.optional Reader.nat depth (Raw.ofValue (optionalNat n)) = some n := by
  cases n <;> rfl

theorem StepKind.choice_name (kind : StepKind) (depth : Nat) :
    Reader.choice ofName? depth (Raw.ofValue (.str kind.name)) = some kind := by
  cases kind <;> rfl

theorem TraceStatus.choice_name (status : TraceStatus) (depth : Nat) :
    Reader.choice ofName? depth (Raw.ofValue (.str status.name)) = some status := by
  cases status <;> rfl

namespace Step

/-- The keys of the inputs and of the outputs increase. -/
def Ordered (step : Step) : Prop := step.inputs.Ordered ∧ step.outputs.Ordered

/-- The inputs and outputs nest no deeper than is allowed. -/
def Within (step : Step) (depth : Nat) : Prop :=
  step.inputs.depth ≤ depth ∧ step.outputs.depth ≤ depth

instance (step : Step) (depth : Nat) : Decidable (step.Within depth) :=
  inferInstanceAs (Decidable (_ ∧ _))

theorem nodup_entries (step : Step) : (step.entries.map Prod.fst).Nodup := by
  rw [entries]
  cases step.pin <;> cases step.error <;> simp [entry]

/-- A step hands every declared field its entry, and nothing where it has none. -/
theorem slots_entries (step : Step) :
    [FieldSpec.required "sequence", .required "node_id", .required "kind", .defaulted "pin",
      .required "inputs", .required "outputs", .required "duration_us", .defaulted "error"].mapM
        (slot? step.entries) =
      some [some (Raw.ofValue (.ofNat step.sequence)), some (Raw.ofValue (.str step.node)),
        some (Raw.ofValue (.str step.kind.name)), step.pin.map fun s => Raw.ofValue (.str s),
        some (Raw.ofValue step.inputs), some (Raw.ofValue step.outputs),
        some (Raw.ofValue (.ofNat step.micros)), step.error.map fun s => Raw.ofValue (.str s)] := by
  obtain ⟨sequence, node, kind, pin, inputs, outputs, micros, error⟩ := step
  cases pin <;> cases error <;>
    simp [entries, entry, slot?, FieldSpec.required, FieldSpec.defaulted]

theorem reader_entries {step : Step} (ordered : step.Ordered) (depth : Nat) :
    reader (depth + 1) (Raw.ofValue (.obj step.entries)) =
      if step.Within depth then some step else none := by
  have given := Reader.value_ofValue ordered.1 depth
  have gives := Reader.value_ofValue ordered.2 depth
  rw [reader, record_obj step.nodup_entries, slots_entries]
  by_cases low : step.inputs.depth ≤ depth <;> by_cases flat : step.outputs.depth ≤ depth <;>
    simp [StepKind.choice_name, orElse_map_str, given, gives, Within, low, flat]

end Step

theorem Note.reader_entries (note : Note) (depth : Nat) :
    reader (depth + 1) (Raw.ofValue (.obj note.entries)) = some note := by
  rw [reader, entries, record_obj (by simp)]
  simp [slot?, FieldSpec.required, FieldSpec.nullable, Reader.orElse, optional_optionalNat]

namespace Trace

/-- What a trace of the program always is: its instants are instants of the calendar and its
numbers have 64 bits, the keys of its values increase, and its floats are read as they are
written. -/
structure Legible (trace : Trace) : Prop where
  started : trace.started.Valid
  finished : ∀ instant ∈ trace.finished, instant.Valid
  ordered : ∀ step ∈ trace.steps, step.Ordered
  whole : trace.record.Whole
  rereads : ∀ x ∈ trace.record.floats, Rereads x

/-- Every step leaves room for the three levels around it: the trace, its list of steps and the
step itself. -/
def Shallow (trace : Trace) : Prop := ∀ step ∈ trace.steps, step.Within (maxDepth - 3)

instance (trace : Trace) : Decidable trace.Shallow :=
  inferInstanceAs (Decidable (∀ step ∈ trace.steps, step.Within (maxDepth - 3)))

theorem reader_record {trace : Trace} (legible : trace.Legible) :
    reader maxDepth (Raw.ofValue trace.record) = if trace.Shallow then some trace else none := by
  have steps : Reader.list Step.reader (maxDepth - 1)
      (Raw.ofValue (.arr (trace.steps.map fun step => .obj step.entries))) =
        if trace.Shallow then some trace.steps else none :=
    Reader.list_map_guard fun step member => Step.reader_entries (legible.ordered step member) _
  have notes : Reader.list Note.reader (maxDepth - 1)
      (Raw.ofValue (.arr (trace.notes.map fun note => .obj note.entries))) = some trace.notes :=
    Reader.list_map fun note _ => note.reader_entries _
  show Reader.record _ _ (maxDepth - 1 + 1) _ = _
  rw [record, record_obj (by simp)]
  by_cases shallow : trace.Shallow <;>
    simp [slot?, FieldSpec.required, FieldSpec.defaulted, Reader.orElse, steps, notes, shallow,
      Instant.reader_text legible.started, Instant.reader_optional legible.finished,
      optional_optionalString, TraceStatus.choice_name]

/-- A trace comes back from its text unless it nests too deep. -/
theorem read?_render {trace : Trace} (legible : trace.Legible) :
    read? trace.render = if trace.Shallow then some trace else none := by
  have parsed : Raw.read? trace.render = some (Raw.ofValue trace.record) :=
    Value.raw_read?_render legible.whole legible.rereads
  rw [read?, parsed, Option.bind_eq_bind, Option.bind_some, reader_record legible]

end Trace

end Pinflow
