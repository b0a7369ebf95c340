import Mathlib.Data.List.Perm.Subperm
import Pinflow.Proofs.Circuit.Scope
import Pinflow.Walk.Serve

/-!
# Evaluation without a memo

`fresh` computes an output from nothing but the wiring, a context and the outputs that are
held: it runs the evaluators of the kinds, never remembers what it has computed, and
refuses to go round in a circle as a walk does.

`unfolded` does the same without looking for circles and to a bounded depth. It is the
easier one to reason about, since it does not depend on where an evaluation started, and
`fresh_of_unfolded` says that nothing is lost: an output that can be unfolded to a value is
freshly computed to that value.
-/

namespace Pinflow

open List

namespace Circuit

variable {stack : List PinRef} {node : String}

/-- Outputs that are there without being computed. -/
abbrev Held := PinRef → Option Value

/-- What reading outputs comes to, where that is known. -/
abbrev Reading := PinRef → Option (Except Fault Value)

/-- The value of a data input, given what outputs read as. -/
def resolveFrom (circuit : Circuit) (read : Reading) (node pin : String) (default : Value) :
    Option (Except Fault Value) :=
  match circuit.incoming? node pin with
  | some source => read source
  | none => some do
    let part ← circuit.part node
    return ((part.node.config.get? pin).filter fun v => !v.isNull).getD default

/-- The value of a declared data input, given what outputs read as. -/
def inputFrom (circuit : Circuit) (read : Reading) (node pin : String) :
    Option (Except Fault Value) :=
  match circuit.part node with
  | .error fault => some (.error fault)
  | .ok part =>
    match part.schema.input? pin with
    | none => some (.error (.evaluation node (.noInputPin pin)))
    | some declared =>
      (circuit.resolveFrom read node pin (declared.default.getD .null)).map fun result => do
        let value ← result
        if value.isNull && declared.required then .error (.missingInput node pin) else .ok value

/-- The calls that evaluators make, answered from the context and from what outputs read
as. -/
def supply (circuit : Circuit) (context : Context) (read : Reading) : (c : Call) → Option c.Answer
  | .context => some context
  | .input node pin => circuit.inputFrom read node pin
  | _ => none

def evaluateFrom (circuit : Circuit) (context : Context) (read : Reading) : Reading := fun source =>
  match circuit.part source.node with
  | .error fault => some (.error fault)
  | .ok part =>
    (ExceptT.run (part.kind.evaluate part.node source.pin)).interpret (circuit.supply context read)

/-- Compute an output while some nodes are being resolved, at most `depth` deep. -/
def freshFrom (circuit : Circuit) (context : Context) (held : Held) :
    (depth : Nat) → (resolving : List String) → Reading
  | 0, _, _ => none
  | depth + 1, resolving, source =>
    match held source with
    | some value => some (.ok value)
    | none =>
      if resolving.contains source.node then
        some (.error (.cycle source.node (Walk.cyclePath resolving source.node)))
      else
        circuit.evaluateFrom context (circuit.freshFrom context held depth
          (source.node :: resolving)) source

/-- Compute an output afresh. No two nodes being resolved are the same, so the number of
nodes bounds the depth. -/
def fresh (circuit : Circuit) (context : Context) (held : Held) : Reading :=
  circuit.freshFrom context held (circuit.parts.length + 1) []

/-- Compute an output at most `depth` deep, whichever nodes are being resolved. -/
def unfolded (circuit : Circuit) (context : Context) (held : Held) : (depth : Nat) → Reading
  | 0, _ => none
  | depth + 1, source =>
    match held source with
    | some value => some (.ok value)
    | none => circuit.evaluateFrom context (circuit.unfolded context held depth) source

variable {circuit : Circuit} {context context' : Context} {read read' : Reading}

theorem inputFrom_ok {pin : String} {value : Value}
    (known : circuit.inputFrom read node pin = some (.ok value))
    (agree : ∀ source value, circuit.incoming? node pin = some source →
      read source = some (.ok value) → read' source = some (.ok value)) :
    circuit.inputFrom read' node pin = some (.ok value) := by
  rw [inputFrom] at known ⊢
  cases found : circuit.part node with
  | error => simp [found] at known
  | ok part =>
    simp only [found] at known ⊢
    cases declared : part.schema.input? pin with
    | none => simp [declared] at known
    | some declared =>
      simp only [declared] at known ⊢
      obtain ⟨result, resolved, passes⟩ := Option.map_eq_some_iff.mp known
      rw [resolveFrom] at resolved ⊢
      cases wire : circuit.incoming? node pin with
      | none =>
        simp only [wire] at resolved ⊢
        rw [resolved, Option.map_some, passes]
      | some source =>
        simp only [wire] at resolved ⊢
        cases result with
        | error => cases passes
        | ok first => rw [agree source first wire resolved, Option.map_some, passes]

/-- An evaluator that succeeds does so again if all it was supplied with is supplied
again. -/
theorem interpret_ok {α : Type} {volatile : Bool} {script : Script (Except Fault α)} {a : α}
    (reads : Reads volatile node script) (alike : context.Alike volatile context')
    (known : script.interpret (circuit.supply context read) = some (.ok a))
    (agree : ∀ pin value, circuit.inputFrom read node pin = some (.ok value) →
      circuit.inputFrom read' node pin = some (.ok value)) :
    script.interpret (circuit.supply context' read') = some (.ok a) := by
  induction reads with
  | done => exact known
  | @context next same _ ih =>
    have first : (next context).interpret (circuit.supply context read) = some (.ok a) := known
    have second := ih context first
    rw [same context context' alike] at second
    exact second
  | @input pin next faults _ ih =>
    obtain ⟨answer, supplied, rest⟩ := Option.bind_eq_some_iff.mp known
    cases answer with
    | error =>
      rw [faults] at rest
      cases rest
    | ok value =>
      have again := agree pin value supplied
      exact Option.bind_eq_some_iff.mpr ⟨.ok value, again, ih value rest⟩

section unfolded

variable (wired : Wired Registry.builtin circuit) {held held' : Held} {source : PinRef}
  {value : Value} {depth : Nat}
include wired

/-- Only data nodes compute anything. -/
theorem data_of_evaluateFrom (known : circuit.evaluateFrom context read source = some (.ok value)) :
    ∃ part, circuit.part? source.node = some part ∧ part.kind ∈ Kinds.data ∧
      (ExceptT.run (part.kind.evaluate part.node source.pin)).interpret
        (circuit.supply context read) = some (.ok value) := by
  rw [evaluateFrom] at known
  cases found : circuit.part source.node with
  | error => simp [found] at known
  | ok part =>
    simp only [found] at known
    have found := part_eq_ok_iff.mp found
    refine ⟨part, found, ?_, known⟩
    by_contra other
    obtain ⟨fault, throws⟩ :=
      Kinds.unevaluable_of_not_data (wired.kind_mem found) other part.node source.pin
    rw [throws] at known
    cases known

theorem evaluateFrom_ok (known : circuit.evaluateFrom context read source = some (.ok value))
    (alike : ∀ part, circuit.part? source.node = some part →
      context.Alike part.kind.volatile context')
    (agree : ∀ pin other value, circuit.isOf Kinds.data source.node = true →
      circuit.incoming? source.node pin = some other →
      read other = some (.ok value) → read' other = some (.ok value)) :
    circuit.evaluateFrom context' read' source = some (.ok value) := by
  obtain ⟨part, found, data, computes⟩ := data_of_evaluateFrom wired known
  have isData : circuit.isOf Kinds.data source.node = true :=
    isOf_iff.mpr ⟨part, found, mem_map_of_mem data⟩
  rw [evaluateFrom, part_eq_ok_iff.mpr found]
  refine interpret_ok (Kinds.reads_of_builtin (wired.kind_mem found) part.node source.pin)
    (alike part found) computes fun pin value supplied => ?_
  rw [id_of_part? found] at supplied ⊢
  exact inputFrom_ok supplied fun other value wire => agree pin other value isData wire

/-- Unfolding further changes nothing. -/
theorem unfolded_succ (known : circuit.unfolded context held depth source = some (.ok value)) :
    circuit.unfolded context held (depth + 1) source = some (.ok value) := by
  induction depth generalizing source value with
  | zero => cases known
  | succ depth ih =>
    rw [unfolded] at known ⊢
    cases kept : held source with
    | some => simpa only [kept] using known
    | none =>
      simp only [kept] at known ⊢
      exact evaluateFrom_ok wired known (fun _ _ => ⟨rfl, rfl, fun _ => rfl⟩)
        fun _ _ _ _ _ => ih

theorem unfolded_mono {further : Nat} (more : depth ≤ further)
    (known : circuit.unfolded context held depth source = some (.ok value)) :
    circuit.unfolded context held further source = some (.ok value) := by
  induction more with
  | refl => exact known
  | step _ ih => exact unfolded_succ wired ih

/-- What happens to some nodes does not matter to the others, if data nodes that read from
these nodes are among them. -/
theorem unfolded_congr (affected : String → Prop)
    (closed : ∀ edge ∈ circuit.dataEdges, circuit.isOf Kinds.data edge.target.node = true →
      affected edge.source.node → affected edge.target.node)
    (alike : ∀ node part, circuit.part? node = some part → ¬ affected node →
      context.Alike part.kind.volatile context')
    (kept : ∀ ref value, ¬ affected ref.node → held ref = some value → held' ref = some value)
    (bare : ∀ ref, ¬ affected ref.node → circuit.isOf Kinds.data ref.node = true →
      held ref = none → held' ref = none)
    (known : circuit.unfolded context held depth source = some (.ok value))
    (safe : ¬ affected source.node) :
    circuit.unfolded context' held' depth source = some (.ok value) := by
  induction depth generalizing source value with
  | zero => cases known
  | succ depth ih =>
    rw [unfolded] at known ⊢
    cases isHeld : held source with
    | some other =>
      simp only [isHeld] at known
      rw [kept source other safe isHeld]
      exact known
    | none =>
      simp only [isHeld] at known
      obtain ⟨part, found, data, -⟩ := data_of_evaluateFrom wired known
      rw [bare source safe (isOf_iff.mpr ⟨part, found, mem_map_of_mem data⟩) isHeld]
      refine evaluateFrom_ok wired known (fun part found => alike source.node part found safe) ?_
      intro pin other value isData wire isRead
      have safeOther : ¬ affected other.node := fun stale =>
        safe (closed _ (mem_of_incoming? wire) isData stale)
      exact ih isRead safeOther

/-- Outputs being resolved, innermost first, while another is unfolded to some depth: none
of them can be unfolded as cheaply, and no other output of their nodes can be computed. -/
structure Resolving (circuit : Circuit) (context : Context) (held : Held) (depth : Nat)
    (stack : List PinRef) : Prop where
  distinct : (stack.map PinRef.node).Nodup
  placed : ∀ ref ∈ stack, ref.node ∈ circuit.parts.map fun part => part.node.id
  waiting : ∀ ref ∈ stack, ∀ value, circuit.unfolded context held depth ref ≠ some (.ok value)
  single : ∀ ref ∈ stack, ∀ part, circuit.part? ref.node = some part → ∀ pin, pin ≠ ref.pin →
    ∃ fault, part.kind.evaluate part.node pin = throw fault

omit wired in
theorem Resolving.length_le (resolving : Resolving circuit context held depth stack) :
    stack.length ≤ circuit.parts.length := by
  have subset : stack.map PinRef.node ⊆ circuit.parts.map fun part => part.node.id := by
    intro node member
    obtain ⟨ref, listed, rfl⟩ := mem_map.mp member
    exact resolving.placed ref listed
  have bound := (subperm_of_subset resolving.distinct subset).length_le
  simpa only [length_map] using bound

theorem Resolving.pred (resolving : Resolving circuit context held (depth + 1) stack) :
    Resolving circuit context held depth stack :=
  { resolving with
    waiting := fun ref member value known =>
      resolving.waiting ref member value (unfolded_succ wired known) }

/-- An output that is being computed is not the output of a node being resolved. -/
theorem Resolving.not_mem (resolving : Resolving circuit context held depth stack)
    (known : circuit.unfolded context held depth source = some (.ok value))
    (computed : circuit.evaluateFrom context read source = some (.ok value)) :
    source.node ∉ stack.map PinRef.node := by
  intro member
  obtain ⟨ref, member, same⟩ := mem_map.mp member
  by_cases pin : source.pin = ref.pin
  · have eq : source = ref := by
      cases source
      cases ref
      cases same
      cases pin
      rfl
    exact resolving.waiting ref member value (eq ▸ known)
  · obtain ⟨part, found, -, computes⟩ := data_of_evaluateFrom wired computed
    obtain ⟨fault, throws⟩ := resolving.single ref member part (same ▸ found) source.pin pin
    rw [throws] at computes
    cases computes

omit wired in
theorem interpret_of_looks {α : Type} {script : Script α} (looks : Looks script) :
    script.interpret (circuit.supply context read) =
      script.interpret (circuit.supply context read') := by
  induction looks with
  | done => rfl
  | context _ ih => exact ih context

theorem freshFrom_of_unfolded {fuel : Nat}
    (resolving : Resolving circuit context held depth stack)
    (known : circuit.unfolded context held depth source = some (.ok value))
    (enough : circuit.parts.length < fuel + stack.length) :
    circuit.freshFrom context held fuel (stack.map PinRef.node) source = some (.ok value) := by
  induction depth generalizing source value stack fuel with
  | zero => cases known
  | succ depth ih =>
    -- If a smaller depth suffices, it is the smaller depth that counts.
    by_cases sooner : ∃ value, circuit.unfolded context held depth source = some (.ok value)
    · obtain ⟨other, early⟩ := sooner
      have late := unfolded_succ wired early
      rw [known] at late
      cases late
      exact ih (resolving.pred wired) early enough
    · obtain ⟨fuel, rfl⟩ : ∃ n, fuel = n + 1 :=
        Nat.exists_eq_succ_of_ne_zero (by have := resolving.length_le; omega)
      rw [freshFrom]
      have computed := known
      rw [unfolded] at computed
      cases isHeld : held source with
      | some => simpa only [isHeld] using computed
      | none =>
        simp only [isHeld] at computed ⊢
        have new := resolving.not_mem wired known computed
        rw [if_neg fun found => new (contains_iff_mem.mp found)]
        obtain ⟨part, found, data, computes⟩ := data_of_evaluateFrom wired computed
        rcases Kinds.looks_or_single data part.node with looks | ⟨only, throws⟩
        · rw [evaluateFrom, part_eq_ok_iff.mpr found]
          exact (interpret_of_looks (looks source.pin)).trans computes
        · have pushed : Resolving circuit context held depth (source :: stack) := by
            have tail := resolving.pred wired
            have isOnly : source.pin = only := by
              by_contra other
              obtain ⟨fault, throws⟩ := throws source.pin other
              rw [throws] at computes
              cases computes
            refine ⟨nodup_cons.mpr ⟨new, tail.distinct⟩, ?_, ?_, ?_⟩
            · refine forall_mem_cons.mpr ⟨?_, tail.placed⟩
              exact mem_map.mpr ⟨part, mem_of_part? found, id_of_part? found⟩
            · exact forall_mem_cons.mpr
                ⟨fun value early => sooner ⟨value, early⟩, tail.waiting⟩
            · refine forall_mem_cons.mpr ⟨?_, tail.single⟩
              intro other foundOther pin differs
              obtain rfl : part = other := Option.some.inj (found.symm.trans foundOther)
              exact throws pin (isOnly ▸ differs)
          refine evaluateFrom_ok wired computed (fun _ _ => ⟨rfl, rfl, fun _ => rfl⟩) ?_
          intro pin other value _ _ isRead
          exact ih pushed isRead (by simp only [length_cons]; omega)

/-- What can be unfolded at all is computed afresh. -/
theorem fresh_of_unfolded (known : circuit.unfolded context held depth source = some (.ok value)) :
    circuit.fresh context held source = some (.ok value) := by
  have nothing : Resolving circuit context held depth [] := by
    constructor <;> simp
  exact freshFrom_of_unfolded wired nothing known (by simp)

end unfolded

end Circuit

end Pinflow
