import Pinflow.Proofs.Kinds.Classes
import Pinflow.Proofs.Walk.Logic

/-!
# Conduct

How nodes of the built-in kinds behave once they are bound. A routine is judged by three
things: the calls it may make, the faults that count as fine, and the results that are good.
`Conduct` is an assume and guarantee statement about it: as long as every fault that it is
handed by a call is fine, it makes no other calls, ends with no other fault, and its result
is good.

The built-in kinds make only calls about their own node, on pins that they declare. The
pins and settings they look up while they run are those that were read when they were bound,
so none of these lookups fails.
-/

namespace Pinflow

open Kinds List

variable {asks asks' : Call → Prop} {schema : Schema} {α : Type} {ends ends' : α → Prop}
  {node pin : String} {output : Pin} {part : Part} {grants : (c : Call) → c.Answer → Prop}
  {script : Script α} {grants' : (c : Call) → c.Answer → Prop} {fine : Fault → Prop}

def Script.Meets {α : Type} (asks : Call → Prop) (grants : (c : Call) → c.Answer → Prop)
    (ends : α → Prop) : Script α → Prop
  | .done a => ends a
  | .ask c next => asks c ∧ ∀ answer, grants c answer → Script.Meets asks grants ends (next answer)

theorem Script.Meets.mono (meets : script.Meets asks grants ends) (calls : ∀ c, asks c → asks' c)
    (answers : ∀ c answer, grants' c answer → grants c answer) (imp : ∀ a, ends a → ends' a) :
    script.Meets asks' grants' ends' := by
  induction script with
  | done a => exact imp a meets
  | ask c next ih =>
    exact ⟨calls c meets.1, fun answer grant => ih answer (meets.2 answer (answers c answer grant))⟩

theorem Script.Meets.bind {β : Type} {middle : α → Prop} {ends : β → Prop} {next : α → Script β}
    (first : script.Meets asks grants middle)
    (rest : ∀ a, middle a → (next a).Meets asks grants ends) :
    Script.Meets asks grants ends (script >>= next) := by
  induction script with
  | done a => exact rest a first
  | ask c _ ih => exact ⟨first.1, fun answer grant => ih answer (first.2 answer grant)⟩

/-- Two judgements of one script. -/
theorem Script.Meets.and (first : script.Meets asks grants ends)
    (second : script.Meets asks' grants' ends') :
    script.Meets (fun c => asks c ∧ asks' c)
      (fun c answer => grants c answer ∧ grants' c answer) (fun a => ends a ∧ ends' a) := by
  induction script with
  | done => exact ⟨first, second⟩
  | ask c next ih =>
    refine ⟨⟨first.1, second.1⟩, fun answer granted => ?_⟩
    exact ih answer (first.2 answer granted.1) (second.2 answer granted.2)

theorem Walk.WP.perform_of_meets {rule : Query → Past → Prop} {inner : Server}
    (Inv : Walker → Past → Prop) {walker : Walker} {past : Past}
    (serves : ∀ c walker past, asks c → Inv walker past →
      WP rule (inner c) (fun answer walker past => grants c answer ∧ Inv walker past) walker past)
    (meets : script.Meets asks grants ends) (holds : Inv walker past) :
    WP rule (perform inner script) (fun result walker past => ends result ∧ Inv walker past)
      walker past := by
  induction script generalizing walker past with
  | done => exact ⟨meets, holds⟩
  | ask c next ih =>
    rw [perform_ask_iff]
    refine (serves c walker past meets.1 holds).mono fun answer walker past after => ?_
    exact ih answer (meets.2 answer after.1) after.2

/-- The built-in kinds whose nodes may fail for this reason. -/
def Mishap.raisers : Mishap → List Kind
  | .onlyInsideLoop _ => loops
  | .onlyAfterAction _ | .notAnAction _ => actions
  | .notAnArray _ => [forEach]
  | .notANumber _ _ | .divisionByZero | .notFinite _ => [math]
  | _ => []

/-- The answers to calls, as far as their faults are concerned. What the host answers to an
action is data. -/
def Grants (fine : Fault → Prop) : (c : Call) → c.Answer → Prop
  | .input _ _, answer | .resolve _ _ _, answer | .output _, answer =>
    ∀ fault, answer = .error fault → fine fault
  | .traverse _ _, answer | .run _, answer => ∀ fault, answer = .error fault → fine fault
  | _, _ => True

theorem grants_any (c : Call) (answer : c.Answer) : Grants (fun _ => True) c answer := by
  cases c <;> simp [Grants]

def EndsWell {α : Type} (fine : Fault → Prop) (good : α → Prop) : Except Fault α → Prop
  | .ok a => good a
  | .error fault => fine fault

/-- A routine that makes only certain calls and fails only in ways that are fine. -/
def Conduct {α : Type} (asks : Call → Prop) (fine : Fault → Prop) (good : α → Prop)
    (routine : Routine α) : Prop :=
  Script.Meets asks (Grants fine) (EndsWell fine good) (ExceptT.run routine)

namespace Conduct

variable {β : Type} {good : β → Prop} {f : α → Routine β}

theorem pure {b : β} (isGood : good b) : Conduct asks fine good (Pure.pure b) := isGood

theorem fail {cause : Mishap} (isFine : fine (.evaluation node cause)) :
    Conduct asks fine good (Routine.fail node cause) := isFine

theorem bind {middle : α → Prop} {x : Routine α} (first : Conduct asks fine middle x)
    (rest : ∀ a, middle a → Conduct asks fine good (f a)) :
    Conduct asks fine good (x >>= f) := by
  refine Script.Meets.bind first fun result ended => ?_
  cases result with
  | ok a => exact rest a ended
  | error => exact ended

/-- What comes after a call of any outcome. -/
theorem next {x : Routine α} (first : Conduct asks fine (fun _ => True) x)
    (rest : ∀ a, Conduct asks fine good (f a)) : Conduct asks fine good (x >>= f) :=
  first.bind fun a _ => rest a

theorem input (may : asks (.input node pin)) :
    Conduct asks fine (fun _ => True) (Routine.input node pin) := by
  refine ⟨may, fun answer grant => ?_⟩
  cases answer with
  | ok => exact trivial
  | error fault => exact grant fault rfl

theorem traverse (may : asks (.traverse node pin)) :
    Conduct asks fine (fun _ => True) (Routine.traverse node pin) := by
  refine ⟨may, fun answer grant => ?_⟩
  cases answer with
  | ok => exact trivial
  | error fault => exact grant fault rfl

/-- A call whose answer is no fault of the routine. -/
theorem call {c : Call} (may : asks c) :
    Conduct asks fine (fun _ => True) (ExceptT.lift (Script.call c)) :=
  ⟨may, fun _ _ => trivial⟩

/-- Settings that were read before can be read again. -/
theorem setting {x : Except Fault α} {a : α} (known : x = .ok a)
    (rest : Conduct asks fine good (f a)) : Conduct asks fine good (liftM x >>= f) := by
  subst known
  exact rest

variable {node : String}

theorem foldOperands (op : Arithmetic) {operands : List Nat}
    (own : ∀ cause, math ∈ cause.raisers → fine (.evaluation node cause))
    (may : ∀ i ∈ operands, asks (.input node (operandPin i))) (result : Option Float) :
    Conduct asks fine (fun _ => True) (foldOperands node op result operands) := by
  induction operands generalizing result with
  | nil => exact pure trivial
  | cons i rest ih =>
    have ih := ih fun j member => may j (mem_cons_of_mem i member)
    refine next (input (may i mem_cons_self)) fun raw => ?_
    cases raw.toFloat? with
    | none => exact fail (own _ mem_cons_self)
    | some x =>
      cases result with
      | none => exact ih (some x)
      | some y =>
        simp only
        cases op.result? y x with
        | none => exact fail (own _ mem_cons_self)
        | some z => exact ih (some z)

theorem pullAll {pin : Nat → String} {list : List Nat}
    (may : ∀ i ∈ list, asks (.input node (pin i))) :
    Conduct asks fine (fun _ => True) (list.mapM fun i => Routine.input node (pin i)) := by
  induction list with
  | nil => exact pure trivial
  | cons i rest ih =>
    rw [mapM_cons]
    refine next (input (may i mem_cons_self)) fun value => ?_
    exact next (ih fun j member => may j (mem_cons_of_mem i member)) fun _ => pure trivial

theorem followAll (may : ∀ pin, asks (.traverse node pin)) (list : List Nat) :
    Conduct asks fine (fun _ => True) (followAll node list) := by
  induction list with
  | nil => exact pure trivial
  | cons i list ih =>
    refine next (traverse (may _)) fun signal => ?_
    split
    · exact pure trivial
    · exact ih

/-- Calls that a loop makes besides pulling its inputs. -/
structure Loops (asks : Call → Prop) (node : String) : Prop where
  reenter : asks (.reenter node Loop.bodyPin)
  refresh : asks (.refresh node Loop.bodyPin)
  store : ∀ values, asks (.store node values)
  traverse : ∀ pin, asks (.traverse node pin)
  note : ∀ message, asks (.note node message)

variable (loops : Loops asks node)
include loops

/-- One round of a loop, and what comes after it unless the body breaks. -/
theorem round {values : List (String × Value)} {rest : Routine Unit}
    (after : Conduct asks fine (fun _ => True) rest) :
    Conduct asks fine (fun _ => True) (do
      Routine.reenter node Loop.bodyPin
      Routine.store node values
      let signal ← Routine.traverse node Loop.bodyPin
      if signal.isBreak then return
      rest) := by
  refine next (call loops.reenter) fun _ => next (call (loops.store values)) fun _ => ?_
  refine next (traverse (loops.traverse _)) fun signal => ?_
  split
  · exact pure trivial
  · exact after

theorem eachFrom (index : Nat) (items : List Value) :
    Conduct asks fine (fun _ => True) (Loop.eachFrom node index items) := by
  induction items generalizing index with
  | nil => exact pure trivial
  | cons item items ih => exact round loops (ih (index + 1))

theorem whileFrom (may : asks (.input node "condition")) (ceiling left : Nat) :
    Conduct asks fine (fun _ => True) (Loop.whileFrom node ceiling left) := by
  induction left with
  | zero => exact call (loops.note _)
  | succ left ih =>
    refine next (call loops.refresh) fun _ => next (input may) fun condition => ?_
    split
    · exact round loops ih
    · exact pure trivial

/-- A loop follows `completed` when it is through with its body. -/
theorem loop {good : Flow → Prop} {body : Routine Unit}
    (through : Conduct asks fine (fun _ => True) body)
    (forwards : ∀ signal, good (.forward signal)) :
    Conduct asks fine good (do
      let signal ← (do
        body
        Routine.traverse node Loop.completedPin)
      return Flow.forward signal) :=
  next (next through fun _ => traverse (loops.traverse _)) fun signal => pure (forwards signal)

end Conduct

theorem Schema.mem_of_output? (declared : schema.output? pin = some output) :
    output ∈ schema.outputs ∧ output.id = pin :=
  ⟨mem_of_find?_eq_some declared, by simpa using find?_some declared⟩

theorem Schema.mem_of_input? {input : Pin} (declared : schema.input? pin = some input) :
    input ∈ schema.inputs ∧ input.id = pin :=
  ⟨mem_of_find?_eq_some declared, by simpa using find?_some declared⟩

theorem Schema.isSome_input? {input : Pin} (declared : input ∈ schema.inputs)
    (named : input.id = pin) : (schema.input? pin).isSome = true :=
  find?_isSome.mpr ⟨input, declared, by simp [named]⟩

namespace Part

def Pulls (part : Part) : Call → Prop
  | .input node pin => node = part.node.id ∧ (part.schema.input? pin).isSome = true
  | .context => True
  | _ => False

/-- The calls of an executor: it pulls declared inputs of its node and follows its own pins;
only loops and actions write outputs, their own, and only loops begin their body again. -/
def Asks (part : Part) : Call → Prop
  | .input node pin => node = part.node.id ∧ (part.schema.input? pin).isSome = true
  | .traverse node _ => node = part.node.id
  | .store node _ => node = part.node.id ∧ (part.kind ∈ loops ∨ part.kind ∈ actions)
  | .reenter loop pin | .refresh loop pin =>
    loop = part.node.id ∧ pin = Loop.bodyPin ∧ part.kind ∈ loops
  | .act _ _ => part.kind ∈ actions
  | .context | .about | .assign _ _ | .persist _ | .log _ | .note _ _ => True
  | _ => False

def GoesOn (part : Part) (flow : Flow) : Prop :=
  ∀ pin, flow = .next pin → (part.schema.execOutputs.any fun declared => declared.id == pin) = true

theorem loops (isLoop : part.kind ∈ loops) :
    Conduct.Loops part.Asks part.node.id where
  reenter := ⟨rfl, rfl, isLoop⟩
  refresh := ⟨rfl, rfl, isLoop⟩
  store _ := ⟨rfl, .inl isLoop⟩
  traverse _ := rfl
  note _ := trivial

end Part

namespace Kinds

theorem execute_of_pureData {kind : Kind} (computing : kind ∈ pureData) (node : Node) :
    kind.execute node = .fail node.id (.kindNotExecutable kind.id) := by
  simp only [pureData, mem_cons, not_mem_nil, or_false] at computing
  rcases computing with rfl | rfl | rfl | rfl | rfl <;> rfl

section evaluators

variable {node : Node}

theorem conduct_evaluate_onEvent (bound : onEvent.pins node.config = .ok schema)
    (declared : output ∈ schema.outputs) (plain : output.type.isExec = false) :
    Conduct part.Pulls fine (fun _ => True) (onEvent.evaluate node output.id) := by
  cases bound
  simp only [mem_cons, not_mem_nil, or_false] at declared
  rcases declared with rfl | rfl | rfl
  · cases plain
  · exact .next (.call (c := .context) trivial) fun _ => .pure trivial
  · exact .next (.call (c := .context) trivial) fun _ => .pure trivial

theorem conduct_evaluate_getVariable (bound : getVariable.pins node.config = .ok schema)
    (declared : output ∈ schema.outputs) :
    Conduct (Part.Pulls ⟨node, getVariable, schema⟩) fine (fun _ => True)
      (getVariable.evaluate node output.id) := by
  obtain ⟨name, named, bound⟩ := exists_of_bind_eq_ok bound
  cases bound
  rw [mem_singleton.mp declared]
  refine .setting named (.next (.call (c := .context) trivial) fun context => ?_)
  cases Context.lookup? context name with
  | some => exact .pure trivial
  | none => exact .input ⟨rfl, rfl⟩

theorem conduct_evaluate_math (bound : math.pins node.config = .ok schema)
    (own : ∀ cause, math ∈ cause.raisers → fine (.evaluation node.id cause))
    (declared : output ∈ schema.outputs) :
    Conduct (Part.Pulls ⟨node, math, schema⟩) fine (fun _ => True)
      (math.evaluate node output.id) := by
  obtain ⟨op, isOp, bound⟩ := exists_of_bind_eq_ok bound
  obtain ⟨n, counted, bound⟩ := exists_of_bind_eq_ok bound
  cases bound
  rw [mem_singleton.mp declared]
  refine .setting isOp (.setting counted ?_)
  refine .next (.foldOperands op own ?_ none) fun result => ?_
  · intro i member
    exact ⟨rfl, Schema.isSome_input? (mem_map_of_mem member) rfl⟩
  · split
    · exact .pure trivial
    · exact .fail (own _ mem_cons_self)

theorem conduct_evaluate_compare (bound : compare.pins node.config = .ok schema)
    (declared : output ∈ schema.outputs) :
    Conduct (Part.Pulls ⟨node, compare, schema⟩) fine (fun _ => True)
      (compare.evaluate node output.id) := by
  obtain ⟨op, isOp, bound⟩ := exists_of_bind_eq_ok bound
  cases bound
  rw [mem_singleton.mp declared]
  refine .setting isOp (.next (.input ⟨rfl, rfl⟩) fun a => ?_)
  exact .next (.input ⟨rfl, rfl⟩) fun b => .pure trivial

theorem conduct_evaluate_makeArray (bound : makeArray.pins node.config = .ok schema)
    (declared : output ∈ schema.outputs) :
    Conduct (Part.Pulls ⟨node, makeArray, schema⟩) fine (fun _ => True)
      (makeArray.evaluate node output.id) := by
  obtain ⟨n, counted, bound⟩ := exists_of_bind_eq_ok bound
  cases bound
  rw [mem_singleton.mp declared]
  refine .setting counted (.next (.pullAll ?_) fun items => .pure trivial)
  intro i member
  exact ⟨rfl, Schema.isSome_input? (mem_map_of_mem member) rfl⟩

end evaluators

section

variable (known : part.kind ∈ builtin)
include known

/-- An evaluator asked for a declared data output. -/
theorem conduct_evaluate (bound : part.kind.pins part.node.config = .ok part.schema)
    (own : ∀ cause, part.kind ∈ cause.raisers → fine (.evaluation part.node.id cause))
    (declared : part.schema.output? pin = some output) (plain : output.type.isExec = false) :
    Conduct part.Pulls fine (fun _ => True) (part.kind.evaluate part.node pin) := by
  obtain ⟨member, rfl⟩ := Schema.mem_of_output? declared
  obtain ⟨node, kind, schema⟩ := part
  simp only at known bound own member ⊢
  -- Kinds with control outputs only have nothing to evaluate.
  have rest : kind ∈ breaks ∨ kind ∈ passing → False := by
    intro rest
    rw [output_exec_of_rest rest bound member] at plain
    cases plain
  cases builtin_of_mem known with
  | onEvent => exact conduct_evaluate_onEvent bound member plain
  | forEach | whileLoop => exact .fail (own _ (by simp [Mishap.raisers, loops]))
  | breakLoop => exact (rest (by simp [breaks])).elim
  | constant => exact .pure trivial
  | getVariable => exact conduct_evaluate_getVariable bound member
  | math => exact conduct_evaluate_math bound own member
  | compare => exact conduct_evaluate_compare bound member
  | makeArray => exact conduct_evaluate_makeArray bound member
  | agentAction => exact .fail (own _ mem_cons_self)
  | _ => exact (rest (by simp [passing])).elim

/-- The executor of a node that control can enter. -/
theorem conduct_execute (executable : part.kind ∉ pureData)
    (bound : part.kind.pins part.node.config = .ok part.schema)
    (own : ∀ cause, part.kind ∈ cause.raisers → fine (.evaluation part.node.id cause)) :
    Conduct part.Asks fine part.GoesOn (part.kind.execute part.node) := by
  obtain ⟨node, kind, schema⟩ := part
  simp only at known bound own executable ⊢
  have forwards : ∀ signal, Part.GoesOn ⟨node, kind, schema⟩ (.forward signal) := by
    intro signal pin same
    cases same
  -- The next pin is named by a literal, and declared by one.
  have goes {pin : String}
      (declared : (schema.execOutputs.any fun output => output.id == pin) = true) :
      Part.GoesOn ⟨node, kind, schema⟩ (.next pin) := by
    rintro _ ⟨⟩
    exact declared
  cases builtin_of_mem known with
  | onEvent =>
    cases bound
    simp only [onEvent]
    split
    · exact .pure (goes rfl)
    · refine .next (.call (c := .context) trivial) fun context => .pure ?_
      split
      · exact goes rfl
      · intro pin same
        cases same
  | branch =>
    cases bound
    refine .next (.input ⟨rfl, rfl⟩) fun condition => .pure (goes ?_)
    cases condition.truthy <;> rfl
  | sequence =>
    obtain ⟨count, counted, bound⟩ := exists_of_bind_eq_ok bound
    refine .setting counted (.next (.followAll (fun _ => rfl) _) fun signal => ?_)
    exact .pure (forwards signal)
  | forEach =>
    have isLoop : forEach ∈ loops := by simp [loops]
    have rounds (items : List Value) : Conduct (Part.Asks ⟨node, forEach, schema⟩) fine
        (Part.GoesOn ⟨node, forEach, schema⟩) (do
          let signal ← Loop.forEach node.id items
          return .forward signal) :=
      .loop (Part.loops isLoop) (.eachFrom (Part.loops isLoop) 0 items) forwards
    cases bound
    refine .next (.input ⟨rfl, rfl⟩) fun array => ?_
    split
    · exact rounds _
    · exact rounds []
    · exact .fail (own _ mem_cons_self)
  | whileLoop =>
    have isLoop : whileLoop ∈ loops := by simp [loops]
    cases bound
    refine .next (.call (c := .about) trivial) fun about => ?_
    exact .loop (Part.loops isLoop) (.whileFrom (Part.loops isLoop) ⟨rfl, rfl⟩ _ _) forwards
  | breakLoop =>
    refine .pure ?_
    intro pin same
    cases same
  | setVariable =>
    obtain ⟨name, named, bound⟩ := exists_of_bind_eq_ok bound
    cases bound
    refine .setting named (.next (.input ⟨rfl, rfl⟩) fun value => ?_)
    exact .next (.call (c := .assign _ _) trivial) fun _ => .pure (goes rfl)
  | persistVariable =>
    obtain ⟨key, named, bound⟩ := exists_of_bind_eq_ok bound
    cases bound
    refine .setting named (.next (.input ⟨rfl, rfl⟩) fun value => ?_)
    exact .next (.call (c := .persist _) trivial) fun _ => .pure (goes rfl)
  | agentAction =>
    have isAction : agentAction ∈ actions := mem_cons_self
    cases bound
    refine .next (.input ⟨rfl, rfl⟩) fun name => ?_
    split
    · refine .next (.input ⟨rfl, rfl⟩) fun payload => ?_
      refine .next (.call (c := .act _ _) isAction) fun answer => ?_
      cases answer with
      | ok | error =>
        exact .next (.call (c := .store _ _) ⟨rfl, .inr isAction⟩) fun _ => .pure (goes rfl)
    · exact .fail (own _ mem_cons_self)
  | log =>
    cases bound
    refine .next (.input ⟨rfl, rfl⟩) fun message => ?_
    exact .next (.call (c := .log _) trivial) fun _ => .pure (goes rfl)
  | _ => exact absurd (by simp [pureData]) executable

/-- Whatever it is answered, the executor of a bound node makes no other calls. -/
theorem calls_execute (bound : part.kind.pins part.node.config = .ok part.schema) :
    Conduct part.Asks (fun _ => True) (fun _ => True) (part.kind.execute part.node) := by
  by_cases computing : part.kind ∈ pureData
  · rw [execute_of_pureData computing]
    exact .fail trivial
  · have conduct : Conduct part.Asks (fun _ => True) part.GoesOn (part.kind.execute part.node) :=
      conduct_execute known computing bound fun _ _ => trivial
    refine conduct.mono (fun _ asked => asked) (fun _ _ granted => granted) ?_
    intro result _
    cases result <;> trivial

theorem required_of_builtin (bound : part.kind.pins part.node.config = .ok part.schema)
    {declared : Pin} (found : part.schema.input? pin = some declared)
    (required : declared.required = true) : part.kind ∈ actions ∧ pin = "action" := by
  obtain ⟨member, rfl⟩ := Schema.mem_of_input? found
  obtain ⟨node, kind, schema⟩ := part
  have optional (all : ∀ input ∈ schema.inputs, input.required = false) :
      kind ∈ actions ∧ declared.id = "action" := by
    rw [all declared member] at required
    cases required
  cases builtin_of_mem known with
  | onEvent | constant | branch | forEach | whileLoop | breakLoop | log =>
    cases bound
    exact optional (by simp [Pin.execIn, Pin.input, Pin.withDefault])
  | sequence | getVariable | setVariable | persistVariable | compare | makeArray =>
    obtain ⟨setting, -, ⟨⟩⟩ := exists_of_bind_eq_ok bound
    exact optional (by simp [Pin.execIn, Pin.input])
  | math =>
    obtain ⟨op, -, bound⟩ := exists_of_bind_eq_ok bound
    obtain ⟨n, -, ⟨⟩⟩ := exists_of_bind_eq_ok bound
    exact optional (by simp [Pin.input, Pin.withDefault])
  | agentAction =>
    cases bound
    simp only [mem_cons, not_mem_nil, or_false] at member
    rcases member with rfl | rfl | rfl
    · cases required
    · exact ⟨mem_cons_self, rfl⟩
    · cases required

end

end Kinds

end Pinflow
