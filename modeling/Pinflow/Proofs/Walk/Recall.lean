import Pinflow.Proofs.Walk.Upkeep

/-!
# What a walk remembers

The memo of a walk is determined by what has happened: reads and stores put values into
it, and writing a variable, starting a loop's body again or looking at a loop's
condition again take the outputs of certain nodes out of it. `recalled` computes the
contents of the memo from the happenings alone, and `obeys_recallRule` says that every walk
agrees with it at every moment, whatever the kinds of its nodes do.
-/

namespace Pinflow

namespace Walk

variable {values : List (String × Value)} {value : Value} {ref : PinRef} {memory : Recollection}
  {node : String}

/-- Remembered outputs, by reference. -/
abbrev Recollection := PinRef → Option Value

namespace Recollection

def forget (memory : Recollection) (nodes : List String) : Recollection := fun ref =>
  if nodes.contains ref.node then none else memory ref

def store (memory : Recollection) (source : PinRef) (value : Value) : Recollection := fun ref =>
  if ref = source then some value else memory ref

def storeMany (memory : Recollection) (node : String) (values : List (String × Value)) :
    Recollection :=
  values.foldl (fun memory (pin, value) => memory.store ⟨node, pin⟩ value) memory

theorem of_forget {nodes : List String} (known : memory.forget nodes ref = some value) :
    memory ref = some value := by
  rw [forget] at known
  split at known
  · cases known
  · exact known

theorem storeMany_of_ne (memory : Recollection)
    (other : ref.node = node → ∀ value, (ref.pin, value) ∉ values) :
    memory.storeMany node values ref = memory ref := by
  induction values generalizing memory with
  | nil => rfl
  | cons entry values ih =>
    have tail : ref.node = node → ∀ value, (ref.pin, value) ∉ values :=
      fun same value found => other same value (List.mem_cons_of_mem _ found)
    have head : ref ≠ ⟨node, entry.1⟩ := by
      intro same
      exact other (by rw [same]) entry.2 (by rw [same]; exact List.mem_cons_self)
    refine (ih (memory.store ⟨node, entry.1⟩ entry.2) tail).trans ?_
    exact if_neg head

theorem storeMany_of_mem (memory : Recollection) {pin : String}
    (distinct : (values.map Prod.fst).Nodup) (found : (pin, value) ∈ values) :
    memory.storeMany node values ⟨node, pin⟩ = some value := by
  induction values generalizing memory with
  | nil => cases found
  | cons entry values ih =>
    obtain ⟨fresh, distinct⟩ := List.nodup_cons.mp distinct
    rcases List.mem_cons.mp found with rfl | found
    · have last : ∀ other, (pin, other) ∉ values := fun other again =>
        fresh (List.mem_map.mpr ⟨_, again, rfl⟩)
      refine (storeMany_of_ne (memory.store ⟨node, pin⟩ value) fun _ => last).trans ?_
      exact if_pos rfl
    · exact ih (memory.store ⟨node, entry.1⟩ entry.2) distinct found

theorem storeMany_ne_none (known : memory ref ≠ none) :
    memory.storeMany node values ref ≠ none := by
  induction values generalizing memory with
  | nil => exact known
  | cons entry values ih =>
    have kept : memory.store ⟨node, entry.1⟩ entry.2 ref ≠ none := by
      rw [store]
      split
      · exact Option.some_ne_none _
      · exact known
    exact ih kept

/-- Writing the same over two recollections keeps what one has of the other. -/
theorem storeMany_mono {memory' : Recollection}
    (agree : ∀ value, memory ref = some value → memory' ref = some value) (node : String)
    (values : List (String × Value)) (known : memory.storeMany node values ref = some value) :
    memory'.storeMany node values ref = some value := by
  induction values generalizing memory memory' with
  | nil => exact agree value known
  | cons entry values ih =>
    have step : ∀ value, memory.store ⟨node, entry.1⟩ entry.2 ref = some value →
        memory'.store ⟨node, entry.1⟩ entry.2 ref = some value := by
      intro value found
      by_cases same : ref = ⟨node, entry.1⟩
      · exact (if_pos same).trans ((if_pos same).symm.trans found)
      · exact (if_neg same).trans (agree value ((if_neg same).symm.trans found))
    exact ih step known

end Recollection

theorem get?_storeMany (memo : Memo) (node : String) (values : List (String × Value)) :
    (memo.storeMany node values).get? = Recollection.storeMany memo.get? node values := by
  induction values generalizing memo with
  | nil => rfl
  | cons entry values ih =>
    refine (ih (memo.store ⟨node, entry.1⟩ entry.2)).trans ?_
    have step : (memo.store ⟨node, entry.1⟩ entry.2).get? =
        Recollection.store memo.get? ⟨node, entry.1⟩ entry.2 := by
      funext ref
      exact Memo.get?_store memo ref _ _
    rw [step]
    rfl

def remember (setting : Setting) (memory : Recollection) : Happening → Recollection
  | .read source (.ok value) => memory.store source value
  | .assigned _ _ => memory.forget setting.volatile
  | .stored node values => memory.storeMany node values
  | .reentered loop pin =>
    (memory.forget (setting.circuit.loopScope loop pin).executed).forget
      (setting.circuit.loopScope loop pin).derived
  | .refreshed loop pin => memory.forget (setting.circuit.loopScope loop pin).derived
  | _ => memory

theorem Changes.remembers {setting : Setting} {happening : Happening} {change : Walker → Walker}
    (changes : Changes setting happening change) (walker : Walker) :
    (change walker).memo.get? = remember setting walker.memo.get? happening := by
  cases changes with
  | stored node values => exact get?_storeMany walker.memo node values
  | assigned | refreshed => exact funext fun ref => Memo.get?_invalidate _ ref _
  | reentered =>
    funext ref
    rw [Memo.get?_invalidate, Memo.get?_invalidate]
    rfl

/-- What is remembered after some happenings, the latest of which comes first. -/
def recalled (setting : Setting) : List Happening → Recollection
  | [] => fun _ => none
  | happening :: earlier => remember setting (recalled setting earlier) happening

/-- The memo of a walk holds what its happenings say. -/
def Agrees (setting : Setting) (walker : Walker) (past : Past) : Prop :=
  walker.memo.get? = recalled setting (happenings past)

/-- Outputs of a node that no evaluator computes: they are there only once the node has
put them into the memo. -/
def Unevaluable (setting : Setting) (node : String) : Prop :=
  ∀ part, setting.circuit.part node = .ok part → ∀ pin, ∃ fault,
    part.kind.evaluate part.node pin = throw fault

/-- A read of an output that no evaluator computes returns what is remembered. -/
def HonestRead (setting : Setting) (memory : Recollection) : Happening → Prop
  | .read source result =>
    Unevaluable setting source.node → ∀ value, result = .ok value ↔ memory source = some value
  | _ => True

def recallRule (setting : Setting) : Query → Past → Prop
  | .announce moment, past =>
    moment.walker.memo.get? =
        remember setting (recalled setting (happenings past)) moment.happening ∧
      HonestRead setting (recalled setting (happenings past)) moment.happening
  | _, _ => True

/-- What is known when a read returns, before it is announced. -/
def Pulled (setting : Setting) (source : PinRef) (result : Except Fault Value) (walker : Walker)
    (past : Past) : Prop :=
  recallRule setting (.announce ⟨.read source result, walker⟩) past

namespace Agrees

variable {setting : Setting} {inner : Server} {walker : Walker} {past : Past}

theorem changes {happening : Happening} {change : Walker → Walker}
    (changes : Changes setting happening change) (agrees : Agrees setting walker past) :
    recallRule setting (.announce ⟨happening, change walker⟩) past ∧
      Agrees setting (change walker) (told happening (change walker) :: past) := by
  have memory := changes.remembers walker
  rw [agrees] at memory
  cases changes <;> exact ⟨⟨memory, trivial⟩, memory⟩

section inner

variable (keeps : Kept (recallRule setting) (Agrees setting) inner)
include keeps

theorem compute_keeps {source : PinRef} {part : Part} (agrees : Agrees setting walker past)
    (found : setting.circuit.part source.node = .ok part)
    (missing : walker.memo.get? source = none) :
    WP (recallRule setting) (ExceptT.run (compute inner source part))
      (Pulled setting source) walker past := by
  refine WP.compute_iff.mpr ⟨⟨agrees, trivial⟩, ?_⟩
  by_cases unevaluable : Unevaluable setting source.node
  · -- The evaluator gives up at once, so nothing is put into the memo.
    obtain ⟨fault, gives⟩ := unevaluable part found source.pin
    rw [gives]
    have nothing : recalled setting (happenings past) source = none := agrees ▸ missing
    refine ⟨⟨agrees, trivial⟩, agrees, fun _ value => ?_⟩
    constructor
    · intro impossible
      cases impossible
    · intro impossible
      have known : recalled setting (happenings past) source = some value := impossible
      rw [nothing] at known
      cases known
  · have evaluated : WP (recallRule setting)
        (perform inner (ExceptT.run (part.kind.evaluate part.node source.pin)))
        (fun _ => Agrees setting) { walker with resolving := source.node :: walker.resolving }
        (told (.evaluating source part.node.config) walker :: past) :=
      WP.perform_of_invariant keeps _ agrees
    refine evaluated.mono fun result walker past agrees => ⟨⟨agrees, trivial⟩, ?_⟩
    cases result with
    | error => exact ⟨agrees, fun known => absurd known unevaluable⟩
    | ok value =>
      refine ⟨?_, fun known => absurd known unevaluable⟩
      funext ref
      exact (Memo.get?_store _ ref source value).trans (by rw [agrees]; rfl)

theorem pull_keeps (source : PinRef) (agrees : Agrees setting walker past) :
    WP (recallRule setting) (ExceptT.run (pull setting inner source))
      (Pulled setting source) walker past := by
  have counted : ∀ ref, (walker.memo.lookup source).2.get? ref = walker.memo.get? ref :=
    fun ref => Memo.get?_lookup walker.memo ref source
  have agrees' : Agrees setting { walker with memo := (walker.memo.lookup source).2 } past := by
    funext ref
    exact (counted ref).trans (by rw [agrees])
  have failed : ∀ fault walker past, Agrees setting walker past →
      recalled setting (happenings past) source = none →
      Pulled setting source (.error fault) walker past := by
    intro fault walker past agrees nothing
    refine ⟨agrees, fun _ value => ?_⟩
    rw [nothing]
    constructor <;> intro impossible <;> cases impossible
  cases found : walker.memo.get? source with
  | some value =>
    have known : recalled setting (happenings past) source = some value := agrees ▸ found
    refine (WP.pull_of_found found).mpr ⟨?_, fun _ other => ?_⟩
    · funext ref
      show (walker.memo.lookup source).2.get? ref = if ref = source then some value else _
      split
      · rename_i same
        rw [counted, same, found]
      · exact congrFun agrees' ref
    · rw [known]
      constructor <;> intro same <;> cases same <;> rfl
  | none =>
    have nothing : recalled setting (happenings past) source = none := agrees ▸ found
    rw [WP.pull_of_missing found]
    split
    · exact failed _ _ _ agrees' nothing
    · refine WP.checkCancelled_iff.mpr ⟨trivial, failed _ _ _ agrees' nothing, ?_⟩
      cases part : setting.circuit.part source.node with
      | error => exact failed _ _ _ agrees' nothing
      | ok part =>
        have going : Agrees setting { walker with memo := (walker.memo.lookup source).2 }
            (⟨.isCancelled, false⟩ :: past) := agrees'
        exact going.compute_keeps keeps part ((counted source).trans found)

theorem invariant : Invariant (recallRule setting) setting inner (Agrees setting) where
  silent q walker past silent agrees := by
    refine ⟨?_, fun answer => ?_⟩
    · cases q with
      | announce => cases silent
      | _ => trivial
    · rw [Agrees, happenings_cons_of_silent answer past silent]
      exact agrees
  session _ _ _ agrees := agrees
  control happening walker past isControl agrees := by
    cases happening <;> first | exact ⟨⟨agrees, trivial⟩, agrees⟩ | cases isControl
  assign path value _ _ agrees := WP.change_iff.mpr (agrees.changes (.assigned path value))
  inner := keeps

theorem keeps_calls :
    KeepsCalls (recallRule setting) setting inner (Agrees setting) (Agrees setting) where
  asks simple agrees := (invariant keeps).silent _ _ _ simple.silent agrees
  supplies := by
    refine ⟨fun source _ _ agrees => ?_, fun _ _ _ _ _ agrees => ⟨⟨agrees, trivial⟩, agrees⟩,
      fun _ agrees => agrees⟩
    rw [upheld_const]
    exact WP.output_iff.mpr
      ((pull_keeps keeps source agrees).mono fun _ _ _ pulled => ⟨pulled, pulled.1⟩)
  follows := (invariant keeps).follows
  changes changes agrees := agrees.changes changes
  note _ _ _ _ agrees := ⟨⟨agrees, trivial⟩, agrees⟩
  records _ agrees := agrees

end inner

theorem serve_keeps (depth : Nat) (c : Call) (agrees : Agrees setting walker past) :
    WP (recallRule setting) (serve setting depth c) (fun _ => Agrees setting) walker past := by
  induction depth generalizing c walker past with
  | zero => exact WP.exhausted_iff.mpr trivial
  | succ depth ih =>
    exact (keeps_calls fun c _ _ agrees => ih c agrees).answer c _ _ agrees

end Agrees

/-- At every moment of a walk, over nodes of whatever kinds, the memo holds exactly what
the happenings up to that moment say, and a read of an output that no evaluator computes
returns exactly what was remembered. -/
theorem obeys_recallRule {setting : Setting} {depth : Nat} {entry : String} {context : Context}
    {past : Past} {rest : Walk (Except Fault Unit × Walker)}
    (course : (start setting depth entry context).Leads past rest) :
    History.Obeys (recallRule setting) past := by
  have nothing : Agrees setting { context } [] := rfl
  exact obeys_of_served (nothing.serve_keeps depth (.run entry)) course

end Walk

end Pinflow
