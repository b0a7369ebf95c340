import Pinflow.Kinds.Scripted
import Pinflow.Proofs.Kinds.HandingOn
import Pinflow.Proofs.Walk.Evaluations
import Pinflow.Proofs.Walk.Orderly

/-!
# Evaluated once

Over built-in nodes and nodes that compute their outputs from their own inputs, the output of
a node is evaluated again only after it was forgotten, because a variable was written or a
loop went round, or after its evaluator failed.

The latter takes a node that recovers. Built-in nodes hand on the fault of an input, so the
first fault ends the walk. A node that goes on without the input may pull the failed output
again, and since there is nothing to remember its evaluator runs again.
-/

namespace Pinflow

open Circuit Kinds

variable {circuit : Circuit} {happening : Happening} {α : Type} {part : Part} {node : String}
  {script : Script (Except Fault α)} {handed : Prop} {past : Past}

namespace Circuit

variable {ref : PinRef} {q : Query}

def EntersBody (circuit : Circuit) (loop pin : String) : Prop :=
  pin = Loop.bodyPin ∧ ∃ part, circuit.part? loop = some part ∧ part.kind ∈ loops

end Circuit

namespace Walk

/-- Every evaluator has returned a value so far. -/
def Unfailed (past : List Happening) : Prop :=
  ∀ source fault, .evaluated source (.error fault) ∉ past

/-- If faults are `handed` on, no evaluator has failed. -/
def Clean (handed : Prop) (past : Past) : Prop := handed → Unfailed (happenings past)

def orderlyStart (circuit : Circuit) (handed : Prop) : Query → Past → Prop
  | .announce ⟨.evaluating _ _, _⟩, past => Clean handed past
  | .announce ⟨.reentered loop pin, _⟩, _ | .announce ⟨.refreshed loop pin, _⟩, _ =>
    circuit.EntersBody loop pin
  | _, _ => True

theorem orderlyStart_of_silent (silent : happening? q = none) :
    orderlyStart circuit handed q past := by
  cases q with
  | announce => cases silent
  | _ => trivial

/-- Calls that a script may make. -/
def Licensed (circuit : Circuit) : Call → Prop
  | .reenter loop pin | .refresh loop pin => circuit.EntersBody loop pin
  | _ => True

structure Behaves (circuit : Circuit) (part : Part) : Prop where
  evaluate : ∀ pin, Script.Meets (Licensed circuit) (fun _ _ => True) (fun _ => True)
    (ExceptT.run (part.kind.evaluate part.node pin))
  execute : Script.Meets (Licensed circuit) (fun _ _ => True) (fun _ => True)
    (ExceptT.run (part.kind.execute part.node))

abbrev Conveyed {α : Type} (handed : Prop) : Except Fault α → Walker → Past → Prop :=
  Upheld (fun _ => Clean handed) fun _ _ _ => True

def Upright (circuit : Circuit) (handed : Prop) (inner : Server) : Prop :=
  ∀ c walker past, Licensed circuit c → Clean handed past →
    WP (orderlyStart circuit handed) (inner c)
      (fun answer _ past => ¬ c.Fails answer → Clean handed past) walker past

section operations

variable {walker : Walker}

theorem Clean.told (clean : Clean handed past)
    (succeeds : ∀ source fault, happening ≠ .evaluated source (.error fault)) (other : Walker) :
    Clean handed (told happening other :: past) := by
  intro hands source fault member
  rcases List.mem_cons.mp member with same | member
  · exact succeeds source fault same.symm
  · exact clean hands source fault member

theorem Clean.silent (answer : q.Answer) (clean : Clean handed past)
    (isSilent : happening? q = none) : Clean handed (⟨q, answer⟩ :: past) := by
  rw [Clean, happenings_cons_of_silent answer past isSilent]
  exact clean

variable {setting : Setting} {inner : Server}
  (behaved : ∀ node part, setting.circuit.part? node = some part → Behaves setting.circuit part)
  (hands : handed → ∀ part ∈ setting.circuit.parts, part.HandsOn)
  (upright : Upright setting.circuit handed inner)

section scripts

include upright

/-- A script comes before any fault, or ends with one. -/
theorem perform_conveyed
    (meets : script.Meets (Licensed setting.circuit) (fun _ _ => True) (fun _ => True))
    (hands : handed → script.HandsOn) (clean : Clean handed past) :
    WP (orderlyStart setting.circuit handed) (perform inner script) (Conveyed handed) walker
      past := by
  induction script generalizing walker past with
  | done result =>
    cases result with
    | error => trivial
    | ok => exact clean
  | ask c next ih =>
    rw [WP.perform_ask_iff]
    refine (upright c walker past meets.1 clean).mono fun answer walker past answered => ?_
    by_cases goes : Clean handed past
    · exact ih answer (meets.2 answer trivial) (fun yes => (hands yes).2 answer) goes
    · -- The call has failed, and so does the script.
      have yes : handed := Classical.byContradiction fun no => goes fun yes => absurd yes no
      have failed : c.Fails answer := Classical.byContradiction fun ok => goes (answered ok)
      obtain ⟨fault, same⟩ := (hands yes).1 answer failed
      rw [same]
      trivial

end scripts

include behaved hands upright

theorem compute_conveyed {source : PinRef} (found : setting.circuit.part? source.node = some part)
    (clean : Clean handed past) :
    WP (orderlyStart setting.circuit handed) (ExceptT.run (compute inner source part))
      (Conveyed handed) walker past := by
  have member := mem_of_part? found
  refine WP.compute_iff.mpr ⟨clean, ?_⟩
  refine (perform_conveyed upright ((behaved _ part found).evaluate source.pin)
    (fun yes => (hands yes part member).evaluate source.pin) (clean.told (by simp) _)).mono ?_
  intro result after past conveyed
  refine ⟨trivial, ?_⟩
  cases result with
  | error => trivial
  | ok value => exact Clean.told conveyed (by simp) _

theorem pulls_conveyed : Pulls (orderlyStart setting.circuit handed) setting inner
    (fun _ => Clean handed) fun _ _ _ => True where
  counted _ _ _ clean := clean
  looks clean := ⟨trivial, trivial, clean.silent _ rfl⟩
  compute found _ _ clean :=
    compute_conveyed behaved hands upright (part_eq_ok_iff.mp found) clean
  read _ result _ _ upheld := by
    cases result with
    | error => exact ⟨trivial, trivial⟩
    | ok => exact ⟨trivial, Clean.told upheld (by simp) _⟩
  supplied _ _ _ _ _ clean := ⟨trivial, clean.told (by simp) _⟩
  raises _ _ := trivial

theorem execute_conveyed (found : setting.circuit.part? node = some part)
    (clean : Clean handed past) :
    WP (orderlyStart setting.circuit handed) (ExceptT.run (execute inner node part))
      (Conveyed handed) walker past := by
  have member := mem_of_part? found
  refine execute_of_executor trivial ?_ (fun pin after past clean => ?_) fun _ => trivial
  · refine (perform_conveyed upright (behaved _ part found).execute
      (fun yes => (hands yes part member).execute) (clean.told (by simp) _)).mono ?_
    intro result after past conveyed
    refine ⟨trivial, ?_⟩
    cases result with
    | error => trivial
    | ok flow => exact Clean.told conveyed (by simp) after
  · refine (upright (.traverse node pin) after past trivial clean).mono ?_
    intro answer _ _ answered
    cases answer with
    | error => trivial
    | ok => exact answered fun ⟨fault, same⟩ => nomatch same

theorem follows_conveyed : Follows (orderlyStart setting.circuit handed) setting inner
    (fun _ => Clean handed) (fun _ => Clean handed) fun _ _ _ => True where
  looks clean := ⟨trivial, trivial, clean.silent _ rfl⟩
  ready clean := ⟨trivial, trivial, clean.silent _ rfl⟩
  checkpoint node _ _ clean := by
    refine checkpoint_upheld (fun pausing clean => ⟨?_, fun _ => ?_⟩) (fun _ _ _ clean => clean)
      (fun path value _ _ clean => WP.change_iff.mpr ⟨trivial, clean.told (by simp) _⟩)
      (fun _ _ _ _ => trivial) clean
    · exact orderlyStart_of_silent pausing.silent
    · exact clean.silent _ pausing.silent
  execute found clean :=
    execute_conveyed behaved hands upright (part_eq_ok_iff.mp found) clean
  traversing _ _ _ clean := ⟨trivial, clean.told (by simp) _⟩
  followed _ clean := ⟨trivial, clean.told (by simp) _⟩
  traversed _ result _ _ upheld := by
    cases result with
    | error => exact ⟨trivial, trivial⟩
    | ok => exact ⟨trivial, Clean.told upheld (by simp) _⟩
  raises _ _ _ := trivial

theorem answer_upright : Upright setting.circuit handed (answer setting inner) := by
  intro c walker past licensed clean
  have supplies := (pulls_conveyed behaved hands upright).supplies
  have follows := follows_conveyed behaved hands upright
  have replied : ∀ {α : Type} (result : Except Fault α) (after : Walker) (past : Past),
      Conveyed handed result after past →
      (¬ ∃ fault, result = .error fault) → Clean handed past := by
    intro _ result after past upheld succeeds
    cases result with
    | ok => exact upheld
    | error fault => exact absurd ⟨fault, rfl⟩ succeeds
  cases c with
  | input node pin => exact (supplies.input node pin clean).mono replied
  | resolve node pin default => exact (supplies.resolve node pin default clean).mono replied
  | output source => exact (supplies.output source clean).mono replied
  | traverse node pin => exact (follows.traverse node pin clean).mono replied
  | run node => exact (follows.run node clean).mono replied
  | note => exact WP.announce_iff.mpr ⟨trivial, fun _ => clean.told (by simp) _⟩
  | assign | store => exact WP.change_iff.mpr ⟨trivial, fun _ => clean.told (by simp) _⟩
  | reenter | refresh => exact WP.change_iff.mpr ⟨licensed, fun _ => clean.told (by simp) _⟩
  | isCancelled | act | ticket =>
    exact WP.ask_iff.mpr ⟨trivial, fun _ _ => clean.silent _ rfl⟩
  | context | memo | about | inSession | persist | log => exact fun _ => clean

omit upright

theorem serve_upright (depth : Nat) : Upright setting.circuit handed (serve setting depth) := by
  induction depth with
  | zero => exact fun _ _ _ _ _ => WP.exhausted_iff.mpr trivial
  | succ depth ih => exact answer_upright behaved hands ih

theorem obeys_orderlyStart {depth : Nat} {entry : String} {context : Context}
    {rest : Walk (Except Fault Unit × Walker)}
    (course : (start setting depth entry context).Leads past rest) :
    History.Obeys (orderlyStart setting.circuit handed) past := by
  have nothing : Clean handed [] := fun _ _ _ member => nomatch member
  exact obeys_of_served
    (serve_upright behaved hands depth (.run entry) { context } [] trivial nothing) course

end operations

theorem licensed_of_observes
    (meets : script.Meets (Call.Observes node) (fun _ _ => True) (fun _ => True)) :
    script.Meets (Licensed circuit) (fun _ _ => True) (fun _ => True) := by
  refine meets.mono (fun c observes => ?_) (fun _ _ granted => granted) fun _ ended => ended
  cases c <;> trivial

/-- Built-in nodes and nodes that compute make licensed calls. -/
theorem behaves_of_loaded {registry : Registry} (wired : Wired registry circuit)
    (kinds : ∀ part ∈ circuit.parts, part.kind ∈ builtin ∨ part.Computes)
    (found : circuit.part? node = some part) : Behaves circuit part := by
  have own : part.node.id = node := id_of_part? found
  rcases kinds part (mem_of_part? found) with known | computes
  · refine ⟨?_, ?_⟩
    · exact fun pin => licensed_of_observes (reads_of_builtin known part.node pin).meets
    · refine (calls_execute known (wired.bound_of_part? found).2).mono ?_ ?_ ?_
      · intro c asked
        cases c with
        | reenter | refresh =>
          obtain ⟨rfl, rfl, isLoop⟩ := asked
          exact ⟨rfl, part, own ▸ found, isLoop⟩
        | _ => trivial
      · exact fun c answer _ => grants_any c answer
      · exact fun _ _ => trivial
  · refine ⟨?_, ?_⟩
    · exact fun pin => licensed_of_observes (computes.evaluate pin)
    · exact licensed_of_observes computes.execute

/-- The happening takes the outputs of a node out of the memo: a variable was written and the
node may depend on variables, or a loop that has the node in its scope starts its body or
looks at its condition again. -/
def Drops (circuit : Circuit) (node : String) : Happening → Prop
  | .assigned _ _ => node ∈ circuit.volatileScope
  | .reentered loop pin =>
    circuit.EntersBody loop pin ∧ (circuit.loopScope loop pin).contains node = true
  | .refreshed loop pin =>
    circuit.EntersBody loop pin ∧ node ∈ (circuit.loopScope loop pin).derived
  | _ => False

/-- Nothing drops the outputs of a node that is in no scope. -/
theorem not_drops_of_outside (fixed : node ∉ circuit.volatileScope)
    (outside : ∀ loop pin, circuit.EntersBody loop pin →
      (circuit.loopScope loop pin).contains node = false) : ¬ Drops circuit node happening := by
  intro drops
  cases happening with
  | assigned => exact fixed drops
  | reentered loop pin =>
    obtain ⟨enters, inside⟩ := drops
    rw [outside loop pin enters] at inside
    cases inside
  | refreshed loop pin =>
    have apart := outside loop pin drops.1
    simp [LoopScope.contains, drops.2] at apart
  | _ => exact drops

def evaluates (ref : PinRef) : Happening → Bool
  | .evaluating source _ => source = ref
  | _ => false

theorem exists_of_evaluates (starts : evaluates ref happening = true) :
    ∃ config, happening = .evaluating ref config := by
  cases happening with
  | evaluating source config =>
    have same : source = ref := of_decide_eq_true starts
    exact ⟨config, same ▸ rfl⟩
  | _ => cases starts

/-- What occurs twice in a list splits it in three. -/
theorem exists_split_of_two_le_countP {p : α → Bool} {list : List α} (twice : 2 ≤ list.countP p) :
    ∃ later a between b earlier,
      list = later ++ a :: (between ++ b :: earlier) ∧ p a = true ∧ p b = true := by
  induction list with
  | nil => cases twice
  | cons a list ih =>
    by_cases holds : p a = true
    · rw [List.countP_cons_of_pos holds] at twice
      obtain ⟨b, member, other⟩ := List.countP_pos_iff.mp (by omega : 0 < list.countP p)
      obtain ⟨between, earlier, rfl⟩ := List.append_of_mem member
      exact ⟨[], a, between, b, earlier, rfl, holds, other⟩
    · rw [List.countP_cons_of_neg holds] at twice
      obtain ⟨later, first, between, second, earlier, rfl, rest⟩ := ih twice
      exact ⟨a :: later, first, between, second, earlier, rfl, rest⟩

/-- What forgets outputs in a walk drops them: loops begin their own bodies only. -/
theorem drops_of_forgets {setting : Setting}
    (scope : setting.volatile = setting.circuit.volatileScope)
    (obeys : History.Obeys (orderlyStart setting.circuit handed) past)
    (member : happening ∈ happenings past) (forgets : Forgets setting node happening) :
    Drops setting.circuit node happening := by
  obtain ⟨later, earlier, split⟩ := List.append_of_mem member
  obtain ⟨walker, before, -, rule⟩ := Obeys.happening obeys split
  cases happening with
  | assigned =>
    rw [Drops, ← scope]
    exact forgets
  | reentered | refreshed => exact ⟨rule, forgets⟩
  | _ => exact forgets.elim

section evaluations

variable {registry : Registry} {graph : Graph} {circuit : Circuit}
  {invocation capability entry : String} {maxIterations maxSnapshot depth : Nat} {context : Context}
  {past : Past} {rest : Walk (Except Fault Unit × Walker)}

/-- Between two evaluations of an output it was dropped, or its evaluator failed and some node
recovers from the faults of its inputs. -/
theorem dropped_or_recovered (loaded : load registry graph = .ok circuit)
    (kinds : ∀ part ∈ circuit.parts, part.kind ∈ builtin ∨ part.Computes)
    (course : (start (.of circuit invocation capability maxIterations maxSnapshot) depth entry
      context).Leads past rest) {config config' : Fields} {later between earlier : List Happening}
    (split : happenings past =
      later ++ .evaluating ref config :: (between ++ .evaluating ref config' :: earlier)) :
    (∃ happening ∈ between, Drops circuit ref.node happening) ∨
    (∃ fault, .evaluated ref (.error fault) ∈ between) ∧
      ∃ part ∈ circuit.parts, part.kind ∉ builtin ∧ ¬ part.HandsOn := by
  let setting := Setting.of circuit invocation capability maxIterations maxSnapshot
  have wired := wired_of_load loaded
  have obeys : History.Obeys
      (orderlyStart setting.circuit (∀ part ∈ circuit.parts, part.HandsOn)) past :=
    obeys_orderlyStart (fun _ _ found => behaves_of_loaded wired kinds found) id course
  rcases forgotten_or_failed course split with ⟨happening, member, forgets⟩ | ⟨fault, member⟩
  · have told : happening ∈ happenings past := by
      rw [split]
      simp [member]
    exact .inl ⟨happening, member, drops_of_forgets rfl obeys told forgets⟩
  · refine .inr ⟨⟨fault, member⟩, ?_⟩
    -- If all nodes handed faults on, no evaluator would have been started after this one.
    apply Classical.byContradiction
    intro none
    obtain ⟨walker, before, same, clean⟩ := Obeys.happening obeys split
    refine clean ?_ ref fault (by rw [same]; exact List.mem_append_left _ member)
    intro part listed
    apply Classical.byContradiction
    intro recovers
    refine none ⟨part, listed, ?_, recovers⟩
    intro known
    exact recovers (Part.handsOn_of_builtin known)

/-- If an output of a node is evaluated twice in a walk over built-in nodes and nodes that
compute from their own inputs, then it was dropped from the memo in between, or its evaluator
failed and a node that is not built in does not hand on the faults of its inputs.

So an output that nothing drops is evaluated at most once, unless it fails where faults are
not handed on. -/
theorem evaluated_once_between_drops (loaded : load registry graph = .ok circuit)
    (kinds : ∀ part ∈ circuit.parts, part.kind ∈ builtin ∨ part.Computes)
    (course : (start (.of circuit invocation capability maxIterations maxSnapshot) depth entry
      context).Leads past rest) (ref : PinRef) :
    (∀ later config between config' earlier, happenings past =
        later ++ .evaluating ref config :: (between ++ .evaluating ref config' :: earlier) →
      (∃ happening ∈ between, Drops circuit ref.node happening) ∨
      (∃ fault, .evaluated ref (.error fault) ∈ between) ∧
        ∃ part ∈ circuit.parts, part.kind ∉ builtin ∧ ¬ part.HandsOn) ∧
    (ref.node ∉ circuit.volatileScope →
      (∀ loop pin, circuit.EntersBody loop pin →
        (circuit.loopScope loop pin).contains ref.node = false) →
      ((∀ part ∈ circuit.parts, part.HandsOn) ∨
        ∀ fault, .evaluated ref (.error fault) ∉ happenings past) →
      (happenings past).countP (evaluates ref) ≤ 1) := by
  refine ⟨fun _ _ _ _ _ split => dropped_or_recovered loaded kinds course split, ?_⟩
  intro fixed outside sound
  apply Classical.byContradiction
  intro more
  obtain ⟨later, a, between, b, earlier, split, starts, starts'⟩ :=
    exists_split_of_two_le_countP (by omega : 2 ≤ (happenings past).countP (evaluates ref))
  obtain ⟨config, rfl⟩ := exists_of_evaluates starts
  obtain ⟨config', rfl⟩ := exists_of_evaluates starts'
  rcases dropped_or_recovered loaded kinds course split with
    ⟨happening, -, drops⟩ | ⟨⟨fault, member⟩, part, listed, -, recovers⟩
  · exact not_drops_of_outside fixed outside drops
  · rcases sound with handsOn | succeeds
    · exact recovers (handsOn part listed)
    · apply succeeds fault
      rw [split]
      simp [member]

end evaluations

/-- Surroundings that let a walk go its way and number the tickets it draws. -/
def ticketing : (q : Query) → Past → Option q.Answer
  | .ticket, past => some (past.countP (fun exchange => exchange.query matches .ticket) + 1)
  | q, past => unhindered [] q past

def scriptedCircuit (graph : Graph) : Circuit :=
  match load Registry.scripted graph with
  | .ok circuit => circuit
  | .error _ => ⟨graph.id, graph.name, [], [], []⟩

def scriptedTour (graph : Graph) (steps : Nat) : Past × Walk (Except Fault Unit × Walker) :=
  Dialogue.follow ticketing steps []
    (start (.of (scriptedCircuit graph) "" "" 10 10) 100 "start" {})

theorem leads_scriptedTour (graph : Graph) (steps : Nat) :
    (start (.of (scriptedCircuit graph) "" "" 10 10) 100 "start" {}).Leads
      (scriptedTour graph steps).1 (scriptedTour graph steps).2 := Dialogue.leads_follow .start

/-- A loop whose body says twice what a counter has counted. -/
def countingLoop : Graph where
  id := "g"
  nodes := [
    { id := "start", kind := "on_event" },
    { id := "list", kind := "constant", config := [("value", .arr [.int 1, .int 2])] },
    { id := "each", kind := "for_each" }, { id := "count", kind := "counter" },
    { id := "say", kind := "log" }, { id := "again", kind := "log" }]
  edges := [
    ⟨⟨"start", "then"⟩, ⟨"each", "exec"⟩⟩, ⟨⟨"list", "value"⟩, ⟨"each", "array"⟩⟩,
    ⟨⟨"each", "loop_body"⟩, ⟨"say", "exec"⟩⟩, ⟨⟨"say", "then"⟩, ⟨"again", "exec"⟩⟩,
    ⟨⟨"count", "value"⟩, ⟨"say", "message"⟩⟩, ⟨⟨"count", "value"⟩, ⟨"again", "message"⟩⟩]

theorem countingLoop_parts : ∀ part ∈ (scriptedCircuit countingLoop).parts,
    part.kind = Scripted.counter ∨ part.kind ∈ builtin := by
  obtain ⟨s₀, s₁, s₂, s₃, s₄, s₅, parts⟩ : ∃ s₀ s₁ s₂ s₃ s₄ s₅,
      (scriptedCircuit countingLoop).parts = [
        ⟨{ id := "start", kind := "on_event" }, onEvent, s₀⟩,
        ⟨{ id := "list", kind := "constant", config := [("value", .arr [.int 1, .int 2])] },
          constant, s₁⟩,
        ⟨{ id := "each", kind := "for_each" }, forEach, s₂⟩,
        ⟨{ id := "count", kind := "counter" }, Scripted.counter, s₃⟩,
        ⟨{ id := "say", kind := "log" }, log, s₄⟩,
        ⟨{ id := "again", kind := "log" }, log, s₅⟩] := ⟨_, _, _, _, _, _, rfl⟩
  rw [parts]
  simp [builtin]

theorem computes_counter (counts : part.kind = Scripted.counter) :
    part.Computes ∧ part.HandsOn := by
  obtain ⟨node, kind, schema⟩ := part
  cases counts
  refine ⟨⟨?_, trivial⟩, ?_, trivial⟩
  · exact fun pin => ⟨trivial, fun _ _ => trivial⟩
  · exact fun pin => ⟨fun _ failed => failed.elim, fun _ => trivial⟩

/-- The two messages are supplied in both rounds, from a single evaluation. -/
theorem evaluated_once_between_drops_countingLoop :
    (happenings (scriptedTour countingLoop 90).1).countP
      (fun happening => happening matches .supplied _ "message" _) = 4 ∧
    (happenings (scriptedTour countingLoop 90).1).countP (evaluates ⟨"count", "value"⟩) ≤ 1 := by
  refine ⟨by decide +kernel, ?_⟩
  have loaded : load Registry.scripted countingLoop = .ok (scriptedCircuit countingLoop) :=
    rfl
  have kinds : ∀ part ∈ (scriptedCircuit countingLoop).parts,
      part.kind ∈ builtin ∨ part.Computes := by
    intro part member
    exact (countingLoop_parts part member).symm.imp_right fun counts => (computes_counter counts).1
  have handsOn : ∀ part ∈ (scriptedCircuit countingLoop).parts, part.HandsOn := by
    intro part member
    rcases countingLoop_parts part member with counts | known
    · exact (computes_counter counts).2
    · exact Part.handsOn_of_builtin known
  have once := evaluated_once_between_drops loaded kinds (leads_scriptedTour countingLoop 90)
    ⟨"count", "value"⟩
  refine once.2 (by decide) ?_ (.inl handsOn)
  rintro loop _ ⟨rfl, part, found, isLoop⟩
  have only : ∀ part ∈ (scriptedCircuit countingLoop).parts,
      part.kind.id ∈ loops.map Kind.id → part.node.id = "each" := by decide
  have named := only part (mem_of_part? found) (List.mem_map_of_mem isLoop)
  rw [← id_of_part? found, named]
  decide

/-- A node that pulls two inputs, and goes on if they cannot be had. -/
def recoveringNode : Node where
  id := "both"
  kind := "probe"
  config := [
    ("pins", .obj [
      ("inputs", .arr [.obj [("id", .str "x")], .obj [("id", .str "y")]]),
      ("outputs", .arr [.obj [("id", .str "out")]])]),
    ("eval", .obj [("out", .obj [
      ("do", .arr [
        .arr [.str "try", .arr [.str "input", .str "x"]],
        .arr [.str "try", .arr [.str "input", .str "y"]]]),
      ("value", .int 0)])])]

/-- Both inputs of the node are wired to a sum that fails. -/
def recoveringPair : Graph where
  id := "g"
  nodes := [
    { id := "start", kind := "on_event" },
    { id := "sum", kind := "math", config := [("a0", .str "x")] },
    recoveringNode, { id := "say", kind := "log" }]
  edges := [
    ⟨⟨"start", "then"⟩, ⟨"say", "exec"⟩⟩, ⟨⟨"sum", "result"⟩, ⟨"both", "x"⟩⟩,
    ⟨⟨"sum", "result"⟩, ⟨"both", "y"⟩⟩, ⟨⟨"both", "out"⟩, ⟨"say", "message"⟩⟩]

theorem recoveringPair_parts : ∃ s₀ s₁ s₂ s₃, (scriptedCircuit recoveringPair).parts = [
    ⟨{ id := "start", kind := "on_event" }, onEvent, s₀⟩,
    ⟨{ id := "sum", kind := "math", config := [("a0", .str "x")] }, math, s₁⟩,
    ⟨recoveringNode, Scripted.probe, s₂⟩,
    ⟨{ id := "say", kind := "log" }, log, s₃⟩] := ⟨_, _, _, _, rfl⟩

theorem computes_recoveringNode (schema : Schema) :
    Part.Computes ⟨recoveringNode, Scripted.probe, schema⟩ := by
  refine ⟨?_, trivial⟩
  intro pin
  by_cases same : pin = "out"
  · subst same
    -- Whatever an input comes to, it is logged, and then the next one is pulled.
    refine ⟨rfl, fun first _ => ?_⟩
    cases first with
    | ok | error =>
      refine ⟨trivial, fun _ _ => ⟨rfl, fun second _ => ?_⟩⟩
      cases second <;> exact ⟨trivial, fun _ _ => trivial⟩
  · have absent : (recoveringNode.config.get? "eval").bind (·.field? pin) = none :=
      if_neg fun found => same found.symm
    simp only [Scripted.probe, Scripted.evaluate, absent]
    trivial

/-- The sum is evaluated twice, although no variable is written and there is no loop. -/
theorem evaluated_twice_of_recoveringPair :
    load Registry.scripted recoveringPair = .ok (scriptedCircuit recoveringPair) ∧
    (∀ part ∈ (scriptedCircuit recoveringPair).parts,
      part.kind ∈ builtin ∨ part.Computes) ∧
    ∃ past rest later config between config' earlier,
      (start (.of (scriptedCircuit recoveringPair) "" "" 10 10) 100 "start" {}).Leads past rest ∧
      happenings past = later ++ .evaluating ⟨"sum", "result"⟩ config ::
        (between ++ .evaluating ⟨"sum", "result"⟩ config' :: earlier) ∧
      ∀ happening ∈ between, ¬ Drops (scriptedCircuit recoveringPair) "sum" happening := by
  have twice : (happenings (scriptedTour recoveringPair 20).1).countP
      (evaluates ⟨"sum", "result"⟩) = 2 := by decide +kernel
  refine ⟨rfl, ?_, ?_⟩
  · obtain ⟨s₀, s₁, s₂, s₃, parts⟩ := recoveringPair_parts
    rw [parts]
    simp only [List.forall_mem_cons, List.not_mem_nil, false_imp_iff, implies_true, and_true]
    refine ⟨.inl ?_, .inl ?_, .inr (computes_recoveringNode s₂), .inl ?_⟩ <;> simp [builtin]
  · obtain ⟨later, a, between, b, earlier, split, starts, starts'⟩ :=
      exists_split_of_two_le_countP (Nat.le_of_eq twice.symm)
    obtain ⟨config, rfl⟩ := exists_of_evaluates starts
    obtain ⟨config', rfl⟩ := exists_of_evaluates starts'
    refine ⟨_, _, later, config, between, config', earlier,
      leads_scriptedTour recoveringPair 20, split, ?_⟩
    intro happening member
    apply not_drops_of_outside
    · decide
    · rintro loop pin ⟨-, part, found, isLoop⟩
      have none : ∀ part ∈ (scriptedCircuit recoveringPair).parts,
          part.kind.id ∉ loops.map Kind.id := by decide
      exact absurd (List.mem_map_of_mem isLoop) (none part (mem_of_part? found))

end Walk

end Pinflow
