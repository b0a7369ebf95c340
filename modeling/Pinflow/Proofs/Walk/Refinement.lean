import Mathlib
import Pinflow.Proofs.Walk.Coherence

/-!
# Reading is computing afresh

A walk over built-in kinds that reads a data output gets what can be computed from what it
has in hand: while data is being pulled, neither the context nor what is in hand changes,
so the values that an evaluator gets one after the other fit together. All other steps keep
the memo coherent.

`read_fresh` draws the conclusion for outputs that no action feeds: reading them is computing
them afresh, from the context and the outputs of loops alone.
-/

namespace Pinflow.Walk

open Circuit History Kinds

variable {source : PinRef} {rest : Walk (Except Fault Unit × Walker)} {setting : Setting}
  {context : Context} {entry : String} {value : Value} {fault : Fault} {past : Past} {depth : Nat}
  {α : Type}

def coherenceRule (circuit : Circuit) : Query → Past → Prop
  | .announce ⟨.read source (.ok value), walker⟩, past =>
    circuit.isOf data source.node = true →
      Yields circuit walker.context (inHand circuit walker.memo.get? past) source value
  | _, _ => True

/-- The rule of coherence, as long as the order of happenings is kept. -/
def coherentRead (circuit : Circuit) (q : Query) (past : Past) : Prop :=
  Obeys (orderRule circuit) past → coherenceRule circuit q past

/-- The memo is coherent, as long as the order of happenings is kept. -/
def CoherentlyOrdered (circuit : Circuit) (walker : Walker) (past : Past) : Prop :=
  Obeys (orderRule circuit) past → Coherent circuit walker past

structure Steady (circuit : Circuit) (context : Context) (held : Held) (walker : Walker)
    (past : Past) : Prop where
  coherent : Coherent circuit walker past
  context : walker.context = context
  inHand : inHand circuit walker.memo.get? past = held

/-- Nothing has been disturbed, and the result can be had again by a computation that goes
deep enough. -/
structure Accounted (circuit : Circuit) (context : Context) (held : Held) {α : Type}
    (again : Nat → Option (Except Fault α)) (result : Except Fault α) (walker : Walker)
    (past : Past) : Prop where
  steady : Steady circuit context held walker past
  again : ∀ a, result = .ok a → ∃ depth, again depth = some (.ok a)

/-- The outputs of a node are computed or in hand. -/
def Grounded (circuit : Circuit) (node : String) : Prop :=
  circuit.isOf data node = true ∨ circuit.isOf holding node = true

/-- Nothing has been disturbed, and the value of a grounded output can be computed. -/
structure Fetched (circuit : Circuit) (context : Context) (held : Held) (source : PinRef)
    (result : Except Fault Value) (walker : Walker) (past : Past) : Prop where
  steady : Steady circuit context held walker past
  yields : Grounded circuit source.node → ∀ value, result = .ok value →
    Yields circuit context held source value

variable {circuit : Circuit} {context : Context} {held : Held} {walker walker' : Walker}
  {past : Past}

namespace Steady

theorem of_coherent (coherent : Coherent circuit walker past) :
    Steady circuit walker.context (Walk.inHand circuit walker.memo.get? past) walker past :=
  ⟨coherent, rfl, rfl⟩

section

variable (steady : Steady circuit context held walker past)
include steady

/-- Counting lookups and keeping track of what is being resolved disturb nothing. -/
theorem transport (memo : walker'.memo.get? = walker.memo.get?)
    (same : walker'.context = walker.context) :
    Steady circuit context held walker' past where
  coherent := steady.coherent.transport memo same rfl fun _ _ last => last
  context := same.trans steady.context
  inHand := by
    rw [memo]
    exact steady.inHand

theorem silent {q : Query} (answer : q.Answer) (silent : happening? q = none) :
    Steady circuit context held walker (⟨q, answer⟩ :: past) where
  coherent := steady.coherent.silent answer silent
  context := steady.context
  inHand := (inHand_congr _ (outdated_silent answer silent)).trans steady.inHand

theorem neutral {happening : Happening} (neutral : Coherent.Neutral happening) :
    Steady circuit context held walker (told happening walker :: past) where
  coherent := steady.coherent.neutral neutral
  context := steady.context
  inHand := (inHand_congr _ (steady.coherent.outdated_neutral neutral)).trans steady.inHand

/-- Remembering an output that can be computed and is not in hand disturbs nothing. -/
theorem store (isData : circuit.isOf data source.node = true) (bare : held source = none)
    (yields : Yields circuit context held source value)
    (quiet : ∀ loop pin, (happenings past).head? ≠ some (.reentered loop pin)) :
    Steady circuit context held { walker with memo := walker.memo.store source value } past := by
  have inHand_eq : Walk.inHand circuit (walker.memo.store source value).get? past = held :=
    (inHand_store walker.memo past isData value).trans steady.inHand
  have current : outdated circuit past source = none := by
    rw [← inHand_of_data walker.memo.get? past isData, steady.inHand]
    exact bare
  refine ⟨⟨?_, ?_, ?_⟩, steady.context, inHand_eq⟩
  · intro ref found known isData
    simp only [inHand_eq, steady.context]
    simp only [Memo.get?_store] at known
    split at known
    · rename_i same
      cases known
      rw [same]
      exact yields
    · have before := steady.coherent.sound ref found known isData
      rwa [steady.context, steady.inHand] at before
  · intro ref old known
    have other : ref ≠ source := by
      rintro rfl
      rw [current] at known
      cases known
    simp only [Memo.get?_store, if_neg other]
    exact steady.coherent.remembered ref old known
  · exact fun loop pin last => absurd last (quiet loop pin)

end

end Steady

theorem Accounted.error {again : Nat → Option (Except Fault α)}
    (steady : Steady circuit context held walker past) :
    Accounted circuit context held again (.error fault) walker past :=
  ⟨steady, by simp⟩

theorem Fetched.error (steady : Steady circuit context held walker past) :
    Fetched circuit context held source (.error fault) walker past :=
  ⟨steady, by simp⟩

/-- What keeps a coherent memo coherent keeps it so as long as the order is kept. -/
theorem CoherentlyOrdered.keeps {x : Stateful α} (kept : CoherentlyOrdered circuit walker past)
    (step : Coherent circuit walker past →
      WP (coherentRead circuit) x (fun _ => Coherent circuit) walker past) :
    WP (coherentRead circuit) x (fun _ => CoherentlyOrdered circuit) walker past := by
  refine Dialogue.WP.assuming fun obeys => ?_
  show WP (coherentRead circuit) x (fun _ => CoherentlyOrdered circuit) walker past
  exact (step (kept obeys)).mono fun _ _ _ coherent _ => coherent

/-- A server that keeps the memo coherent, and that disturbs nothing while it answers the
calls of evaluators. -/
structure Coheres (circuit : Circuit) (inner : Server) : Prop where
  keeps : ∀ c walker past, CoherentlyOrdered circuit walker past →
    WP (coherentRead circuit) (inner c) (fun _ => CoherentlyOrdered circuit) walker past
  input : ∀ context held node pin walker past, Steady circuit context held walker past →
    WP (coherentRead circuit) (inner (.input node pin))
      (Accounted circuit context held fun depth =>
        circuit.inputFrom (circuit.unfolded context held depth) node pin) walker past
  context : ∀ context held walker past, Steady circuit context held walker past →
    WP (coherentRead circuit) (inner .context) (fun answer walker past =>
      answer = context ∧ Steady circuit context held walker past) walker past

section operations

variable {inner : Server} (wired : Wired Registry.builtin setting.circuit)
  (coheres : Coheres setting.circuit inner)
include wired coheres

theorem perform_accounted {volatile : Bool} {node : String} {script : Script (Except Fault Value)}
    (reads : Reads volatile node script)
    (steady : Steady setting.circuit context held walker past) :
    WP (coherentRead setting.circuit) (perform inner script)
      (Accounted setting.circuit context held fun depth => script.interpret
        (setting.circuit.supply context (setting.circuit.unfolded context held depth)))
      walker past := by
  induction reads generalizing walker past with
  | done => exact ⟨steady, fun a same => ⟨0, congrArg some same⟩⟩
  | @context next _ _ ih =>
    refine WP.perform_ask_iff.mpr ((coheres.context context held walker past steady).mono ?_)
    rintro answer walker past ⟨rfl, steady⟩
    exact ih answer steady
  | @input pin next faults values ih =>
    refine WP.perform_ask_iff.mpr ((coheres.input context held node pin walker past steady).mono ?_)
    intro answer walker past supplied
    cases answer with
    | error =>
      rw [faults]
      exact .error supplied.steady
    | ok value =>
      obtain ⟨first, known⟩ := supplied.again value rfl
      refine (ih value supplied.steady).mono fun result walker past rest => ⟨rest.steady, ?_⟩
      intro a same
      obtain ⟨second, computed⟩ := rest.again a same
      -- The input and the rest of the script may need different depths.
      have deeper : ∀ depth ≤ max first second, ∀ pin value,
          setting.circuit.inputFrom (setting.circuit.unfolded context held depth) node pin =
            some (.ok value) →
          setting.circuit.inputFrom (setting.circuit.unfolded context held (max first second))
            node pin = some (.ok value) :=
        fun depth less pin value known =>
          inputFrom_ok known fun _ _ _ => unfolded_mono wired less
      refine ⟨max first second, Option.bind_eq_some_iff.mpr ⟨.ok value, ?_, ?_⟩⟩
      · exact deeper first (Nat.le_max_left _ _) pin value known
      · exact interpret_ok (values value) ⟨rfl, rfl, fun _ => rfl⟩ computed
          (deeper second (Nat.le_max_right _ _))

theorem compute_fetches {part : Part} (steady : Steady setting.circuit context held walker past)
    (found : setting.circuit.part source.node = .ok part)
    (missing : walker.memo.get? source = none) :
    WP (coherentRead setting.circuit) (ExceptT.run (compute inner source part))
      (Fetched setting.circuit context held source) walker past := by
  have located := part_eq_ok_iff.mp found
  have evaluating : Steady setting.circuit context held walker
      (told (.evaluating source part.node.config) walker :: past) := steady.neutral trivial
  refine WP.compute_iff.mpr ⟨fun _ => trivial, ?_⟩
  have entered : Steady setting.circuit context held
      { walker with resolving := source.node :: walker.resolving }
      (told (.evaluating source part.node.config) walker :: past) := evaluating.transport rfl rfl
  by_cases isData : setting.circuit.isOf data source.node = true
  · have bare : held source = none := by
      rw [← evaluating.inHand, inHand_of_data _ _ isData, outdated_told, missing]
    have reads := reads_of_builtin (wired.kind_mem located) part.node source.pin
    refine (perform_accounted wired coheres reads entered).mono fun result walker past done => ?_
    have left : Steady setting.circuit context held
        { walker with resolving := walker.resolving.tail } past := done.steady.transport rfl rfl
    refine ⟨fun _ => trivial, ?_⟩
    cases result with
    | error => exact .error (left.neutral trivial)
    | ok value =>
      obtain ⟨depth, computed⟩ := done.again value rfl
      have yields : Yields setting.circuit context held source value := by
        refine ⟨depth + 1, ?_⟩
        rw [unfolded, bare]
        simp only [evaluateFrom, found]
        exact computed
      have evaluated : Steady setting.circuit context held
          { walker with resolving := walker.resolving.tail }
          (told (.evaluated source (.ok value)) _ :: past) := left.neutral trivial
      refine ⟨evaluated.store isData bare yields ?_, fun _ _ same => ?_⟩
      · simp
      · cases same
        exact yields
  · -- Only data nodes compute anything.
    have other : part.kind ∉ data := fun data =>
      isData (isOf_iff.mpr ⟨part, located, List.mem_map_of_mem data⟩)
    obtain ⟨fault, throws⟩ :=
      unevaluable_of_not_data (wired.kind_mem located) other part.node source.pin
    rw [throws]
    exact ⟨fun _ => trivial, .error (evaluating.neutral trivial)⟩

theorem pull_fetches (source : PinRef) (steady : Steady setting.circuit context held walker past) :
    WP (coherentRead setting.circuit) (ExceptT.run (pull setting inner source))
      (Fetched setting.circuit context held source) walker past := by
  have counted : Steady setting.circuit context held
      { walker with memo := (walker.memo.lookup source).2 } past :=
    steady.transport (funext fun ref => Memo.get?_lookup walker.memo ref source) rfl
  cases found : walker.memo.get? source with
  | some value =>
    refine (WP.pull_of_found found).mpr ⟨counted, fun grounded _ same => ?_⟩
    cases same
    rcases grounded with isData | isHolding
    · have yields := steady.coherent.sound source value found isData
      rwa [steady.context, steady.inHand] at yields
    · refine ⟨1, ?_⟩
      rw [unfolded, ← steady.inHand, inHand_of_holding _ _ isHolding, found]
  | none =>
    rw [WP.pull_of_missing found]
    split
    · exact .error counted
    · refine WP.checkCancelled_iff.mpr ⟨fun _ => trivial, ?_, ?_⟩
      · exact .error (counted.silent _ rfl)
      · cases part : setting.circuit.part source.node with
        | error => exact .error (counted.silent _ rfl)
        | ok part =>
          refine compute_fetches wired coheres (counted.silent _ rfl) part ?_
          exact (Memo.get?_lookup walker.memo source source).trans found

theorem output_fetches (source : PinRef)
    (steady : Steady setting.circuit context held walker past) :
    WP (coherentRead setting.circuit) (ExceptT.run (output setting inner source))
      (Fetched setting.circuit context held source) walker past := by
  refine WP.output_iff.mpr ((pull_fetches wired coheres source steady).mono ?_)
  intro result walker past fetched
  refine ⟨fun _ => ?_, fetched.steady.neutral trivial, fetched.yields⟩
  cases result with
  | error => trivial
  | ok value =>
    intro isData
    have yields := fetched.yields (.inl isData) value rfl
    rwa [← fetched.steady.context, ← fetched.steady.inHand] at yields

theorem resolve_accounted (node pin : String) (default : Value)
    (steady : Steady setting.circuit context held walker past) :
    WP (coherentRead setting.circuit) (ExceptT.run (resolve setting inner node pin default))
      (Accounted setting.circuit context held fun depth => setting.circuit.resolveFrom
        (setting.circuit.unfolded context held depth) node pin default) walker past := by
  simp only [WP.resolve_iff, resolveFrom]
  cases wire : setting.circuit.incoming? node pin with
  | some source =>
    have grounded : Grounded setting.circuit source.node := by
      rcases wired.source_class (mem_of_incoming? wire) with isData | isHolding
      · exact .inl isData
      · exact .inr (isOf_append.mpr isHolding)
    refine (output_fetches wired coheres source steady).mono fun result walker past fetched => ?_
    cases result with
    | error => exact .error fetched.steady
    | ok =>
      exact ⟨fun _ => trivial, fetched.steady.neutral trivial, fetched.yields grounded⟩
  | none =>
    cases setting.circuit.part node with
    | error => exact .error steady
    | ok =>
      exact ⟨fun _ => trivial, steady.neutral trivial, fun _ same => ⟨0, congrArg some same⟩⟩

theorem input_accounted (node pin : String)
    (steady : Steady setting.circuit context held walker past) :
    WP (coherentRead setting.circuit) (ExceptT.run (input setting inner node pin))
      (Accounted setting.circuit context held fun depth => setting.circuit.inputFrom
        (setting.circuit.unfolded context held depth) node pin) walker past := by
  simp only [WP.input_iff, inputFrom]
  cases setting.circuit.part node with
  | error => exact .error steady
  | ok part =>
    simp only
    cases part.schema.input? pin with
    | none => exact .error steady
    | some =>
      refine (resolve_accounted wired coheres node pin _ steady).mono ?_
      intro result walker past resolved
      cases result with
      | error => exact .error resolved.steady
      | ok value =>
        simp only
        split
        · exact .error resolved.steady
        · rename_i passes
          refine ⟨resolved.steady, fun a same => ?_⟩
          cases same
          obtain ⟨depth, known⟩ := resolved.again value rfl
          refine ⟨depth, ?_⟩
          rw [known, Option.map_some]
          exact congrArg some (if_neg passes)

omit wired in
theorem invariant (volatile : setting.volatile = setting.circuit.volatileScope)
    (wired : Wired Registry.builtin setting.circuit) :
    Invariant (coherentRead setting.circuit) setting inner (CoherentlyOrdered setting.circuit) where
  silent q walker past silent kept := by
    refine ⟨fun _ => ?_, fun answer obeys => ?_⟩
    · cases q with
      | announce => cases silent
      | _ => trivial
    · exact (kept (obeys_cons.mp obeys).2).silent answer silent
  session session walker past kept obeys :=
    (kept obeys).transport rfl rfl rfl fun _ _ last => last
  control happening walker past isControl kept := by
    refine ⟨fun _ => ?_, fun obeys => ?_⟩
    · cases happening <;> trivial
    · refine (kept (obeys_cons.mp obeys).2).neutral ?_
      cases happening <;> trivial
  assign path value walker past kept := by
    refine WP.change_iff.mpr ⟨fun _ => trivial, fun obeys => ?_⟩
    rw [volatile]
    exact (kept (obeys_cons.mp obeys).2).assigned wired path value
  inner := coheres.keeps

theorem answer_coheres (volatile : setting.volatile = setting.circuit.volatileScope) :
    Coheres setting.circuit (answer setting inner) where
  input context held node pin walker past := input_accounted wired coheres node pin
  context context held walker past steady := ⟨steady.context, steady⟩
  keeps c walker past kept := by
    have control := invariant coheres volatile wired
    have written : ∀ {happening : Happening} {new : Walker},
        Obeys (orderRule setting.circuit) (told happening new :: past) →
          Lawful setting.circuit (happenings past) happening ∧
            Coherent setting.circuit walker past :=
      fun obeys => by
        obtain ⟨allowed, before⟩ := obeys_cons.mp obeys
        exact ⟨allowed.lawful _ rfl, kept before⟩
    cases c with
    | input node pin =>
      refine kept.keeps fun coherent => ?_
      refine (input_accounted wired coheres node pin (.of_coherent coherent)).mono ?_
      exact fun _ _ _ done => done.steady.coherent
    | resolve node pin default =>
      refine kept.keeps fun coherent => ?_
      refine (resolve_accounted wired coheres node pin default (.of_coherent coherent)).mono ?_
      exact fun _ _ _ done => done.steady.coherent
    | output source =>
      refine kept.keeps fun coherent => ?_
      refine (output_fetches wired coheres source (.of_coherent coherent)).mono ?_
      exact fun _ _ _ done => done.steady.coherent
    | traverse node pin => exact upheld_const ▸ control.follows.traverse node pin kept
    | run node => exact upheld_const ▸ control.follows.run node kept
    | assign path value => exact control.assign path value walker past kept
    | note =>
      exact WP.announce_iff.mpr ⟨fun _ => trivial, fun obeys => (written obeys).2.neutral trivial⟩
    | store node values =>
      refine WP.change_iff.mpr ⟨fun _ => trivial, fun obeys => ?_⟩
      obtain ⟨⟨-, ⟨isLoop, last⟩ | isAction⟩, coherent⟩ := written obeys
      · exact coherent.storedByLoop wired values isLoop last
      · exact coherent.storedByAction wired values isAction
    | reenter =>
      refine WP.change_iff.mpr ⟨fun _ => trivial, fun obeys => ?_⟩
      obtain ⟨⟨isLoop, -⟩, coherent⟩ := written obeys
      exact coherent.reentered wired isLoop
    | refresh =>
      refine WP.change_iff.mpr ⟨fun _ => trivial, fun obeys => ?_⟩
      obtain ⟨⟨isLoop, -⟩, coherent⟩ := written obeys
      exact coherent.refreshed wired isLoop
    | isCancelled | act | ticket =>
      exact WP.ask_iff.mpr (control.silent _ walker past rfl kept)
    | context | memo | about | inSession => exact kept
    | persist | log =>
      exact fun obeys => (kept obeys).recorded wired ⟨rfl, rfl, fun _ => rfl⟩

omit coheres in
theorem serve_coheres (volatile : setting.volatile = setting.circuit.volatileScope) (depth : Nat) :
    Coheres setting.circuit (serve setting depth) := by
  induction depth with
  | zero =>
    have stops : ∀ {α : Type} {post : α → Walker → Past → Prop} {walker : Walker} {past : Past},
        WP (coherentRead setting.circuit) (exhausted : Stateful α) post walker past :=
      WP.exhausted_iff.mpr fun _ => trivial
    exact ⟨fun _ _ _ _ => stops, fun _ _ _ _ _ _ _ => stops, fun _ _ _ _ _ => stops⟩
  | succ depth ih => exact answer_coheres wired ih volatile

end operations

section

variable (wired : Wired Registry.builtin setting.circuit)
  (volatile : setting.volatile = setting.circuit.volatileScope)
  (course : (start setting depth entry context).Leads past rest)
include wired volatile course

/-- In every course of a walk over built-in kinds, what is read from data nodes can be
computed from what is in hand. -/
theorem obeys_coherenceRule : Obeys (coherenceRule setting.circuit) past := by
  have nothing : CoherentlyOrdered setting.circuit { context } [] := by
    refine fun _ => ⟨fun _ _ found => ?_, fun _ _ known => ?_, fun _ _ last => ?_⟩
    · cases found
    · cases known
    · cases last
  have served := (serve_coheres wired volatile depth).keeps (.run entry) { context } [] nothing
  have verified : Dialogue.WP (coherentRead setting.circuit) (fun _ past =>
      Obeys (orderRule setting.circuit) past → True) (start setting depth entry context) [] :=
    (start_of_served _ served).mono (fun _ _ obeys => obeys) fun _ _ _ _ => trivial
  exact (Dialogue.WP.under (order_of_course wired .start).1 obeys_nil verified).obeys course

theorem yields_of_read {later earlier : Past}
    (split : past = later ++ told (.read source (.ok value)) walker :: earlier)
    (isData : setting.circuit.isOf data source.node = true) :
    Yields setting.circuit walker.context (inHand setting.circuit walker.memo.get? earlier) source
      value :=
  obeys_coherenceRule wired volatile course later (.announce ⟨.read source (.ok value), walker⟩) ()
    earlier split isData

end

def loopOutputs (circuit : Circuit) (memo : Memo) : Held := fun ref =>
  if circuit.isOf loops ref.node then memo.get? ref else none

/-- Whenever a walk over a loaded graph of built-in kinds reads a value from a data node that
no action feeds, the node computes that value afresh, from the context as it is then and the
outputs that loops have in the memo then. -/
theorem read_fresh {graph : Graph} {circuit : Circuit}
    (loaded : load Registry.builtin graph = .ok circuit)
    {invocation capability : String} {maxIterations maxSnapshot depth : Nat} {entry : String}
    {context : Context} {past : Past} {rest : Walk (Except Fault Unit × Walker)}
    (course : (start (.of circuit invocation capability maxIterations maxSnapshot) depth entry
      context).Leads past rest)
    {later earlier : Past} {walker : Walker} {source : PinRef} {value : Value}
    (split : past = later ++ told (.read source (.ok value)) walker :: earlier)
    (isData : circuit.isOf data source.node = true)
    (apart : ∀ action, circuit.isOf actions action = true →
      source.node ∉ circuit.fed action) :
    circuit.fresh walker.context (loopOutputs circuit walker.memo) source = some (.ok value) := by
  have wired := wired_of_load loaded
  obtain ⟨depth, known⟩ : Yields circuit walker.context (inHand circuit walker.memo.get? earlier)
    source value := yields_of_read wired rfl course split isData
  -- Nothing that actions feed matters here, outdated or not.
  let affected node :=
    ∃ action, circuit.isOf actions action = true ∧ node ∈ circuit.fed action
  have safe : ¬ affected source.node := by
    rintro ⟨action, isAction, feeds⟩
    exact apart action isAction feeds
  refine fresh_of_unfolded wired (unfolded_congr wired affected ?_
    (fun _ _ _ _ => ⟨rfl, rfl, fun _ => rfl⟩) ?_ ?_ known safe)
  · rintro edge member isData ⟨action, isAction, feeds⟩
    exact ⟨action, isAction, fed_closed member isData feeds⟩
  · intro ref value safe isHeld
    rcases written_or_outdated isHeld with ⟨isHolding, found⟩ | stale
    · rcases isOf_append.mp isHolding with isLoop | isAction
      · rw [loopOutputs, if_pos isLoop]
        exact found
      · exact absurd ⟨ref.node, isAction, self_mem_fed ref.node⟩ safe
    · exact absurd (exists_of_outdated stale).2 safe
  · intro ref _ isData _
    exact if_neg (by rw [isOf_eq_false (by decide) isData]; exact Bool.false_ne_true)

/-- A loop over two elements, the body of which writes the element into a variable and then
logs the element and the variable as an array. -/
def gatheringLoop : Graph where
  id := "loop"
  nodes := [
    { id := "start", kind := "on_event" },
    { id := "list", kind := "constant", config := [("value", .arr [.int 1, .int 2])] },
    { id := "each", kind := "for_each" },
    { id := "keep", kind := "set_variable", config := [("name", .str "last")] },
    { id := "last", kind := "get_variable", config := [("name", .str "last")] },
    { id := "pair", kind := "make_array", config := [("arity", .int 2)] },
    { id := "say", kind := "log" }]
  edges := [
    ⟨⟨"start", "then"⟩, ⟨"each", "exec"⟩⟩, ⟨⟨"list", "value"⟩, ⟨"each", "array"⟩⟩,
    ⟨⟨"each", "loop_body"⟩, ⟨"keep", "exec"⟩⟩, ⟨⟨"each", "element"⟩, ⟨"keep", "value"⟩⟩,
    ⟨⟨"keep", "then"⟩, ⟨"say", "exec"⟩⟩, ⟨⟨"each", "element"⟩, ⟨"pair", "item_0"⟩⟩,
    ⟨⟨"last", "value"⟩, ⟨"pair", "item_1"⟩⟩, ⟨⟨"pair", "array"⟩, ⟨"say", "message"⟩⟩]

theorem gatheringLoop_actionless (node : String) :
    (ofGraph gatheringLoop).isOf actions node = false := by
  rw [Bool.eq_false_iff]
  intro isAction
  obtain ⟨part, found, named⟩ := isOf_iff.mp isAction
  have actionless : ∀ part ∈ (ofGraph gatheringLoop).parts,
      part.kind.id ∉ actions.map Kind.id := by decide
  exact actionless part (mem_of_part? found) named

/-- In its second round the loop reads the second pair, although both entries of the first
have been remembered. -/
theorem gatheringLoop_reads :
    ∃ later walker earlier, (tour gatheringLoop [] 80).1 =
      later ++ told (.read ⟨"pair", "array"⟩ (.ok (.arr [.int 2, .int 2]))) walker :: earlier := by
  have last : (happenings (tour gatheringLoop [] 80).1).head? =
      some (.read ⟨"pair", "array"⟩ (.ok (.arr [.int 2, .int 2]))) := by cbv
  exact exists_told_of_head? last

theorem read_fresh_gatheringLoop :
    ∃ later walker earlier,
      (tour gatheringLoop [] 80).1 =
        later ++ told (.read ⟨"pair", "array"⟩ (.ok (.arr [.int 2, .int 2]))) walker :: earlier ∧
      (ofGraph gatheringLoop).fresh walker.context
        (loopOutputs (.ofGraph gatheringLoop) walker.memo) ⟨"pair", "array"⟩ =
          some (.ok (.arr [.int 2, .int 2])) := by
  have loaded : load Registry.builtin gatheringLoop = .ok (.ofGraph gatheringLoop) := rfl
  obtain ⟨later, walker, earlier, split⟩ := gatheringLoop_reads
  refine ⟨later, walker, earlier, split, ?_⟩
  refine read_fresh loaded (leads_tour gatheringLoop [] 80) split rfl fun action isAction => ?_
  rw [gatheringLoop_actionless] at isAction
  cases isAction

end Pinflow.Walk
