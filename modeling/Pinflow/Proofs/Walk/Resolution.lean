import Mathlib
import Pinflow.Proofs.Circuit.Cycles
import Pinflow.Proofs.Walk.Orderly
import Pinflow.Proofs.Walk.Recall
import Pinflow.Proofs.Walk.Termination

/-!
# Reading finds genuine cycles only

In a walk over a loaded circuit of built-in kinds the nodes being resolved are all different,
and each feeds the one that pulled it. So where reading an output fails because of a cycle,
the path that it reports is one.

Conversely a node on a circle of nodes that need all of their inputs never gets a value: it
could not be computed, so it was never remembered either.
-/

namespace Pinflow

open Circuit Kinds

variable {node : String} {result : Except Fault Value} {circuit : Circuit}
  {link : String → String → Prop} {source : PinRef}

namespace Walk

variable {past : Past} {part : Part} {walker : Walker} {node pin : String}

def Genuine (link : String → String → Prop) (fault : Fault) : Prop :=
  ∀ node path, fault = .cycle node path → Circular link node path

theorem genuine_part {fault : Fault} (missing : circuit.part node = .error fault) :
    Genuine link fault :=
  fun node path same => absurd same ((own_of_part missing).2 node path)

/-- The state of a walk as far as cycles are concerned. Neighbours on the stack are linked:
in a walk of its own accord each node feeds the one that pulled it, and nothing is known if a
read is made out of turn. -/
structure Tidy (circuit : Circuit) (link : String → String → Prop) (walker : Walker) : Prop where
  distinct : walker.resolving.Nodup
  chain : walker.resolving.IsChain link
  memo : ∀ ref, circuit.Vicious ref.node → walker.memo.get? ref = none

/-- What reading an output may return. -/
def Read (circuit : Circuit) (link : String → String → Prop) (source : PinRef) :
    Except Fault Value → Prop :=
  EndsWell (Genuine link) fun _ => ¬ circuit.Vicious source.node

/-- All states that are told of are tidy, and so are all reads. -/
def Reports (circuit : Circuit) (link : String → String → Prop) : Query → Past → Prop
  | .announce ⟨.read source result, walker⟩, _ =>
    Tidy circuit link walker ∧ Read circuit link source result
  | .announce ⟨_, walker⟩, _ => Tidy circuit link walker
  | _, _ => True

theorem reports_of_silent {q : Query} (silent : happening? q = none) :
    Reports circuit link q past := by
  cases q with
  | announce => cases silent
  | _ => trivial

theorem Reports.tidy {happening : Happening}
    (reports : Reports circuit link (.announce ⟨happening, walker⟩) past) :
    Tidy circuit link walker := by
  cases happening with
  | read => exact reports.1
  | _ => exact reports

namespace Tidy

theorem init (context : Context) : Tidy circuit link { context } := by
  refine ⟨List.nodup_nil, .nil, ?_⟩
  intro ref vicious
  rfl

section

variable (tidy : Tidy circuit link walker)
include tidy

/-- Only the stack and the memo count. -/
theorem congr {other : Walker} (stack : other.resolving = walker.resolving)
    (memo : ∀ ref, walker.memo.get? ref = none → other.memo.get? ref = none) :
    Tidy circuit link other := by
  refine ⟨?_, ?_, ?_⟩
  · rw [stack]
    exact tidy.distinct
  · rw [stack]
    exact tidy.chain
  · intro ref vicious
    exact memo ref (tidy.memo ref vicious)

theorem invalidate (context : Context) (nodes : List String) :
    Tidy circuit link { walker with context, memo := walker.memo.invalidate nodes } := by
  refine tidy.congr rfl ?_
  intro ref missing
  rw [Memo.get?_invalidate, missing, ite_self]

theorem store (value : Value) (sound : ¬ circuit.Vicious source.node) :
    Tidy circuit link { walker with memo := walker.memo.store source value } := by
  refine ⟨tidy.distinct, tidy.chain, ?_⟩
  intro ref vicious
  have other : ref ≠ source := by
    rintro rfl
    exact sound vicious
  rw [Memo.get?_store, if_neg other]
  exact tidy.memo ref vicious

theorem storeMany (values : List (String × Value)) (sound : ¬ circuit.Vicious node) :
    Tidy circuit link { walker with memo := walker.memo.storeMany node values } := by
  induction values generalizing walker with
  | nil => exact tidy
  | cons entry values ih => exact ih (tidy.store entry.2 sound)

theorem push (fresh : walker.resolving.contains node = false)
    (linked : ∀ reader ∈ walker.resolving.head?, link node reader) :
    Tidy circuit link { walker with resolving := node :: walker.resolving } := by
  refine ⟨List.nodup_cons.mpr ⟨?_, tidy.distinct⟩, tidy.chain.cons linked, tidy.memo⟩
  intro member
  rw [List.contains_iff_mem.mpr member] at fresh
  cases fresh

theorem pop : Tidy circuit link { walker with resolving := walker.resolving.tail } :=
  ⟨tidy.distinct.tail, tidy.chain.tail, tidy.memo⟩

end

end Tidy

/-- What is wired to a vicious circle has no value. -/
def Fed (circuit : Circuit) : (c : Call) → c.Answer → Prop
  | .input node pin, answer => ∀ source value, circuit.incoming? node pin = some source →
    answer = .ok value → ¬ circuit.Vicious source.node
  | _, _ => True

/-- Calls of scripts: those of an evaluator pull inputs of the innermost node being resolved,
control runs while none is, and outputs of strict nodes are not written. -/
def Fitting (circuit : Circuit) (resolving : List String) : Call → Prop
  | .input node _ => ∀ reader ∈ resolving.head?, reader = node
  | .run _ | .traverse _ _ => resolving = []
  | .store node _ => circuit.isOf strict node = false
  | .resolve _ _ _ | .output _ => False
  | _ => True

structure Stays (circuit : Circuit) (link : String → String → Prop) (resolving : List String)
    (walker : Walker) : Prop where
  tidy : Tidy circuit link walker
  same : walker.resolving = resolving

/-- A server that keeps walks tidy, and whose faults are genuine. -/
def Discerning (circuit : Circuit) (link : String → String → Prop) (inner : Server) : Prop :=
  ∀ c walker past, Tidy circuit link walker → Fitting circuit walker.resolving c →
    WP (Reports circuit link) (inner c) (fun answer after _ =>
      (Grants (Genuine link) c answer ∧ Fed circuit c answer) ∧
        Stays circuit link walker.resolving after) walker past

section operations

variable {setting : Setting} {inner : Server}
  (links : ∀ feeder reader, setting.circuit.Feeds feeder reader → link feeder reader)
  (wired : Wired Registry.builtin setting.circuit)
  (single : (setting.circuit.dataEdges.map Edge.target).Nodup)
  (discerning : Discerning setting.circuit link inner)

section data

include wired single

/-- The evaluator of a node fails if the node is on a vicious circle. -/
theorem meets_evaluate (link : String → String → Prop) {output : Pin}
    (found : setting.circuit.part? source.node = some part)
    (declared : part.schema.output? source.pin = some output) (plain : output.type.isExec = false) :
    Script.Meets part.Pulls
      (fun c answer => Grants (Genuine link) c answer ∧ Fed setting.circuit c answer)
      (Read setting.circuit link source)
      (ExceptT.run (part.kind.evaluate part.node source.pin)) := by
  obtain ⟨known, bound⟩ := wired.bound_of_part? found
  have own : part.node.id = source.node := id_of_part? found
  have conduct : Conduct part.Pulls (Genuine link) (fun _ => True)
      (part.kind.evaluate part.node source.pin) :=
    conduct_evaluate known bound (fun _ _ => nofun) declared plain
  by_cases vicious : setting.circuit.Vicious source.node
  · obtain ⟨strict, feeder, pin, edge, circle⟩ := vicious.feeder
    have isStrict := wired.kind_mem_of_isOf strict_subset found strict
    have wire := (incoming?_eq_some_iff single).mpr edge
    obtain ⟨-, target, -, input, -, foundTarget, -, isInput, -⟩ := wired.data _ edge
    obtain rfl : part = target := Option.some.inj (found.symm.trans foundTarget)
    have relies :=
      relies_of_strict isStrict bound (Option.isSome_of_eq_some isInput) source.pin
    refine (conduct.and relies).mono ?_ ?_ ?_
    · intro c asked
      exact asked.1
    · rintro c answer ⟨granted, fed⟩
      refine ⟨granted, ?_⟩
      cases c with
      | input =>
        rintro rfl rfl
        cases answer with
        | error fault => exact ⟨fault, rfl⟩
        | ok value => exact absurd circle (fed feeder value (own ▸ wire) rfl)
      | _ => trivial
    · rintro result ⟨ended, fault, rfl⟩
      exact ended
  · refine conduct.mono (fun _ asked => asked) (fun _ _ granted => granted.1) ?_
    intro result ended
    cases result with
    | ok => exact vicious
    | error => exact ended

include discerning

theorem compute_tidy {output : Pin} (found : setting.circuit.part? source.node = some part)
    (declared : part.schema.output? source.pin = some output) (plain : output.type.isExec = false)
    (tidy : Tidy setting.circuit link walker)
    (fresh : walker.resolving.contains source.node = false)
    (linked : ∀ reader ∈ walker.resolving.head?, link source.node reader) :
    WP (Reports setting.circuit link) (ExceptT.run (compute inner source part))
      (fun result after _ => Read setting.circuit link source result ∧
        Stays setting.circuit link walker.resolving after) walker past := by
  have own : part.node.id = source.node := id_of_part? found
  have meets := meets_evaluate wired single link found declared plain
  refine WP.compute_iff.mpr ⟨tidy, ?_⟩
  have pushed : Stays setting.circuit link (source.node :: walker.resolving)
      { walker with resolving := source.node :: walker.resolving } := ⟨tidy.push fresh linked, rfl⟩
  refine (WP.perform_of_meets
    (fun walker' _ => Stays setting.circuit link (source.node :: walker.resolving) walker') ?_ meets
    pushed).mono ?_
  · intro c after past asked stays
    have fitting : Fitting setting.circuit after.resolving c := by
      rw [stays.same]
      cases c with
      | input =>
        intro reader first
        cases first
        exact (asked.1.trans own).symm
      | context => trivial
      | _ => exact asked.elim
    refine (discerning c after past stays.tidy fitting).mono ?_
    rintro answer last past ⟨granted, kept⟩
    exact ⟨granted, kept.tidy, kept.same.trans stays.same⟩
  · rintro result after past ⟨read, stays⟩
    have popped := stays.tidy.pop
    have same : after.resolving.tail = walker.resolving := by
      rw [stays.same]
      rfl
    refine ⟨popped, ?_⟩
    cases result with
    | error => exact ⟨read, popped, same⟩
    | ok value => exact ⟨read, popped.store value read, same⟩

section

variable (isOutput : setting.circuit.DataOutput source) (tidy : Tidy setting.circuit link walker)
  (linked : ∀ reader ∈ walker.resolving.head?, link source.node reader)
include isOutput tidy linked

theorem pull_tidy :
    WP (Reports setting.circuit link) (ExceptT.run (pull setting inner source))
      (fun result after _ => Read setting.circuit link source result ∧
        Stays setting.circuit link walker.resolving after) walker past := by
  obtain ⟨part, output, found, declared, plain⟩ := isOutput
  have counted : Tidy setting.circuit link
      { walker with memo := (walker.memo.lookup source).2 } := by
    refine tidy.congr rfl ?_
    intro ref missing
    rw [Memo.get?_lookup, missing]
  cases remembered : walker.memo.get? source with
  | some =>
    refine (WP.pull_of_found remembered).mpr ⟨?_, counted, rfl⟩
    intro vicious
    rw [tidy.memo source vicious] at remembered
    cases remembered
  | none =>
    rw [WP.pull_of_missing remembered]
    split
    · rename_i member
      refine ⟨?_, counted, rfl⟩
      rintro _ _ ⟨⟩
      have chain := tidy.chain.cons linked
      exact circular_cyclePath tidy.distinct (List.contains_iff_mem.mp member) chain
    · rename_i fresh
      refine WP.checkCancelled_iff.mpr ⟨trivial, ⟨nofun, counted, rfl⟩, ?_⟩
      rw [part_eq_ok_iff.mpr found]
      exact compute_tidy wired single discerning found declared plain counted
        (Bool.eq_false_iff.mpr fresh) linked

theorem output_tidy :
    WP (Reports setting.circuit link) (ExceptT.run (output setting inner source))
      (fun result after _ => Read setting.circuit link source result ∧
        Stays setting.circuit link walker.resolving after) walker past := by
  refine WP.output_iff.mpr ((pull_tidy wired single discerning isOutput tidy linked).mono ?_)
  rintro result after past ⟨read, stays⟩
  exact ⟨⟨stays.tidy, read⟩, read, stays⟩

end

include links

variable (tidy : Tidy setting.circuit link walker)
  (reads : ∀ reader ∈ walker.resolving.head?, reader = node)
include tidy reads

theorem resolve_tidy {default : Value} :
    WP (Reports setting.circuit link) (ExceptT.run (resolve setting inner node pin default))
      (fun result after _ => EndsWell (Genuine link) (fun _ =>
        ∀ source, setting.circuit.incoming? node pin = some source →
          ¬ setting.circuit.Vicious source.node) result ∧
        Stays setting.circuit link walker.resolving after) walker past := by
  rw [WP.resolve_iff]
  cases wire : setting.circuit.incoming? node pin with
  | some source =>
    have linked : ∀ reader ∈ walker.resolving.head?, link source.node reader := by
      intro reader first
      rw [reads reader first]
      exact links _ _ ⟨_, mem_of_incoming? wire, rfl, rfl⟩
    have isOutput := wired.dataOutput_of_incoming? wire
    refine (output_tidy wired single discerning isOutput tidy linked).mono ?_
    rintro result after past ⟨read, stays⟩
    cases result with
    | error => exact ⟨read, stays⟩
    | ok =>
      refine ⟨stays.tidy, ?_, stays⟩
      rintro _ ⟨⟩
      exact read
  | none =>
    cases found : setting.circuit.part node with
    | error => exact ⟨genuine_part found, tidy, rfl⟩
    | ok =>
      refine ⟨tidy, ?_, tidy, rfl⟩
      rintro _ ⟨⟩

theorem input_tidy :
    WP (Reports setting.circuit link) (ExceptT.run (input setting inner node pin))
      (fun result after _ => EndsWell (Genuine link) (fun _ =>
        ∀ source, setting.circuit.incoming? node pin = some source →
          ¬ setting.circuit.Vicious source.node) result ∧
        Stays setting.circuit link walker.resolving after) walker past := by
  rw [WP.input_iff]
  cases found : setting.circuit.part node with
  | error => exact ⟨genuine_part found, tidy, rfl⟩
  | ok part =>
    simp only
    cases part.schema.input? pin with
    | none => exact ⟨nofun, tidy, rfl⟩
    | some =>
      refine (resolve_tidy links wired single discerning tidy reads).mono ?_
      rintro result after past ⟨ended, stays⟩
      cases result with
      | error => exact ⟨ended, stays⟩
      | ok =>
        simp only
        split
        · exact ⟨nofun, stays⟩
        · exact ⟨ended, stays⟩

end data

section control

include wired discerning

/-- What is known when control comes back. -/
abbrev Tidied (circuit : Circuit) (link : String → String → Prop) {α : Type} :
    Except Fault α → Walker → Past → Prop :=
  Upheld (fun after _ => Stays circuit link [] after)
    fun fault after _ => Genuine link fault ∧ Stays circuit link [] after

theorem execute_tidy (found : setting.circuit.part? node = some part)
    (stays : Stays setting.circuit link [] walker) :
    WP (Reports setting.circuit link) (ExceptT.run (execute inner node part))
      (Tidied setting.circuit link) walker past := by
  obtain ⟨known, bound⟩ := wired.bound_of_part? found
  have own : part.node.id = node := id_of_part? found
  have conduct : Conduct part.Asks (Genuine link) (fun _ => True)
      (part.kind.execute part.node) := by
    by_cases computing : part.kind ∈ pureData
    · rw [execute_of_pureData computing]
      exact .fail nofun
    · have conduct : Conduct part.Asks (Genuine link) part.GoesOn (part.kind.execute part.node) :=
        conduct_execute known computing bound fun _ _ => nofun
      refine conduct.mono (fun _ asked => asked) (fun _ _ granted => granted) ?_
      intro result ended
      cases result with
      | ok => trivial
      | error => exact ended
  -- Loops and actions are not strict.
  have writes : part.kind ∈ loops ∨ part.kind ∈ actions →
      setting.circuit.isOf strict node = false := by
    intro writes
    have isOf : setting.circuit.isOf (loops ++ actions) node = true :=
      isOf_of_mem found (List.mem_append.mpr writes)
    exact isOf_eq_false (by decide) isOf
  refine execute_of_executor stays.tidy ?_ (fun pin after past stays => ?_)
    fun stays => ⟨nofun, stays⟩
  · refine (WP.perform_of_meets (fun after _ => Stays setting.circuit link [] after) ?_ conduct
      stays).mono ?_
    · intro c after past asked stays
      have fitting : Fitting setting.circuit after.resolving c := by
        rw [stays.same]
        cases c with
        | input => simp [Fitting]
        | store =>
          rw [Fitting, asked.1, own]
          exact writes asked.2
        | traverse => rfl
        | resolve | output | run => exact asked.elim
        | _ => trivial
      refine (discerning c after past stays.tidy fitting).mono ?_
      rintro answer last past ⟨⟨granted, -⟩, kept⟩
      exact ⟨granted, kept.tidy, kept.same.trans stays.same⟩
    · rintro result after past ⟨ended, stays⟩
      refine ⟨stays.tidy, ?_⟩
      cases result with
      | ok => exact stays
      | error => exact ⟨ended, stays⟩
  · refine (discerning (.traverse node pin) after past stays.tidy stays.same).mono ?_
    rintro answer last past ⟨⟨granted, -⟩, kept⟩
    have kept : Stays setting.circuit link [] last := ⟨kept.tidy, kept.same.trans stays.same⟩
    cases answer with
    | ok => exact kept
    | error fault => exact ⟨granted fault rfl, kept⟩

theorem follows_tidy : Follows (Reports setting.circuit link) setting inner
    (fun after _ => Stays setting.circuit link [] after)
    (fun after _ => Stays setting.circuit link [] after)
    fun fault after _ => Genuine link fault ∧ Stays setting.circuit link [] after where
  looks stays := ⟨trivial, ⟨nofun, stays⟩, stays⟩
  ready stays := ⟨trivial, ⟨nofun, stays⟩, stays⟩
  checkpoint _ _ _ stays := by
    refine checkpoint_upheld
      (fun pausing stays => ⟨reports_of_silent pausing.silent, fun _ => stays⟩)
      (fun _ _ _ stays => ⟨stays.tidy.congr rfl fun _ missing => missing, stays.same⟩)
      (fun path value after _ stays => ?_) (fun _ _ _ stays => ⟨nofun, stays⟩) stays
    have written := stays.tidy.invalidate (after.context.assign path value) setting.volatile
    exact WP.change_iff.mpr ⟨written, written, stays.same⟩
  execute found := execute_tidy wired discerning (part_eq_ok_iff.mp found)
  traversing _ _ _ stays := ⟨stays.tidy, stays⟩
  followed _ stays := ⟨stays.tidy, stays⟩
  traversed _ result _ _ upheld := by
    cases result with
    | ok => exact ⟨Stays.tidy upheld, upheld⟩
    | error => exact ⟨upheld.2.tidy, upheld⟩
  raises _ acyclic stays := ⟨fun node path same => absurd same (acyclic node path), stays⟩

end control

include links wired single

theorem answer_discerning (discerning : Discerning setting.circuit link inner) :
    Discerning setting.circuit link (answer setting inner) := by
  intro c walker past tidy fitting
  have stays : Stays setting.circuit link walker.resolving walker := ⟨tidy, rfl⟩
  have returned : walker.resolving = [] → ∀ (result : Except Fault Signal) after past,
      Tidied setting.circuit link result after past →
      ((∀ fault, result = .error fault → Genuine link fault) ∧ True) ∧
        Stays setting.circuit link walker.resolving after := by
    intro rest result after past upheld
    rw [rest]
    cases result with
    | ok => exact ⟨⟨nofun, trivial⟩, upheld⟩
    | error =>
      refine ⟨⟨?_, trivial⟩, upheld.2⟩
      rintro _ ⟨⟩
      exact upheld.1
  cases c with
  | input =>
    refine (input_tidy links wired single discerning tidy fitting).mono ?_
    rintro result after past ⟨ended, stays⟩
    refine ⟨⟨?_, ?_⟩, stays⟩
    · rintro fault rfl
      exact ended
    · rintro source value wire rfl
      exact ended source wire
  | run node =>
    exact ((follows_tidy wired discerning).run node ⟨tidy, fitting⟩).mono (returned fitting)
  | traverse node pin =>
    exact ((follows_tidy wired discerning).traverse node pin ⟨tidy, fitting⟩).mono
      (returned fitting)
  | resolve => exact fitting.elim
  | output => exact fitting.elim
  | isCancelled | act | ticket =>
    exact WP.ask_iff.mpr ⟨trivial, fun _ => ⟨⟨trivial, trivial⟩, stays⟩⟩
  | assign path value =>
    have written := tidy.invalidate (walker.context.assign path value) setting.volatile
    exact WP.change_iff.mpr ⟨written, ⟨trivial, trivial⟩, written, rfl⟩
  | note => exact WP.announce_iff.mpr ⟨tidy, ⟨trivial, trivial⟩, stays⟩
  | store node values =>
    have sound : ¬ setting.circuit.Vicious node := by
      intro vicious
      rw [Fitting, vicious.feeder.1] at fitting
      cases fitting
    have written := tidy.storeMany values sound
    exact WP.change_iff.mpr ⟨written, ⟨trivial, trivial⟩, written, rfl⟩
  | reenter loop pin =>
    let scope := setting.circuit.loopScope loop pin
    have dropped := (tidy.invalidate walker.context scope.executed).invalidate walker.context
      scope.derived
    exact WP.change_iff.mpr ⟨dropped, ⟨trivial, trivial⟩, dropped, rfl⟩
  | refresh loop pin =>
    have dropped := tidy.invalidate walker.context (setting.circuit.loopScope loop pin).derived
    exact WP.change_iff.mpr ⟨dropped, ⟨trivial, trivial⟩, dropped, rfl⟩
  | persist =>
    exact ⟨⟨trivial, trivial⟩, tidy.congr rfl fun _ missing => missing, rfl⟩
  | log => exact ⟨⟨trivial, trivial⟩, tidy.congr rfl fun _ missing => missing, rfl⟩
  | context | memo | about | inSession => exact ⟨⟨trivial, trivial⟩, stays⟩

theorem serve_discerning (depth : Nat) :
    Discerning setting.circuit link (serve setting depth) := by
  induction depth with
  | zero => exact fun _ _ _ _ _ => WP.exhausted_iff.mpr trivial
  | succ depth ih => exact answer_discerning links wired single ih

/-- What a read returns that is made from a tidy state. -/
theorem read_of_leads (isOutput : setting.circuit.DataOutput source)
    (tidy : Tidy setting.circuit link walker)
    (linked : ∀ reader ∈ walker.resolving.head?, link source.node reader) {bound : Nat}
    {asked : Past} {after : Walker}
    (ended : ((ExceptT.run (output setting (serve setting bound) source)).run walker).Leads asked
      (.done (result, after))) : Read setting.circuit link source result := by
  have read : WP (Reports setting.circuit link)
      (ExceptT.run (output setting (serve setting bound) source))
      (fun result after _ => Read setting.circuit link source result ∧
        Stays setting.circuit link walker.resolving after) walker [] :=
    output_tidy wired single (serve_discerning links wired single bound) isOutput tidy linked
  exact (Dialogue.WP.rest read ended).1

omit links in
/-- A walk over a loaded circuit is tidy throughout, and tells of genuine cycles only. -/
theorem start_reports (depth : Nat) (entry : String) (context : Context) :
    Dialogue.WP (Reports setting.circuit setting.circuit.Feeds)
      (fun result _ => EndsWell (Genuine setting.circuit.Feeds) (fun _ => True) result.1)
      (start setting depth entry context) [] := by
  have discerning := serve_discerning (fun _ _ feeds => feeds) wired single depth
  rw [start, Dialogue.WP_bind]
  refine Dialogue.WP.mono (discerning (.run entry) { context } [] (.init context) rfl)
    (fun _ _ reports => reports) ?_
  rintro ⟨result, walker⟩ past ⟨⟨granted, -⟩, -⟩
  rcases result with fault | signal
  · exact granted fault rfl
  · cases signal with
    | done => trivial
    | broken =>
      intro _ _ same
      cases same

end operations

def CyclesGenuine {α : Type} (circuit : Circuit) (result : Except Fault α) : Prop :=
  ∀ node path, result = .error (.cycle node path) →
    Circular circuit.Feeds node path ∧ ¬ circuit.Acyclic

theorem cyclesGenuine_of_ends {α : Type} {good : α → Prop} {result : Except Fault α}
    (ends : EndsWell (Genuine circuit.Feeds) good result) : CyclesGenuine circuit result := by
  rintro node path rfl
  have circular := ends node path rfl
  exact ⟨circular, not_acyclic_of_circular circular⟩

theorem exists_fault_of_vicious (read : Read circuit link source result)
    (vicious : circuit.Vicious source.node) : ∃ fault, result = .error fault := by
  cases result with
  | error fault => exact ⟨fault, rfl⟩
  | ok => exact absurd vicious read

/-- In a walk over a loaded circuit, reading a data output comes to its end from every state
that the walk gets into. A cycle that it reports is genuine, if it is the turn of that output:
no node is being resolved, or the innermost one reads it. There is no value if the output
stands on a circle of nodes that need all of their inputs. The reads of the walk itself are
made in turn, and a cycle that it ends with is genuine as well. -/
theorem data_resolution_sound {graph : Graph} {circuit : Circuit}
    (loaded : load Registry.builtin graph = .ok circuit)
    {invocation capability entry : String} {maxIterations maxSnapshot depth : Nat}
    {context : Context} {past : Past} {rest : Walk (Except Fault Unit × Walker)}
    (course : (start (.of circuit invocation capability maxIterations maxSnapshot) depth entry
      context).Leads past rest) :
    let setting := Setting.of circuit invocation capability maxIterations maxSnapshot
    (∀ happening walker source bound, told happening walker ∈ past →
      circuit.DataOutput source → circuit.parts.length ≤ bound →
      let reading := (ExceptT.run (output setting (serve setting bound) source)).run walker
      Returns reading ∧ ∀ asked result after, reading.Leads asked (.done (result, after)) →
        ((∀ reader ∈ walker.resolving.head?, circuit.Feeds source.node reader) →
          CyclesGenuine circuit result) ∧
        (circuit.Vicious source.node → ∃ fault, result = .error fault)) ∧
    (∀ source result walker, told (.read source result) walker ∈ past →
      CyclesGenuine circuit result ∧
      (circuit.Vicious source.node → ∃ fault, result = .error fault)) ∧
    ∀ result walker, rest = .done (result, walker) → CyclesGenuine circuit result := by
  intro setting
  have wired : Wired Registry.builtin setting.circuit := wired_of_load loaded
  have single : (setting.circuit.dataEdges.map Edge.target).Nodup :=
    nodup_targets_of_load loaded
  have reports := start_reports wired single depth entry context
  have obeys := reports.obeys course
  refine ⟨?_, ?_, ?_⟩
  · intro happening walker source bound reached isOutput enough reading
    obtain ⟨later, earlier, split⟩ := List.append_of_mem reached
    have tidy := (obeys later _ () earlier split).tidy
    refine ⟨output_returns wired isOutput enough walker, ?_⟩
    intro asked result after ended
    constructor
    · intro turn
      have read := read_of_leads (fun _ _ feeds => feeds) wired single isOutput tidy turn ended
      exact cyclesGenuine_of_ends read
    · -- Out of turn nothing is known of the stack, but the memo is as good as ever.
      have loose : Tidy setting.circuit (fun _ _ => True) walker :=
        ⟨tidy.distinct, tidy.chain.imp fun _ _ _ => trivial, tidy.memo⟩
      have read := read_of_leads (fun _ _ _ => trivial) wired single isOutput loose
        (fun _ _ => trivial) ended
      exact exists_fault_of_vicious read
  · intro source result walker reached
    obtain ⟨later, earlier, split⟩ := List.append_of_mem reached
    obtain ⟨-, reads⟩ := obeys later (.announce ⟨.read source result, walker⟩) () earlier split
    exact ⟨cyclesGenuine_of_ends reads, exists_fault_of_vicious reads⟩
  · rintro result walker rfl
    exact cyclesGenuine_of_ends (reports.rest course)

/-- Two arrays, each of which is to hold the other. -/
def closedCircle : Graph where
  id := "g"
  nodes := [
    { id := "start", kind := "on_event" }, { id := "say", kind := "log" },
    { id := "a", kind := "make_array", config := [("arity", .int 1)] },
    { id := "b", kind := "make_array", config := [("arity", .int 1)] }]
  edges := [
    ⟨⟨"start", "then"⟩, ⟨"say", "exec"⟩⟩, ⟨⟨"a", "array"⟩, ⟨"say", "message"⟩⟩,
    ⟨⟨"b", "array"⟩, ⟨"a", "item_0"⟩⟩, ⟨⟨"a", "array"⟩, ⟨"b", "item_0"⟩⟩]

theorem closedCircle_reads :
    ∃ after walker before, (tour closedCircle [] 16).1 = after ++
      told (.read ⟨"a", "array"⟩ (.error (.cycle "a" "a -> b -> a"))) walker :: before := by
  have last : (happenings (tour closedCircle [] 16).1).head? =
      some (.read ⟨"a", "array"⟩ (.error (.cycle "a" "a -> b -> a"))) := by cbv
  exact exists_told_of_head? last

theorem data_resolution_sound_closedCircle :
    ∃ walker, told (.read ⟨"a", "array"⟩ (.error (.cycle "a" "a -> b -> a"))) walker ∈
        (tour closedCircle [] 16).1 ∧
      Circular (ofGraph closedCircle).Feeds "a" "a -> b -> a" ∧
      let setting := Setting.of (.ofGraph closedCircle) "" "" 10 10
      Returns ((ExceptT.run (output setting (serve setting 4) ⟨"b", "array"⟩)).run walker) := by
  have loaded : load Registry.builtin closedCircle = .ok (.ofGraph closedCircle) := rfl
  have sound := data_resolution_sound loaded (leads_tour closedCircle [] 16)
  obtain ⟨after, walker, before, split⟩ := closedCircle_reads
  have reached : told (.read ⟨"a", "array"⟩ (.error (.cycle "a" "a -> b -> a"))) walker ∈
      (tour closedCircle [] 16).1 := by
    rw [split]
    exact List.mem_append_right _ List.mem_cons_self
  refine ⟨walker, reached, ((sound.2.1 _ _ walker reached).1 _ _ rfl).1, ?_⟩
  exact (sound.1 _ walker ⟨"b", "array"⟩ 4 reached ⟨_, _, rfl, rfl, rfl⟩ (by decide)).1

/-- Two arrays, of which the second holds the first. -/
def openChain : Graph where
  id := "g"
  nodes := [
    { id := "start", kind := "on_event" }, { id := "say", kind := "log" },
    { id := "a", kind := "make_array", config := [("arity", .int 1), ("item_0", .int 1)] },
    { id := "b", kind := "make_array", config := [("arity", .int 1)] }]
  edges := [
    ⟨⟨"start", "then"⟩, ⟨"say", "exec"⟩⟩, ⟨⟨"a", "array"⟩, ⟨"say", "message"⟩⟩,
    ⟨⟨"a", "array"⟩, ⟨"b", "item_0"⟩⟩]

theorem openChain_acyclic : (ofGraph openChain).Acyclic := by
  have edges : (ofGraph openChain).dataEdges =
      [⟨⟨"a", "array"⟩, ⟨"say", "message"⟩⟩, ⟨⟨"a", "array"⟩, ⟨"b", "item_0"⟩⟩] := rfl
  have feeds : ∀ feeder reader, (ofGraph openChain).Feeds feeder reader →
      feeder = "a" ∧ reader ≠ "a" := by
    rintro feeder reader ⟨edge, member, rfl, rfl⟩
    rw [edges] at member
    simp only [List.mem_cons, List.not_mem_nil, or_false] at member
    rcases member with rfl | rfl <;> decide
  intro node circle
  obtain ⟨_, first, -⟩ := Relation.TransGen.head'_iff.mp circle
  obtain ⟨_, -, last⟩ := Relation.TransGen.tail'_iff.mp circle
  exact (feeds _ _ last).2 (feeds _ _ first).1

/-- The walk while the first array is being evaluated. -/
def amidst : Walker :=
  match (tour openChain [] 14).1 with
  | ⟨.announce moment, _⟩ :: _ => moment.walker
  | _ => { context := {} }

/-- Out of turn a read may report a cycle where there is none: while the first array is being
evaluated, the second one would have to wait for it. -/
theorem cycle_reported_out_of_turn :
    let setting := Setting.of (.ofGraph openChain) "" "" 10 10
    let reading := (ExceptT.run (output setting (serve setting 4) ⟨"b", "array"⟩)).run amidst
    load Registry.builtin openChain = .ok (.ofGraph openChain) ∧
    told (.supplied "a" "item_0" (.int 1)) amidst ∈ (tour openChain [] 14).1 ∧
    (ofGraph openChain).DataOutput ⟨"b", "array"⟩ ∧ (ofGraph openChain).Acyclic ∧
    ∃ asked after, reading.Leads asked (.done (.error (.cycle "a" "a -> b -> a"), after)) := by
  intro setting reading
  have latest : (tour openChain [] 14).1.head? =
      some (told (.supplied "a" "item_0" (.int 1)) amidst) := rfl
  have read : reading.Leads (Dialogue.follow (unhindered []) 20 [] reading).1
      (Dialogue.follow (unhindered []) 20 [] reading).2 := Dialogue.leads_follow .start
  exact ⟨rfl, List.mem_of_mem_head? latest, ⟨_, _, rfl, rfl, rfl⟩, openChain_acyclic, _, _, read⟩

end Walk

end Pinflow
