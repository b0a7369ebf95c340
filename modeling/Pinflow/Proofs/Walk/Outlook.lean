import Pinflow.Proofs.Circuit.Wired
import Pinflow.Proofs.Kinds.Routines
import Pinflow.Proofs.Walk.Upkeep

/-!
# Walks that hand faults on

Nodes of the built-in kinds never recover. So a walk over them is in one of two phases: all
is well, or a fault is on its way, and from then on whatever ends tells of that fault. An
`Outlook` is a property for each phase. What it has to say is what a single step of a walk
keeps; `Outlook.start` is what follows for the whole walk and its result.
-/

namespace Pinflow

variable {result : Except Fault α} {α : Type} {walker : Walker} {part : Part}

def faultOf? {α : Type} : Except Fault α → Option Fault
  | .ok _ => none
  | .error fault => some fault

def Happening.fault? : Happening → Option Fault
  | .evaluated _ result => faultOf? result
  | .executed _ result => faultOf? result
  | .read _ result => faultOf? result
  | .traversed _ result => faultOf? result
  | _ => none

namespace Walk

/-- A property for each phase, as the result has it. -/
abbrev Fared {α : Type} (going : Past → Prop) (failed : Fault → Past → Prop) :
    Except Fault α → Walker → Past → Prop := Upheld (fun _ => going) fun fault _ => failed fault

/-- What every step of a walk keeps: `going` while all is well, and `failed` once a fault is
on its way. After a checkpoint a walk is `ready` to look at its token. -/
structure Outlook (rule : Query → Past → Prop) (setting : Setting) (going ready : Past → Prop)
    (failed : Fault → Past → Prop) : Prop where
  prepared : ∀ {past}, going past → ready past
  asks : ∀ {past}, going past → ∀ q, rule q past
  acts : ∀ {past} action payload answer, going past →
    going (⟨.act action payload, answer⟩ :: past)
  tells : ∀ {past} happening {walker}, going past → happening.fault? = none →
    going (told happening walker :: past)
  raises : ∀ {past fault}, going past → (∀ session, fault ≠ .stopped session) →
    failed fault past
  handsOn : ∀ {past fault happening walker}, failed fault past → happening.fault? = some fault →
    rule (.announce ⟨happening, walker⟩) past ∧ failed fault (told happening walker :: past)
  checks : ∀ {walker past}, ready past →
    Looks rule setting (fun _ => going) (fun fault _ => failed fault) walker past
  stops : ∀ node {walker past}, going past →
    WP rule (ExceptT.run (checkpoint setting node)) (Fared ready failed) walker past

/-- What is known when a call has been answered. Nothing is said about calls that no straight
script makes. -/
def Replied (going : Past → Prop) (failed : Fault → Past → Prop) :
    (c : Call) → c.Answer → Walker → Past → Prop
  | .input _ _ | .resolve _ _ _ | .output _ => Fared going failed
  | .traverse _ _ | .run _ => Fared going failed
  | .isCancelled | .memo | .inSession | .ticket => fun _ _ _ => True
  | _ => fun _ _ => going

def HandsOn (rule : Query → Past → Prop) (going : Past → Prop) (failed : Fault → Past → Prop)
    (inner : Server) : Prop :=
  ∀ c walker past, going past →
    WP rule (inner c) (Replied going failed c) walker past

namespace Outlook

variable {rule : Query → Past → Prop} {setting : Setting} {going ready : Past → Prop}
  {failed : Fault → Past → Prop} {walker : Walker} {past : Past}
  (outlook : Outlook rule setting going ready failed)
include outlook

theorem raises_own {fault : Fault} (own : fault.Own) (goes : going past) : failed fault past := by
  apply outlook.raises goes
  rintro session rfl
  exact own

/-- A result that arises while all is well. -/
theorem ends (goes : going past) (known : Unstopped result) :
    Fared going failed result walker past := by
  cases result with
  | ok => exact goes
  | error => exact outlook.raises goes fun session same => known session (same ▸ rfl)

/-- What tells of a result. -/
theorem announces {other : Walker} (fared : Fared going failed result other past)
    (happening : Happening) (same : happening.fault? = faultOf? result) :
    rule (.announce ⟨happening, walker⟩) past ∧
      Fared going failed result walker (told happening walker :: past) := by
  cases result with
  | ok => exact ⟨outlook.asks fared _, outlook.tells happening fared same⟩
  | error => exact outlook.handsOn fared same

section inner

variable {inner : Server} (handsOn : HandsOn rule going failed inner)
include handsOn

/-- Straight scripts hand on the faults that they meet. -/
theorem perform {acts : Bool} {script : Script (Except Fault α)} (straight : Straight acts script)
    (goes : going past) :
    WP rule (Walk.perform inner script) (Fared going failed) walker past := by
  induction straight generalizing walker past with
  | done known => exact outlook.ends goes known
  | pulls faults _ ih | follows faults _ ih =>
    rw [WP.perform_ask_iff]
    refine (handsOn _ walker past goes).mono fun result walker past fared => ?_
    cases result with
    | error fault =>
      rw [faults fault]
      exact fared
    | ok result => exact ih result fared
  | @lets action payload next _ ih =>
    rw [WP.perform_ask_iff]
    exact (handsOn (.act action payload) walker past goes).mono fun answer _ _ => ih answer
  | @plain acts c next isPlain _ ih =>
    rw [WP.perform_ask_iff]
    refine (handsOn c walker past goes).mono fun answer walker past replied => ih answer ?_
    cases c <;> first | exact isPlain.elim | exact replied

variable (wired : Circuit.Wired Registry.builtin setting.circuit)
include wired

theorem compute {source : PinRef} (found : setting.circuit.part source.node = .ok part)
    (goes : going past) :
    WP rule (ExceptT.run (Walk.compute inner source part)) (Fared going failed) walker past := by
  refine WP.compute_iff.mpr ⟨outlook.asks goes _, ?_⟩
  have known := wired.kind_mem (Circuit.part_eq_ok_iff.mp found)
  have straight := Kinds.straight_evaluate part.node known source.pin
  apply (outlook.perform handsOn straight (outlook.tells _ goes rfl)).mono
  intro result walker past fared
  obtain ⟨obeys, after⟩ := outlook.announces fared (.evaluated source result) rfl
  refine ⟨obeys, ?_⟩
  cases result with
  | error => exact after
  | ok => exact after

theorem pulls : Pulls rule setting inner (fun _ => going) fun fault _ => failed fault where
  counted _ _ _ goes := goes
  looks goes := outlook.checks (outlook.prepared goes)
  compute found _ _ := outlook.compute handsOn wired found
  read source result _ _ fared := outlook.announces fared (.read source result) rfl
  supplied _ _ _ _ _ goes := ⟨outlook.asks goes _, outlook.tells _ goes rfl⟩
  raises := outlook.raises_own

theorem execute {node : String} (found : setting.circuit.part node = .ok part) (goes : going past) :
    WP rule (ExceptT.run (Walk.execute inner node part)) (Fared going failed) walker past := by
  have known := wired.kind_mem (Circuit.part_eq_ok_iff.mp found)
  refine execute_of_executor (outlook.asks goes _) ?_ (fun pin => handsOn (.traverse node pin))
    (outlook.raises_own trivial)
  apply (outlook.perform handsOn (Kinds.straight_execute part.node known)
    (outlook.tells _ goes rfl)).mono
  intro result walker past fared
  exact outlook.announces fared (.executed node result) rfl

theorem follows : Follows rule setting inner (fun _ => going) (fun _ => ready)
    fun fault _ => failed fault where
  looks := (outlook.pulls handsOn wired).looks
  ready := outlook.checks
  checkpoint node _ _ := outlook.stops node
  execute := outlook.execute handsOn wired
  traversing _ _ _ goes := ⟨outlook.asks goes _, outlook.tells _ goes rfl⟩
  followed _ goes := ⟨outlook.asks goes _, outlook.tells _ goes rfl⟩
  traversed ref result _ _ fared := outlook.announces fared (.traversed ref result) rfl
  raises own _ := outlook.raises_own own

theorem answer : HandsOn rule going failed (Walk.answer setting inner) := by
  intro c walker past goes
  have written : ∀ {happening : Happening} {walker : Walker}, happening.fault? = none →
      rule (.announce ⟨happening, walker⟩) past ∧ going (told happening walker :: past) :=
    fun plain => ⟨outlook.asks goes _, outlook.tells _ goes plain⟩
  have supplies := (outlook.pulls handsOn wired).supplies
  have follows := outlook.follows handsOn wired
  cases c with
  | input node pin => exact supplies.input node pin goes
  | resolve node pin default => exact supplies.resolve node pin default goes
  | output source => exact supplies.output source goes
  | traverse node pin => exact follows.traverse node pin goes
  | run node => exact follows.run node goes
  | isCancelled | ticket => exact WP.ask_iff.mpr ⟨outlook.asks goes _, fun _ => trivial⟩
  | act =>
    exact WP.ask_iff.mpr ⟨outlook.asks goes _, fun answer => outlook.acts _ _ _ goes⟩
  | note => exact WP.announce_iff.mpr (written rfl)
  | assign | store | reenter | refresh => exact WP.change_iff.mpr (written rfl)
  | memo | inSession => exact trivial
  | context | about | persist | log => exact goes

end inner

variable (wired : Circuit.Wired Registry.builtin setting.circuit)
include wired

theorem serve (depth : Nat) : HandsOn rule going failed (Walk.serve setting depth) := by
  induction depth with
  | zero => exact fun c walker past goes => WP.exhausted_iff.mpr (outlook.asks goes _)
  | succ depth ih => exact outlook.answer ih wired

/-- How a walk over nodes of the built-in kinds fares. -/
theorem start (depth : Nat) (entry : String) (context : Context) (goes : going []) :
    Dialogue.WP rule (fun result past => Fared going failed result.1 result.2 past)
      (Walk.start setting depth entry context) [] := by
  have served : WP rule (Walk.serve setting depth (.run entry)) (Fared (α := Signal) going failed)
      { context } [] := outlook.serve wired depth _ _ _ goes
  rw [Walk.start, Dialogue.WP_bind]
  refine Dialogue.WP.mono served (fun _ _ obeys => obeys) ?_
  rintro ⟨result, walker⟩ past fared
  cases result with
  | error => exact fared
  | ok signal =>
    cases signal with
    | done => exact fared
    | broken => exact outlook.raises fared (by simp)

end Outlook

end Walk

end Pinflow
