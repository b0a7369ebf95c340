import Pinflow.Proofs.Walk.Upkeep

/-!
# What a walk keeps whatever its nodes are

A property of the state of a walk and its past that single steps keep is kept by every call,
whichever scripts the nodes of the circuit run. `Stepwise` lists the steps. A checkpoint may
suspend the property until the walk has looked at its token again.
-/

namespace Pinflow.Walk

/-- A property that every single step of a walk keeps. -/
structure Stepwise (rule : Query → Past → Prop) (setting : Setting)
    (Inv : Walker → Past → Prop) : Prop where
  asks : ∀ {q walker past}, Simple q → Inv walker past →
    rule q past ∧ ∀ answer, Inv walker (⟨q, answer⟩ :: past)
  tells : ∀ happening {walker past}, Inv walker past →
    rule (.announce ⟨happening, walker⟩) past ∧ Inv walker (told happening walker :: past)
  assign : ∀ path value {walker past}, Inv walker past →
    WP rule (assign setting path value) (fun _ => Inv) walker past
  /-- What is remembered, what is being resolved, the log and the intents do not matter. -/
  same : ∀ {walker other past}, Inv walker past → other.context.vars = walker.context.vars →
    other.session = walker.session → Inv other past
  checkpoint : ∀ node {walker past}, Inv walker past →
    WP rule (ExceptT.run (checkpoint setting node))
      (Upheld (Looks rule setting Inv fun _ => Inv) fun _ => Inv) walker past

namespace Stepwise

variable {rule : Query → Past → Prop} {setting : Setting} {Inv : Walker → Past → Prop}
  {inner : Server} {walker : Walker} {past : Past}

variable (stepwise : Stepwise rule setting Inv)
include stepwise

section inner

variable (kept : Kept rule Inv inner)
include kept

theorem compute_keeps (source : PinRef) (part : Part) (holds : Inv walker past) :
    WP rule (ExceptT.run (compute inner source part)) (fun _ => Inv) walker past := by
  rw [WP.compute_iff]
  obtain ⟨obeys, holds⟩ := stepwise.tells (.evaluating source part.node.config) holds
  refine ⟨obeys, ?_⟩
  have entered : Inv { walker with resolving := source.node :: walker.resolving }
      (told (.evaluating source part.node.config) walker :: past) := stepwise.same holds rfl rfl
  apply WP.mono (WP.perform_of_invariant kept _ entered)
  intro result walker past holds
  have left : Inv { walker with resolving := walker.resolving.tail } past :=
    stepwise.same holds rfl rfl
  obtain ⟨obeys, left⟩ := stepwise.tells (.evaluated source result) left
  refine ⟨obeys, ?_⟩
  cases result with
  | error => exact left
  | ok => exact stepwise.same left rfl rfl

theorem pulls : Pulls rule setting inner Inv fun _ => Inv where
  counted _ _ _ holds := stepwise.same holds rfl rfl
  looks holds := .of_asks (stepwise.asks (q := .isCancelled) trivial holds)
  compute _ _ _ holds := upheld_const ▸ stepwise.compute_keeps kept _ _ holds
  read source result _ _ holds := by
    rw [upheld_const] at *
    exact stepwise.tells (.read source result) holds
  supplied node pin value _ _ := stepwise.tells (.supplied node pin value)
  raises _ holds := holds

theorem follows :
    Follows rule setting inner Inv (Looks rule setting Inv fun _ => Inv) fun _ => Inv where
  looks holds := .of_asks (stepwise.asks (q := .isCancelled) trivial holds)
  ready looks := looks
  checkpoint node _ _ := stepwise.checkpoint node
  execute _ holds := by
    obtain ⟨starts, holds⟩ := stepwise.tells (.executing _) holds
    exact execute_of_kept kept starts holds fun result _ _ => stepwise.tells (.executed _ result)
  traversing ref _ _ := stepwise.tells (.traversing ref)
  followed _ := stepwise.tells (.followed _ _)
  traversed ref result _ _ := by
    rw [upheld_const]
    exact stepwise.tells (.traversed ref result)
  raises _ _ holds := holds

theorem keeps : KeepsCalls rule setting inner Inv (Looks rule setting Inv fun _ => Inv) where
  asks := stepwise.asks
  supplies := (stepwise.pulls kept).supplies
  follows := stepwise.follows kept
  changes changes holds := by
    cases changes with
    | assigned path value => exact WP.change_iff.mp (stepwise.assign path value holds)
    | _ => exact stepwise.tells _ (stepwise.same holds rfl rfl)
  note node message _ _ := stepwise.tells (.noted node message)
  records same holds := stepwise.same holds same rfl

end inner

/-- Every call keeps what the steps keep. -/
theorem serve_keeps (depth : Nat) : Kept rule Inv (serve setting depth) := by
  induction depth with
  | zero =>
    intro c walker past holds
    exact WP.exhausted_iff.mpr (stepwise.asks (q := .exhausted) trivial holds).1
  | succ depth ih => exact (stepwise.keeps ih).answer

/-- A walk keeps what its steps keep, from its first question to its end. -/
theorem start_keeps (depth : Nat) (entry : String) (context : Context)
    (holds : Inv { context } []) :
    Dialogue.WP rule (fun result past => Inv result.2 past) (start setting depth entry context)
      [] :=
  start_of_served Inv (stepwise.serve_keeps depth (.run entry) { context } [] holds)

end Stepwise

end Pinflow.Walk
