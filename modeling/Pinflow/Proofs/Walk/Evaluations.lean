import Pinflow.Proofs.Walk.Nesting
import Pinflow.Proofs.Walk.Recall

/-!
# Evaluations that still stand

An evaluator is started for an output that is neither remembered nor being computed. So if
one was started before, then what it computed has been forgotten since, or it failed.
`Persists` says of an output that neither has happened since its evaluator was started last;
no evaluator is started for such an output, whatever the kinds of the nodes do.

Every call returns with the same steps open and the same nodes being resolved as it was made
with, and no node is being resolved twice.
-/

namespace Pinflow.Walk

variable {rest : Walk (Except Fault Unit × Walker)} {setting : Setting} {happening : Happening}
  {context : Context} {other : Walker} {entry : String} {ref : PinRef} {past : Past} {depth : Nat}
  {config : Fields} {between earlier : List Happening}

/-- The happening takes the outputs of a node out of the memo. -/
def Forgets (setting : Setting) (node : String) : Happening → Prop
  | .assigned _ _ => node ∈ setting.volatile
  | .reentered loop pin => (setting.circuit.loopScope loop pin).contains node = true
  | .refreshed loop pin => node ∈ (setting.circuit.loopScope loop pin).derived
  | _ => False

/-- An evaluator of the output is at work, or has returned a value that was not forgotten. -/
def Persists (setting : Setting) (ref : PinRef) : List Happening → Prop
  | [] => False
  | .evaluating source _ :: earlier => source = ref ∨ Persists setting ref earlier
  | .evaluated source (.error _) :: earlier => source ≠ ref ∧ Persists setting ref earlier
  | happening :: earlier => ¬ Forgets setting ref.node happening ∧ Persists setting ref earlier

/-- An evaluation persists until it is forgotten or fails. -/
theorem persists_append (remembered : ∀ happening ∈ between, ¬ Forgets setting ref.node happening)
    (succeeds : ∀ fault, .evaluated ref (.error fault) ∉ between) :
    Persists setting ref (between ++ .evaluating ref config :: earlier) := by
  induction between with
  | nil => exact .inl rfl
  | cons happening between ih =>
    have persists := ih (fun other member => remembered other (List.mem_cons_of_mem _ member))
      fun fault member => succeeds fault (List.mem_cons_of_mem _ member)
    have kept := remembered happening List.mem_cons_self
    cases happening with
    | evaluating => exact .inr persists
    | evaluated source result =>
      cases result with
      | ok => exact ⟨kept, persists⟩
      | error fault =>
        refine ⟨?_, persists⟩
        rintro rfl
        exact succeeds fault List.mem_cons_self
    | _ => exact ⟨kept, persists⟩

/-- The outputs whose evaluators are at work, innermost first. -/
def computing (steps : List (Heading × Nat)) : List PinRef :=
  steps.filterMap fun
    | (⟨node, .evaluation, some pin⟩, _) => some ⟨node, pin⟩
    | _ => none

/-- The nodes that are being resolved, those of outer calls last. -/
def engaged (path : List String) (steps : List (Heading × Nat)) : List String :=
  (computing steps).map PinRef.node ++ path

/-- A script puts the output into the memo by itself. -/
def Stores (ref : PinRef) : Happening → Prop
  | .stored node values => ref.node = node ∧ ∃ value, (ref.pin, value) ∈ values
  | _ => False

/-- Steps lie inside each other, the nodes being resolved are those whose evaluators are at
work, each once, and an evaluator is started only where it is needed. -/
def Regular (setting : Setting) (path : List String) : Query → Past → Prop
  | .announce ⟨happening, walker⟩, past =>
    Suits setting.circuit (story past) happening ∧ walker.resolving.Nodup ∧
      match happening with
      | .evaluating source _ =>
        walker.resolving = engaged path (story past).opened ∧ source.node ∉ walker.resolving ∧
          ¬ Persists setting source (happenings past)
      | .evaluated source _ =>
        source.node :: walker.resolving = engaged path (story past).opened
      | _ => walker.resolving = engaged path (story past).opened
  | _, _ => True

theorem nested_of_obeys {path : List String} (obeys : History.Obeys (Regular setting path) past) :
    Nested setting.circuit (story past) :=
  nested_of_suits (fun _ _ regular => regular.1) obeys

/-- The output is remembered only if a script has put it there. -/
def Vacant (ref : PinRef) (walker : Walker) (past : Past) : Prop :=
  walker.memo.get? ref = none ∨ ∃ happening ∈ happenings past, Stores ref happening

theorem Vacant.told {walker : Walker} (vacant : Vacant ref walker past) :
    Vacant ref walker (told happening other :: past) :=
  vacant.imp_right fun ⟨earlier, member, stores⟩ => ⟨earlier, List.mem_cons_of_mem _ member, stores⟩

/-- What persists is remembered or being computed, but not both unless by a script. -/
structure Poised (setting : Setting) (path : List String) (steps : List (Heading × Nat))
    (walker : Walker) (past : Past) : Prop where
  opened : (story past).opened = steps
  resolving : walker.resolving = engaged path steps
  distinct : walker.resolving.Nodup
  vacant : ∀ ref ∈ computing steps, Vacant ref walker past
  persists : ∀ ref, Persists setting ref (happenings past) →
    walker.memo.get? ref ≠ none ∨ ref ∈ computing steps

/-- What is known when a read returns. -/
def Retrieved (setting : Setting) (path : List String) (steps : List (Heading × Nat))
    (source : PinRef) (result : Except Fault Value) (walker : Walker) (past : Past) : Prop :=
  Poised setting path steps walker past ∧
    ∀ fault, result = .error fault → Vacant source walker past

/-- Happenings that neither begin nor end a step. -/
def Aside : Happening → Prop
  | .evaluating _ _ | .evaluated _ _ | .executing _ | .executed _ _ | .followed _ _ => False
  | _ => True

namespace Poised

variable {path : List String} {steps later : List (Heading × Nat)} {walker : Walker}

section

variable (poised : Poised setting path steps walker past)
include poised

theorem level : walker.resolving = engaged path (story past).opened :=
  poised.opened ▸ poised.resolving

/-- Only what is remembered and what is being resolved matters. -/
theorem update (same : other.resolving = walker.resolving)
    (memo : ∀ ref, other.memo.get? ref = walker.memo.get? ref) :
    Poised setting path steps other past := by
  refine ⟨poised.opened, same.trans poised.resolving, same ▸ poised.distinct, ?_, ?_⟩
  · intro ref member
    rw [Vacant, memo]
    exact poised.vacant ref member
  · intro ref
    rw [memo]
    exact poised.persists ref

theorem asks (q : Query) (silent : happening? q = none) :
    Regular setting path q past ∧
      ∀ answer, Poised setting path steps walker (⟨q, answer⟩ :: past) := by
  refine ⟨?_, fun answer => ⟨?_, poised.resolving, poised.distinct, ?_, ?_⟩⟩
  · cases q with
    | announce => cases silent
    | _ => trivial
  · rw [story_cons_of_silent silent, poised.opened]
  · unfold Vacant
    rw [happenings_cons_of_silent answer past silent]
    exact poised.vacant
  · rw [happenings_cons_of_silent answer past silent]
    exact poised.persists

/-- Something is told of that changes the memo as it says, and no evaluator starts or ends. -/
theorem step {teller : Walker} (opened : (story (told happening teller :: past)).opened = later)
    (computes : computing later = computing steps) (same : other.resolving = walker.resolving)
    (gains : ∀ ref, walker.memo.get? ref = none →
      other.memo.get? ref = none ∨ Stores ref happening)
    (keeps : ∀ ref, Persists setting ref (happening :: happenings past) →
      Persists setting ref (happenings past) ∧
        (walker.memo.get? ref ≠ none → other.memo.get? ref ≠ none)) :
    Poised setting path later other (told happening teller :: past) := by
  refine ⟨opened, ?_, same ▸ poised.distinct, ?_, ?_⟩
  · rw [same, poised.resolving, engaged, engaged, computes]
  · rw [computes]
    intro ref member
    obtain missing | stored := poised.vacant ref member
    · exact (gains ref missing).imp_right fun stores => ⟨_, List.mem_cons_self, stores⟩
    · exact Vacant.told (.inr stored)
  · rw [computes]
    intro ref persisting
    obtain ⟨persisting, kept⟩ := keeps ref persisting
    exact (poised.persists ref persisting).imp_left kept

/-- An executor starts or ends, or control goes on. -/
theorem moves (opened : (story (told happening walker :: past)).opened = later)
    (computes : computing later = computing steps)
    (passing : ∀ ref, Persists setting ref (happening :: happenings past) →
      Persists setting ref (happenings past)) :
    Poised setting path later walker (told happening walker :: past) :=
  poised.step opened computes rfl (fun _ => .inl) fun ref persisting => ⟨passing ref persisting, id⟩

theorem tells (aside : Aside happening) (same : other.resolving = walker.resolving)
    (gains : ∀ ref, walker.memo.get? ref = none →
      other.memo.get? ref = none ∨ Stores ref happening)
    (keeps : ∀ ref, Persists setting ref (happening :: happenings past) →
      walker.memo.get? ref ≠ none → other.memo.get? ref ≠ none) :
    Regular setting path (.announce ⟨happening, other⟩) past ∧
      Poised setting path steps other (told happening other :: past) := by
  have level := same.trans poised.level
  have distinct : other.resolving.Nodup := same ▸ poised.distinct
  refine ⟨?_, poised.step ?_ rfl same gains fun ref persists => ⟨?_, keeps ref persists⟩⟩
  · cases happening <;> first | exact aside.elim | exact ⟨trivial, distinct, level⟩
  · rw [← poised.opened]
    cases happening <;> first | exact aside.elim | rfl
  · cases happening <;> first | exact aside.elim | exact persists.2

theorem passes (happening : Happening) (aside : Aside happening) :
    Regular setting path (.announce ⟨happening, walker⟩) past ∧
      Poised setting path steps walker (told happening walker :: past) :=
  poised.tells aside rfl (fun _ => .inl) fun _ _ => id

/-- What is forgotten does not persist, and the rest stays in the memo. -/
theorem changes {change : Walker → Walker} (changes : Changes setting happening change) :
    Regular setting path (.announce ⟨happening, change walker⟩) past ∧
      Poised setting path steps (change walker) (told happening (change walker) :: past) := by
  have aside : Aside happening := by cases changes <;> trivial
  have same : (change walker).resolving = walker.resolving := by cases changes <;> rfl
  refine poised.tells aside same (fun ref missing => ?_) fun ref persists => ?_
  · rw [changes.remembers]
    cases changes with
    | stored node values =>
      by_cases stores : Stores ref (.stored node values)
      · exact .inr stores
      · left
        exact (Recollection.storeMany_of_ne _ fun same value found =>
          stores ⟨same, value, found⟩).trans missing
    | _ => simp [remember, Recollection.forget, missing]
  · rw [changes.remembers]
    cases changes with
    | stored node values => exact Recollection.storeMany_ne_none
    | _ =>
      have kept := persists.1
      simp_all [remember, Recollection.forget, Forgets, LoopScope.contains]

/-- A step begins. -/
theorem enters {given : Value} {heading : Heading}
    (opens : (⟨happening, walker⟩ : Moment).report = .opening heading given) :
    (story (told happening walker :: past)).opened = (heading, (story past).begun) :: steps := by
  rw [story_told, Story.opened, opens]
  exact congrArg (_ :: ·) poised.opened

end

section

variable {heading : Heading} {number : Nat}
  (poised : Poised setting path ((heading, number) :: steps) walker past)
include poised

theorem innermost : Innermost heading (story past) := by
  rw [Innermost, poised.opened]
  rfl

/-- The innermost open step ends. -/
theorem leaves {gives : Value} {fault : Option Fault}
    (closes : (⟨happening, other⟩ : Moment).report = .closing heading gives fault) :
    (story (told happening other :: past)).opened = steps := by
  rw [story_told, Story.opened, closes]
  exact congrArg List.tail poised.opened

end

section inner

variable {inner : Server}
  (kept : ∀ steps, Kept (Regular setting path) (Poised setting path steps) inner)
include kept

/-- While an evaluator is at work its output is not remembered, and afterwards it is unless the
evaluator failed. -/
theorem compute_keeps {source : PinRef} {part : Part}
    (poised : Poised setting path steps walker past)
    (found : setting.circuit.part source.node = .ok part)
    (missing : walker.memo.get? source = none) (fresh : source.node ∉ walker.resolving) :
    WP (Regular setting path) (ExceptT.run (compute inner source part))
      (Retrieved setting path steps source) walker past := by
  have other : ∀ ref ∈ computing steps, ref ≠ source := by
    rintro ref member rfl
    apply fresh
    rw [poised.resolving]
    exact List.mem_append_left _ (List.mem_map_of_mem member)
  have starts : ¬ Persists setting source (happenings past) := fun persists =>
    (poised.persists source persists).elim (· missing) (other source · rfl)
  refine WP.compute_iff.mpr ⟨⟨⟨part, Circuit.part_eq_ok_iff.mp found, rfl⟩, poised.distinct,
    poised.level, fresh, starts⟩, ?_⟩
  have pushed : Poised setting path ((.evaluation source, (story past).begun) :: steps)
      { walker with resolving := source.node :: walker.resolving }
      (told (.evaluating source part.node.config) walker :: past) := by
    refine ⟨poised.enters rfl, congrArg (source.node :: ·) poised.resolving,
      List.nodup_cons.mpr ⟨fresh, poised.distinct⟩, ?_, ?_⟩
    · refine List.forall_mem_cons.mpr ⟨.inl missing, fun ref member => ?_⟩
      exact (poised.vacant ref member).told
    · rintro ref (rfl | persists)
      · exact .inr List.mem_cons_self
      · exact (poised.persists ref persists).imp_right (List.mem_cons_of_mem _)
  refine (WP.perform_of_invariant (kept _) _ pushed).mono ?_
  intro result after past poised
  have resolving : after.resolving = source.node :: engaged path steps := poised.resolving
  have popped : after.resolving.tail = engaged path steps := by rw [resolving, List.tail_cons]
  have distinct : after.resolving.tail.Nodup := poised.distinct.tail
  obtain ⟨own, vacant⟩ := List.forall_mem_cons.mp poised.vacant
  refine ⟨⟨poised.innermost, distinct, ?_⟩, ?_⟩
  · rw [← poised.level, resolving, List.tail_cons]
  · have left : ∀ ref, ref ≠ source → Persists setting ref (happenings past) →
        after.memo.get? ref ≠ none ∨ ref ∈ computing steps := fun ref other persists =>
      (poised.persists ref persists).imp_right fun member =>
        (List.mem_cons.mp member).resolve_left other
    cases result with
    | error fault =>
      refine ⟨⟨poised.leaves rfl, popped, distinct, fun ref member => (vacant ref member).told, ?_⟩,
        fun _ _ => own.told⟩
      rintro ref ⟨other, persists⟩
      exact left ref other.symm persists
    | ok value =>
      refine ⟨⟨poised.leaves rfl, popped, distinct, fun ref member => ?_, ?_⟩,
        nofun⟩
      · rw [Vacant, Memo.get?_store, if_neg (other ref member)]
        exact (vacant ref member).told
      · rintro ref ⟨-, persists⟩
        rw [Memo.get?_store]
        split
        · exact .inl (Option.some_ne_none _)
        · rename_i other
          exact left ref other persists

/-- A read that fails leaves its output out of the memo, unless a script puts it there. -/
theorem pull_keeps (source : PinRef) (poised : Poised setting path steps walker past) :
    WP (Regular setting path) (ExceptT.run (pull setting inner source))
      (Retrieved setting path steps source) walker past := by
  have counted : Poised setting path steps { walker with memo := (walker.memo.lookup source).2 }
      past := poised.update rfl fun ref => Memo.get?_lookup walker.memo ref source
  cases found : walker.memo.get? source with
  | some => exact (WP.pull_of_found found).mpr ⟨counted, nofun⟩
  | none =>
    have missing := (Memo.get?_lookup walker.memo source source).trans found
    rw [WP.pull_of_missing found]
    split
    · exact ⟨counted, fun _ _ => .inl missing⟩
    · rename_i fresh
      obtain ⟨obeys, going⟩ := counted.asks .isCancelled rfl
      refine WP.checkCancelled_iff.mpr ⟨obeys, ⟨going true, fun _ _ => .inl missing⟩, ?_⟩
      cases part : setting.circuit.part source.node with
      | error => exact ⟨going false, fun _ _ => .inl missing⟩
      | ok => exact (going false).compute_keeps kept part missing (by simpa using fresh)

theorem output_keeps (source : PinRef) (poised : Poised setting path steps walker past) :
    WP (Regular setting path) (ExceptT.run (output setting inner source))
      (Retrieved setting path steps source) walker past := by
  refine WP.output_iff.mpr ((poised.pull_keeps kept source).mono ?_)
  rintro result walker past ⟨poised, vacant⟩
  obtain ⟨obeys, poised⟩ := poised.passes (.read source result) trivial
  exact ⟨obeys, poised, fun fault failed => (vacant fault failed).told⟩

theorem execute_keeps (node : String) (part : Part)
    (poised : Poised setting path steps walker past) :
    WP (Regular setting path) (ExceptT.run (execute inner node part))
      (Upheld (Poised setting path steps) fun _ => Poised setting path steps) walker past := by
  refine execute_of_executor ⟨trivial, poised.distinct, poised.level⟩ ?_ (fun pin => ?_)
    fun poised => poised
  · have entered : Poised setting path (_ :: steps) walker
        (told (.executing node) walker :: past) :=
      poised.moves (poised.enters rfl) rfl fun _ => And.right
    refine (WP.perform_of_invariant (kept _) _ entered).mono ?_
    intro result walker past poised
    rw [upheld_const]
    refine ⟨⟨poised.innermost, poised.distinct, poised.level⟩, ?_⟩
    cases result <;> exact poised.moves (poised.leaves rfl) rfl fun _ => And.right
  · rw [upheld_const]
    exact kept steps (.traverse node pin)

theorem keeps_calls :
    KeepsCalls (Regular setting path) setting inner (Poised setting path steps)
      (Poised setting path steps) where
  asks simple poised := poised.asks _ simple.silent
  supplies := by
    refine ⟨fun source _ _ poised => ?_, fun _ _ _ _ _ poised =>
      poised.passes _ trivial, fun _ poised => poised⟩
    rw [upheld_const]
    exact (poised.output_keeps kept source).mono fun _ _ _ fetched => fetched.1
  follows := {
    looks := fun poised => .of_asks (poised.asks .isCancelled rfl)
    ready := fun poised => .of_asks (poised.asks .isCancelled rfl)
    checkpoint := fun _ _ _ => checkpoint_upheld
      (fun pausing poised => poised.asks _ pausing.silent)
      (fun _ _ _ poised => poised.update rfl fun _ => rfl)
      (fun path value _ _ poised => WP.change_iff.mpr (poised.changes (.assigned path value)))
      fun _ _ _ poised => poised
    execute := fun _ poised => poised.execute_keeps kept _ _
    traversing := fun _ _ _ poised => poised.passes _ trivial
    followed := fun wire poised => ⟨⟨wire, poised.distinct, poised.level⟩,
      poised.moves poised.opened rfl fun _ => And.right⟩
    traversed := fun _ _ _ _ poised => by
      rw [upheld_const] at *
      exact poised.passes _ trivial
    raises := fun _ _ poised => poised }
  changes changes poised := poised.changes changes
  note _ _ _ _ poised := poised.passes _ trivial
  records _ poised := poised.update rfl fun _ => rfl

end inner

/-- Every call returns with the same steps open and the same nodes being resolved. -/
theorem serve_keeps (depth : Nat) (steps : List (Heading × Nat)) :
    Kept (Regular setting path) (Poised setting path steps) (serve setting depth) := by
  induction depth generalizing steps with
  | zero => exact fun c walker past poised => WP.exhausted_iff.mpr trivial
  | succ depth ih => exact (keeps_calls ih).answer

end Poised

/-- A walk is regular over nodes of whatever kinds, and ends with no step open. -/
theorem start_regular (setting : Setting) (depth : Nat) (entry : String) (context : Context) :
    Dialogue.WP (Regular setting []) (fun result past => Poised setting [] [] result.2 past)
      (start setting depth entry context) [] := by
  have nothing : Poised setting [] [] { context } [] :=
    ⟨rfl, rfl, .nil, List.forall_mem_nil _, fun _ persists => persists.elim⟩
  exact start_of_served _ (Poised.serve_keeps depth [] (.run entry) _ _ nothing)

/-- Between two evaluations of an output the first was forgotten or failed. -/
theorem forgotten_or_failed (course : (start setting depth entry context).Leads past rest)
    {config' : Fields} {later : List Happening}
    (split : happenings past =
      later ++ .evaluating ref config :: (between ++ .evaluating ref config' :: earlier)) :
    (∃ happening ∈ between, Forgets setting ref.node happening) ∨
      ∃ fault, .evaluated ref (.error fault) ∈ between := by
  obtain ⟨walker, before, same, -, -, -, -, fresh⟩ :=
    Obeys.happening ((start_regular setting depth entry context).obeys course) split
  apply Classical.byContradiction
  intro neither
  rw [not_or, not_exists, not_exists] at neither
  apply fresh
  rw [same]
  refine persists_append ?_ neither.2
  intro happening member forgets
  exact neither.1 happening ⟨member, forgets⟩

end Pinflow.Walk
