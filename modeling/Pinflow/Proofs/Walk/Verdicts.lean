import Pinflow.Proofs.Walk.Entering
import Pinflow.Proofs.Walk.Stepwise

/-!
# Verdicts of the debugger

Before a node of whatever kind a walk tells the debugger its variables, and does as it is
told. If no breakpoint stops it, it looks at its token and goes on. If one does, it pauses
before that node with the count of the breakpoint in its snapshot, in a session that it opens
first if it has none. It pauses for no other reason.
-/

namespace Pinflow.Walk

variable {node : String} {q : Query} {answer : Option Nat} {vars : Fields} {past : Past}
  {hits : Nat}

/-- What the debugger has just said about a node. -/
inductive Verdict where
  /-- It has not been asked. -/
  | silent
  /-- No breakpoint stops the walk. -/
  | passes
  /-- A breakpoint stops the walk before the node, for the `hits`-th time. -/
  | stops (node : String) (hits : Nat)

/-- The last verdict, as long as the walk has not done as it was told. -/
def verdict : Past → Verdict
  | ⟨.visit _ _, none⟩ :: _ => .passes
  | ⟨.visit node _, some hits⟩ :: _ => .stops node hits
  | ⟨.openSession, _⟩ :: ⟨.visit node _, some hits⟩ :: _ => .stops node hits
  | _ => .silent

/-- What a walk may ask after a verdict. -/
def Verdict.Allows (q : Query) : Verdict → Prop
  | silent => q ≠ .openSession ∧ ∀ session node snapshot, q ≠ .pause session node snapshot
  | passes => q = .isCancelled
  | stops node hits => q = .openSession ∨ ∃ session snapshot,
      q = .pause session node snapshot ∧ snapshot.field? "hit_count" = some (.ofNat hits)

structure Minding (first : Walker) (q : Query) (past : Past) : Prop where
  allowed : (verdict past).Allows q
  own : ∀ node vars, q = .visit node vars →
    vars = (lastTold first (questions past)).context.vars

structure Minded (first walker : Walker) (past : Past) : Prop where
  done : verdict past = .silent
  vars : walker.context.vars = (lastTold first (questions past)).context.vars

variable {setting : Setting} {first walker : Walker} {past : Past}

namespace Minded

theorem minding (minded : Minded first walker past) (simple : q ≠ .openSession)
    (stays : ∀ session node snapshot, q ≠ .pause session node snapshot)
    (other : ∀ node vars, q ≠ .visit node vars) : Minding first q past := by
  constructor
  · rw [minded.done]
    exact ⟨simple, stays⟩
  · intro node vars same
    exact absurd same (other node vars)

theorem tells (happening : Happening) {other : Walker} (minded : Minded first walker past) :
    Minding first (.announce ⟨happening, other⟩) past ∧
      Minded first other (told happening other :: past) :=
  ⟨minded.minding (by simp) (by simp) (by simp), rfl, rfl⟩

/-- A question about something else. -/
theorem cons {answer : q.Answer} (minded : Minded first walker past) (simple : Simple q) :
    Minded first walker (⟨q, answer⟩ :: past) := by
  cases q with
  | isCancelled | act | ticket => exact ⟨rfl, minded.vars⟩
  | exhausted => exact Empty.elim answer
  | _ => exact simple.elim

theorem asks (minded : Minded first walker past) (simple : Simple q) :
    Minding first q past ∧ ∀ answer, Minded first walker (⟨q, answer⟩ :: past) := by
  refine ⟨?_, fun answer => minded.cons simple⟩
  cases q with
  | isCancelled | act | ticket | exhausted => exact minded.minding (by simp) (by simp) (by simp)
  | _ => exact simple.elim

end Minded

/-- What is known when the debugger has let a walk enter a node: the token is looked at next. -/
abbrev LetIn (setting : Setting) (first : Walker) : Except Fault Unit → Walker → Past → Prop :=
  Upheld (Looks (Minding first) setting (Minded first) fun _ => Minded first) fun _ => Minded first

theorem assign_minded (path : String) (value : Value) (minded : Minded first walker past) :
    WP (Minding first) (assign setting path value) (fun _ => Minded first) walker past :=
  WP.change_iff.mpr (minded.tells (.assigned path value))

theorem pauseAt_minded (stopped : verdict past = .stops node hits)
    (fresh : ∀ session, verdict (⟨.openSession, session⟩ :: past) = .stops node hits)
    (vars : walker.context.vars = (lastTold first (questions past)).context.vars) :
    WP (Minding first) (ExceptT.run (pauseAt setting node hits)) (LetIn setting first) walker
      past := by
  have seated : WP (Minding first) ensureSession (fun _ walker past =>
      verdict past = .stops node hits ∧
        walker.context.vars = (lastTold first (questions past)).context.vars) walker past := by
    rw [WP.ensureSession_iff]
    cases walker.session with
    | some => exact ⟨stopped, vars⟩
    | none =>
      refine ⟨⟨?_, by simp⟩, fun session => ⟨fresh session, vars⟩⟩
      rw [stopped]
      exact .inl rfl
  rw [WP.pauseAt_iff]
  apply WP.mono seated
  rintro session walker past ⟨stopped, vars⟩
  have told : ∀ snapshot command,
      Minded first walker (⟨.pause session node snapshot, command⟩ :: past) :=
    fun _ _ => ⟨rfl, vars⟩
  refine ⟨⟨?_, by simp⟩, fun overrides => ?_, told _ _⟩
  · rw [stopped]
    exact .inr ⟨session, _, rfl, Fields.get?_insert_self _ _ _⟩
  · refine (WP.assignAll_of_invariant (fun path value _ _ => assign_minded path value) overrides
      (told _ _)).mono ?_
    intro _ walker past minded
    obtain ⟨obeys, after⟩ := minded.asks (q := .isCancelled) trivial
    exact ⟨obeys, after true, after false⟩

theorem checkpoint_minded (node : String) (minded : Minded first walker past) :
    WP (Minding first) (ExceptT.run (checkpoint setting node)) (LetIn setting first) walker
      past := by
  rw [WP.checkpoint_iff]
  refine ⟨⟨?_, ?_⟩, ⟨⟨rfl, ?_⟩, ⟨rfl, minded.vars⟩, ⟨rfl, minded.vars⟩⟩, fun hits => ?_⟩
  · rw [minded.done]
    exact ⟨by simp, by simp⟩
  · intro other vars same
    cases same
    exact minded.vars
  · intro node vars same
    cases same
  · exact pauseAt_minded rfl (fun _ => rfl) minded.vars

theorem stepwise_minded (setting : Setting) (first : Walker) :
    Stepwise (Minding first) setting (Minded first) where
  asks simple minded := minded.asks simple
  tells happening _ _ minded := minded.tells happening
  assign path value _ _ := assign_minded path value
  same minded vars _ := ⟨minded.done, vars.trans minded.vars⟩
  checkpoint node _ _ := checkpoint_minded node

end Pinflow.Walk
