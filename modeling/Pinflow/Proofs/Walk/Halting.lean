import Pinflow.Proofs.Walk.Outlook

/-!
# Walks that are told to end

A walk over nodes of the built-in kinds ends with the fault of a stopped walk exactly if it
was told to end: its token was found cancelled, or a pause was answered with a stop. From
then on it only announces how it comes to its end. A walk that was resumed looks at its
token before it does anything else than write the overrides, so it does not end without.
-/

namespace Pinflow.Walk

variable {happening : Happening} {walker : Walker} {result : Except Fault α}
  {exchange : Exchange Query.interface} {past : Past} {α : Type}

/-- An answer that tells a walk to end. -/
def Halts : Exchange Query.interface → Prop
  | ⟨.isCancelled, cancelled⟩ => cancelled = true
  | ⟨.pause _ _ _, command⟩ => command = Command.stop
  | _ => False

def Halted (past : Past) : Prop := ∃ exchange ∈ past, Halts exchange

/-- Only overrides have been written since a pause ended with a resume. -/
def Unchecked : Past → Prop
  | ⟨.pause _ _ _, .resume _⟩ :: _ => True
  | ⟨.announce ⟨.assigned _ _, _⟩, _⟩ :: past => Unchecked past
  | _ => False

/-- A walk that was told to end only announces, and one that was resumed writes its
overrides and looks at its token. -/
structure Heeding (q : Query) (past : Past) : Prop where
  halted : Halted past → ∃ moment, q = .announce moment
  unchecked : Unchecked past →
    q = .isCancelled ∨ ∃ path value walker, q = .announce ⟨.assigned path value, walker⟩

/-- The walk may do as it likes. -/
structure Going (past : Past) : Prop where
  halted : ¬ Halted past
  unchecked : ¬ Unchecked past

/-- The fault of a stopped walk is the result exactly if the walk was told to end. -/
structure Heeded {α : Type} (result : Except Fault α) (past : Past) : Prop where
  stopped : (∃ session, result = .error (.stopped session)) ↔ Halted past
  unchecked : ¬ Unchecked past

theorem halted_cons : Halted (exchange :: past) ↔ Halts exchange ∨ Halted past := by
  simp only [Halted, List.mem_cons, exists_eq_or_imp]

theorem halted_told : Halted (told happening walker :: past) ↔ Halted past :=
  halted_cons.trans ⟨fun halts => halts.resolve_left id, .inr⟩

theorem unchecked_of_told (unchecked : Unchecked (told happening walker :: past)) :
    Unchecked past := by
  cases happening with
  | assigned => exact unchecked
  | _ => exact unchecked.elim

namespace Going

theorem nil : Going [] := by
  refine ⟨?_, id⟩
  rintro ⟨exchange, member, -⟩
  cases member

theorem heeding (going : Going past) (q : Query) : Heeding q past :=
  ⟨fun halted => absurd halted going.halted, fun unchecked => absurd unchecked going.unchecked⟩

theorem told (going : Going past) : Going (told happening walker :: past) :=
  ⟨fun halted => going.halted (halted_told.mp halted),
    fun unchecked => going.unchecked (unchecked_of_told unchecked)⟩

theorem heeded (going : Going past) (known : Unstopped result) : Heeded result past := by
  refine ⟨⟨?_, fun halted => absurd halted going.halted⟩, going.unchecked⟩
  rintro ⟨session, same⟩
  exact absurd same (known session)

theorem ok (going : Going past) (a : α) : Heeded (.ok a) past :=
  going.heeded nofun

end Going

namespace Heeded

theorem told (heeded : Heeded result past) : Heeded result (told happening walker :: past) :=
  ⟨heeded.stopped.trans halted_told.symm,
    fun unchecked => heeded.unchecked (unchecked_of_told unchecked)⟩

theorem heeding (heeded : Heeded result past) (moment : Moment) : Heeding (.announce moment) past :=
  ⟨fun _ => ⟨moment, rfl⟩, fun unchecked => absurd unchecked heeded.unchecked⟩

/-- The result of a walk that has just been told to end. -/
theorem stop (session : String) (halts : Halts exchange)
    (unchecked : ¬ Unchecked (exchange :: past)) :
    Heeded (.error (.stopped session) : Except Fault α) (exchange :: past) :=
  ⟨⟨fun _ => halted_cons.mpr (.inl halts), fun _ => ⟨session, rfl⟩⟩, unchecked⟩

end Heeded

/-- The fault of a walk that has heeded what it was told. -/
abbrev HeededFault (fault : Fault) : Past → Prop := Heeded (.error fault : Except Fault Unit)

variable {setting : Setting}

theorem looks_heeding (goes : ¬ Halted past) :
    Looks Heeding setting (fun _ => Going) (fun fault _ => HeededFault fault) walker past := by
  have rule : Heeding .isCancelled past := ⟨fun halted => absurd halted goes, fun _ => .inl rfl⟩
  refine ⟨rule, Heeded.stop _ rfl id, ?_, id⟩
  rw [halted_cons]
  rintro (halts | halted)
  · cases halts
  · exact goes halted

theorem assignAll_heeds (list : List (String × Value)) (goes : ¬ Halted past) :
    WP Heeding (assignAll setting list) (fun _ _ past => ¬ Halted past) walker past := by
  refine WP.assignAll_of_invariant (fun path value walker past goes => ?_) list goes
  refine WP.change_iff.mpr ⟨⟨fun _ => ⟨_, rfl⟩, fun _ => .inr ⟨path, value, _, rfl⟩⟩, ?_⟩
  exact fun halted => goes (halted_told.mp halted)

theorem pauseAt_heeds (node : String) (hits : Nat) (going : Going past) :
    WP Heeding (ExceptT.run (pauseAt setting node hits)) (Fared (¬ Halted ·) HeededFault)
      walker past := by
  have goes : ∀ {session : String}, Going (⟨.openSession, session⟩ :: past) :=
    ⟨fun halted => going.halted ((halted_cons.mp halted).resolve_left id), id⟩
  have seated : WP Heeding ensureSession (fun _ _ past => Going past) walker past := by
    rw [WP.ensureSession_iff]
    cases walker.session with
    | some => exact going
    | none => exact ⟨going.heeding _, fun session => goes⟩
  refine WP.pauseAt_iff.mpr (seated.mono fun session walker past going => ?_)
  refine ⟨going.heeding _, fun overrides => ?_, Heeded.stop session rfl id⟩
  refine assignAll_heeds overrides fun halted => ?_
  exact going.halted ((halted_cons.mp halted).resolve_left nofun)

theorem checkpoint_heeds (node : String) (going : Going past) :
    WP Heeding (ExceptT.run (checkpoint setting node)) (Fared (¬ Halted ·) HeededFault)
      walker past := by
  have goes : ∀ {vars : Fields} {hit : Option Nat}, Going (⟨.visit node vars, hit⟩ :: past) :=
    ⟨fun halted => going.halted ((halted_cons.mp halted).resolve_left id), id⟩
  exact WP.checkpoint_iff.mpr ⟨going.heeding _, goes.halted, fun hits => pauseAt_heeds node hits goes⟩

/-- A walk goes on until it is told to end, and then hands on the fault of a stopped walk. -/
theorem outlook_heeding (setting : Setting) :
    Outlook Heeding setting Going (¬ Halted ·) HeededFault where
  prepared going := going.halted
  asks going := going.heeding
  acts _ _ _ going :=
    ⟨fun halted => going.halted ((halted_cons.mp halted).resolve_left id), id⟩
  tells _ _ going _ := going.told
  raises going known := going.heeded fun session same => known session (Except.error.inj same)
  handsOn heeded _ := ⟨heeded.heeding _, heeded.told⟩
  checks := looks_heeding
  stops node _ _ := checkpoint_heeds node

/-- A walk over nodes of the built-in kinds heeds what it is told, and it ends with the fault
of a stopped walk exactly if it was told to end. -/
theorem start_heeds (wired : Circuit.Wired Registry.builtin setting.circuit) (depth : Nat)
    (entry : String) (context : Context) :
    Dialogue.WP Heeding (fun result past => Heeded result.1 past)
      (start setting depth entry context) [] := by
  refine Dialogue.WP.mono ((outlook_heeding setting).start wired depth entry context .nil)
    (fun _ _ obeys => obeys) ?_
  rintro ⟨result, walker⟩ past fared
  cases result with
  | error => exact fared
  | ok => exact Going.ok fared ()

end Pinflow.Walk
