import Pinflow.Proofs.Desk.Beside
import Pinflow.Proofs.Desk.Events

/-!
# The life of one invocation

An invocation that is there has been started, and is kept on its course. Of the moves that are
not its own turn it notices little: they put nothing about it on record but a cancellation.
-/

namespace Pinflow.Desk

variable {desk : Desk} {name : String} {invocation : Invocation} {identity : Identity}
  {circuit : Circuit} {request : Request}

/-- An invocation that was not there before has just been started. -/
theorem invocation?_make_of_none {move : Move} (missing : desk.invocation? name = none)
    (found : (desk.make move).invocation? name = some invocation) :
    ∃ identity circuit request, move = .start name identity circuit request ∧
      desk.admits name identity = true ∧
      invocation =
        (Invocation.begin desk.settings desk.world circuit name identity request).1 := by
  by_cases begins : ∃ other identity circuit request,
      move = .start other identity circuit request ∧ desk.admits other identity = true
  · obtain ⟨other, identity, circuit, request, rfl, admits⟩ := begins
    have joined := invocation?_join admits
      (Invocation.begin_identity desk.settings desk.world circuit other identity request).1 name
    rw [make_start_of_admits admits] at found
    have found := joined.symm.trans found
    split at found
    · rename_i same
      subst same
      cases found
      exact ⟨identity, circuit, request, rfl, admits, rfl⟩
    · cases missing.symm.trans found
  · rw [invocation?_make_of_old, missing] at found
    · cases found
    · exact fun _ _ _ _ same admits => begins ⟨_, _, _, _, same, admits⟩

/-- An invocation that is on record is kept on its course. -/
theorem Idle.kept_of_started (idle : desk.Idle) {moves : List Move}
    (started : .started name identity circuit request ∈ desk.chronicle moves) :
    ∃ invocation past, (desk.play moves).invocation? name = some invocation ∧
      Kept ⟨desk.settings, name, identity, circuit, request⟩ (desk.play moves).world
        (desk.chronicle moves) invocation past := by
  exact @Sound.kept_of_born _ _ ⟨desk.settings, name, identity, circuit, request⟩ _ _
    (idle.play moves) (settings_play desk moves).symm started

variable {log : List Deed} {move : Move}

variable (sound : desk.Sound log) (found : desk.invocation? name = some invocation)
  (turn : move ≠ .wake name)
include sound found turn

/-- Others put nothing about an invocation on record but the cancellation of its token. -/
theorem Sound.deeds_beside {deed : Deed} (member : deed ∈ desk.deeds move)
    (about : deed.name? = some name) : deed = .cancelled name := by
  obtain ⟨isMember, named⟩ := mem_of_invocation? found
  have nobody : deed.name? ≠ none := by simp [about]
  obtain ⟨other, identity, circuit, request, -, admits, begins⟩ |
    ⟨other, waking, rfl, isFound, turns⟩ | ⟨_, _, -, reported⟩ | ⟨_, rfl⟩ | ⟨_, rfl⟩ :=
    mem_deeds_cases member
  · obtain ⟨others, free, unknown⟩ := sound.admitted admits
    obtain ⟨past, kept, since⟩ :=
      Invocation.kept_begin ⟨desk.settings, other, identity, circuit, request⟩ free unknown
    rcases (since.own deed begins).1 with own | isNobody
    · rw [about] at own
      exact absurd (named.trans (Option.some.inj own)) (others invocation isMember).1
    · exact absurd isNobody nobody
  · obtain ⟨isWaking, isOther⟩ := mem_of_invocation? isFound
    obtain ⟨birth, past, -, kept⟩ := sound.kept waking isWaking
    obtain ⟨past', -, since⟩ := kept.wake
    rcases (since.own deed turns).1 with own | isNobody
    · rw [about, ← kept.name, isOther] at own
      exact absurd (congrArg Move.wake (Option.some.inj own).symm) turn
    · exact absurd isNobody nobody
  · exact absurd (Invocation.name?_of_report reported) nobody
  · rw [Option.some.inj about]
  · cases about

theorem Sound.commandsTo_beside : commandsTo name (desk.deeds move) = [] := by
  refine List.filterMap_eq_nil_iff.mpr fun deed member => ?_
  cases deed with
  | commanded =>
    refine if_neg fun same => ?_
    subst same
    cases sound.deeds_beside found turn member rfl
  | _ => rfl

end Pinflow.Desk
