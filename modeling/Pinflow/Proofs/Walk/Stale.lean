import Pinflow.Proofs.Walk.Refinement
import Pinflow.Proofs.Walk.Written

/-!
# Data computed from actions

An action that executes again writes its outputs anew, but what was computed from the earlier
ones stays in the memo. `read_recomputed` says what a read of data comes to then: it is
computed from the outputs written last, except that outdated entries stand for themselves.

That exception is real. In `outdated_read_of_repeatedAction` a sequence fires an action twice,
and the array made of its result is the first one both times.
-/

namespace Pinflow.Walk

open Circuit Recollection

variable {ref : PinRef} {value : Value} {earlier later : List Happening}

/-- The outputs that were written last. -/
def written : List Happening → Recollection
  | [] => fun _ => none
  | .stored node values :: earlier => (written earlier).storeMany node values
  | _ :: earlier => written earlier

section courses

variable {setting : Setting} {depth : Nat} {entry : String} {context : Context} {past : Past}
  {rest : Walk (Except Fault Unit × Walker)}

/-- What is remembered of a node without an evaluator is what it has written last. -/
theorem written_of_recalled (course : (start setting depth entry context).Leads past rest)
    (split : happenings past = later ++ earlier) (unevaluable : Unevaluable setting ref.node)
    (known : recalled setting earlier ref = some value) : written earlier ref = some value := by
  induction earlier generalizing later value with
  | nil => cases known
  | cons happening earlier ih =>
    have before : ∀ value, recalled setting earlier ref = some value →
        written earlier ref = some value := by
      have split : happenings past = (later ++ [happening]) ++ earlier := by
        rw [split, List.append_assoc]
        rfl
      exact fun value => ih split
    cases happening with
    | read source result =>
      cases result with
      | error => exact before value known
      | ok new =>
        by_cases same : ref = source
        · subst same
          have honest := read_iff_recalled course split unevaluable
          have now : some new = some value := (if_pos rfl).symm.trans known
          exact before value ((honest value).mp (congrArg Except.ok (Option.some.inj now)))
        · exact before value ((if_neg same).symm.trans known)
    | assigned | refreshed => exact before value (of_forget known)
    | stored node values => exact storeMany_mono before node values known
    | reentered =>
      exact before value (of_forget (of_forget known))
    | _ => exact before value known

variable (wired : Wired Registry.builtin setting.circuit)
  (course : (start setting depth entry context).Leads past rest)
include wired course

/-- No outputs of data nodes are ever written. -/
theorem written_of_data (split : happenings past = later ++ earlier)
    (isData : setting.circuit.isOf Kinds.data ref.node = true) : written earlier ref = none := by
  induction earlier generalizing later with
  | nil => rfl
  | cons happening earlier ih =>
    have before : written earlier ref = none := by
      have split : happenings past = (later ++ [happening]) ++ earlier := by
        rw [split, List.append_assoc]
        rfl
      exact ih split
    cases happening with
    | stored node =>
      have other : ref.node ≠ node := by
        rintro rfl
        obtain ⟨-, ⟨isLoop, -⟩ | isAction⟩ := lawful_of_course wired course split
        · rw [isOf_eq_false (by decide) isLoop] at isData
          cases isData
        · rw [isOf_eq_false (by decide) isAction] at isData
          cases isData
      exact (storeMany_of_ne _ fun same => absurd same other).trans before
    | _ => exact before

/-- What loops and actions have in the memo when data is read is what they have written
last. -/
theorem written_of_get? {later earlier : Past} {walker : Walker} {source : PinRef} {found : Value}
    (split : past = later ++ told (.read source (.ok value)) walker :: earlier)
    (isData : setting.circuit.isOf Kinds.data source.node = true)
    (isHolding : setting.circuit.isOf holding ref.node = true)
    (known : walker.memo.get? ref = some found) :
    written (happenings earlier) ref = some found := by
  have obeys := obeys_recallRule course
  have memory : walker.memo.get? =
      remember setting (recalled setting (happenings earlier)) (.read source (.ok value)) :=
    (obeys later (.announce ⟨.read source (.ok value), walker⟩) () earlier split).1
  have other : ref ≠ source := by
    rintro rfl
    rw [isOf_eq_false (by decide) isData] at isHolding
    cases isHolding
  rw [memory] at known
  have parts : happenings past =
      (happenings later ++ [.read source (.ok value)]) ++ happenings earlier := by
    rw [split, happenings_append, happenings_told, List.append_assoc]
    rfl
  exact written_of_recalled course parts
    (unevaluable_of_isOf wired (isOf_append.mp isHolding)) ((if_neg other).symm.trans known)

end courses

/-- Whenever a walk over a loaded graph of built-in kinds reads a value from a data node, the
node computes that value from the context as it is then and the outputs written last, where
outdated entries stand for themselves. If it is computed from none of these entries, the
outputs written last are all that counts. -/
theorem read_recomputed {graph : Graph} {circuit : Circuit}
    (loaded : load Registry.builtin graph = .ok circuit)
    {invocation capability : String} {maxIterations maxSnapshot depth : Nat} {entry : String}
    {context : Context} {past : Past} {rest : Walk (Except Fault Unit × Walker)}
    (course : (start (.of circuit invocation capability maxIterations maxSnapshot) depth entry
      context).Leads past rest)
    {later earlier : Past} {walker : Walker} {source : PinRef} {value : Value}
    (split : past = later ++ told (.read source (.ok value)) walker :: earlier)
    (isData : circuit.isOf Kinds.data source.node = true) :
    circuit.fresh walker.context
        (fun ref => (outdated circuit earlier ref).or (written (happenings earlier) ref)) source =
      some (.ok value) ∧
    ((∀ ref old, outdated circuit earlier ref = some old → source.node ∉ circuit.fed ref.node) →
      circuit.fresh walker.context (written (happenings earlier)) source = some (.ok value)) := by
  have wired := wired_of_load loaded
  have parts : happenings past =
      (happenings later ++ [.read source (.ok value)]) ++ happenings earlier := by
    rw [split, happenings_append, happenings_told, List.append_assoc]
    rfl
  have unwritten : ∀ ref : PinRef, circuit.isOf Kinds.data ref.node = true →
      written (happenings earlier) ref = none := fun ref => written_of_data wired course parts
  have holds : ∀ ref found, circuit.isOf holding ref.node = true →
      walker.memo.get? ref = some found → written (happenings earlier) ref = some found :=
    fun ref found => written_of_get? wired course split isData
  obtain ⟨depth, known⟩ : Yields circuit walker.context (inHand circuit walker.memo.get? earlier)
    source value := yields_of_read wired rfl course split isData
  constructor
  · refine fresh_of_unfolded wired (unfolded_congr wired (fun _ => False)
      (fun _ _ _ => id) (fun _ _ _ _ => ⟨rfl, rfl, fun _ => rfl⟩) ?_ ?_ known id)
    · intro ref found _ isHeld
      rcases written_or_outdated isHeld with ⟨isHolding, known⟩ | stale
      · rw [outdated_of_holding isHolding]
        exact holds ref found isHolding known
      · rw [stale]
        rfl
    · intro ref _ isData bare
      rw [inHand_of_data _ _ isData] at bare
      rw [bare]
      exact unwritten ref isData
  · intro untainted
    let affected node :=
      ∃ ref old, outdated circuit earlier ref = some old ∧ node ∈ circuit.fed ref.node
    have safe : ¬ affected source.node := by
      rintro ⟨ref, old, stale, feeds⟩
      exact untainted ref old stale feeds
    refine fresh_of_unfolded wired (unfolded_congr wired affected ?_
      (fun _ _ _ _ => ⟨rfl, rfl, fun _ => rfl⟩) ?_ ?_ known safe)
    · rintro edge member isData ⟨ref, old, stale, feeds⟩
      exact ⟨ref, old, stale, fed_closed member isData feeds⟩
    · intro ref found safe isHeld
      rcases written_or_outdated isHeld with ⟨isHolding, known⟩ | stale
      · exact holds ref found isHolding known
      · exact absurd ⟨ref, found, stale, self_mem_fed ref.node⟩ safe
    · exact fun ref _ isData _ => unwritten ref isData

/-- A sequence that fires an action twice and logs an array made of its result each time. -/
def repeatedAction : Graph where
  id := "again"
  nodes := [
    { id := "start", kind := "on_event" },
    { id := "twice", kind := "sequence", config := [("count", .int 2)] },
    { id := "act", kind := "agent_action", config := [("action", .str "wait")] },
    { id := "pack", kind := "make_array", config := [("arity", .int 1)] },
    { id := "say", kind := "log" }]
  edges := [
    ⟨⟨"start", "then"⟩, ⟨"twice", "exec"⟩⟩, ⟨⟨"twice", "then_0"⟩, ⟨"act", "exec"⟩⟩,
    ⟨⟨"twice", "then_1"⟩, ⟨"act", "exec"⟩⟩, ⟨⟨"act", "result"⟩, ⟨"pack", "item_0"⟩⟩,
    ⟨⟨"act", "success"⟩, ⟨"say", "exec"⟩⟩, ⟨⟨"pack", "array"⟩, ⟨"say", "message"⟩⟩]

/-- The array is read for the second time after the second writing of the action's outputs. -/
theorem repeatedAction_reads :
    ∃ later walker earlier, (tour repeatedAction [.int 1, .int 2] 58).1 =
        later ++ told (.read ⟨"pack", "array"⟩ (.ok (.arr [.int 1]))) walker :: earlier ∧
      happenings earlier = (happenings (tour repeatedAction [.int 1, .int 2] 58).1).tail := by
  have last : (happenings (tour repeatedAction [.int 1, .int 2] 58).1).head? =
      some (.read ⟨"pack", "array"⟩ (.ok (.arr [.int 1]))) := by cbv
  have split : happenings (tour repeatedAction [.int 1, .int 2] 58).1 =
      [] ++ .read ⟨"pack", "array"⟩ (.ok (.arr [.int 1])) ::
        (happenings (tour repeatedAction [.int 1, .int 2] 58).1).tail :=
    (List.cons_head?_tail last).symm
  obtain ⟨later, walker, earlier, same, -, tail⟩ := exists_told split
  exact ⟨later, walker, earlier, same, tail⟩

theorem read_recomputed_repeatedAction :
    (∃ later walker earlier,
      (tour repeatedAction [.int 1, .int 2] 58).1 =
        later ++ told (.read ⟨"pack", "array"⟩ (.ok (.arr [.int 1]))) walker :: earlier ∧
      (ofGraph repeatedAction).fresh walker.context (fun ref =>
          (outdated (.ofGraph repeatedAction) earlier ref).or (written (happenings earlier) ref))
          ⟨"pack", "array"⟩ = some (.ok (.arr [.int 1]))) ∧
    ∃ later walker earlier,
      (tour gatheringLoop [] 80).1 =
        later ++ told (.read ⟨"pair", "array"⟩ (.ok (.arr [.int 2, .int 2]))) walker :: earlier ∧
      (ofGraph gatheringLoop).fresh walker.context (written (happenings earlier))
        ⟨"pair", "array"⟩ = some (.ok (.arr [.int 2, .int 2])) := by
  constructor
  · have loaded : load Registry.builtin repeatedAction = .ok (.ofGraph repeatedAction) :=
      rfl
    obtain ⟨later, walker, earlier, split, -⟩ := repeatedAction_reads
    exact ⟨later, walker, earlier, split,
      (read_recomputed loaded (leads_tour repeatedAction _ 58) split rfl).1⟩
  · have loaded : load Registry.builtin gatheringLoop = .ok (.ofGraph gatheringLoop) := rfl
    obtain ⟨later, walker, earlier, split⟩ := gatheringLoop_reads
    refine ⟨later, walker, earlier, split,
      (read_recomputed loaded (leads_tour gatheringLoop [] 80) split rfl).2 fun ref old stale => ?_⟩
    obtain ⟨-, action, isAction, -⟩ := exists_of_outdated stale
    rw [gatheringLoop_actionless] at isAction
    cases isAction

/-- After the action has answered with 2 the array is still read as that of the 1 it answered
with before, although computing it from what was written last gives that of the 2. -/
theorem outdated_read_of_repeatedAction :
    load Registry.builtin repeatedAction = .ok (.ofGraph repeatedAction) ∧
    ∃ past rest later walker earlier,
      (start (.of (.ofGraph repeatedAction) "" "" 10 10) 100 "start" {}).Leads past rest ∧
      past = later ++ told (.read ⟨"pack", "array"⟩ (.ok (.arr [.int 1]))) walker :: earlier ∧
      written (happenings earlier) ⟨"act", "result"⟩ = some (.int 2) ∧
      (ofGraph repeatedAction).fresh walker.context (written (happenings earlier))
        ⟨"pack", "array"⟩ = some (.ok (.arr [.int 2])) := by
  obtain ⟨later, walker, earlier, split, tail⟩ := repeatedAction_reads
  refine ⟨rfl, _, _, later, walker, earlier, leads_tour repeatedAction _ 58, split, ?_, ?_⟩
  · rw [tail]
    cbv
  · rw [tail]
    cbv

end Pinflow.Walk
