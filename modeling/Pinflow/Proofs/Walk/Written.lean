import Pinflow.Proofs.Walk.Orderly
import Pinflow.Proofs.Walk.Recall

/-!
# Outputs that executors write

Loops and actions put their outputs into the memo when they run, and no evaluator can
compute them again. `read_written_iff` says exactly when such an output can still be read:
until it is written again or its node falls into the scope of a loop that goes on, a read
returns what was written, unless a variable has been written in between and the node is in
the volatile scope of the circuit.

That exception is real. `element_lost_in_body` shows a loop over an array that comes from
a variable. The loop is in the volatile scope, so a body that writes any variable can no
longer read the element it is working on.
-/

namespace Pinflow.Walk

open Circuit

variable {earlier later : List Happening} {happening : Happening} {node : String}

/-- A happening after which a written output may be another or gone: it is written again,
or a loop whose scope holds its node goes on. -/
def Supersedes (circuit : Circuit) (ref : PinRef) : Happening → Prop
  | .stored node values => node = ref.node ∧ ref.pin ∈ values.map Prod.fst
  | .reentered loop pin => (circuit.loopScope loop pin).contains ref.node = true
  | .refreshed loop pin => ref.node ∈ (circuit.loopScope loop pin).derived
  | _ => False

/-- A variable was written in the course of some happenings. -/
def Assigns (list : List Happening) : Prop := ∃ path value, Happening.assigned path value ∈ list

section recalled

variable {setting : Setting} {ref : PinRef} {memory : Recollection}

/-- A happening that does not supersede an output leaves it as it is, unless it writes a
variable. -/
theorem remember_of_not_supersedes (kept : ¬ Supersedes setting.circuit ref happening)
    (honest : ∀ value, happening = .read ref (.ok value) → memory ref = some value)
    (silent : ∀ path value, happening ≠ .assigned path value) :
    remember setting memory happening ref = memory ref := by
  cases happening with
  | read source result =>
    cases result with
    | error => rfl
    | ok value =>
      by_cases same : ref = source
      · subst same
        rw [honest value rfl]
        exact if_pos rfl
      · exact if_neg same
  | assigned path value => exact absurd rfl (silent path value)
  | stored =>
    refine memory.storeMany_of_ne fun same value found => kept ⟨same.symm, ?_⟩
    exact List.mem_map.mpr ⟨_, found, rfl⟩
  | reentered =>
    obtain ⟨notExecuted, notDerived⟩ :=
      not_or.mp fun known => kept (Bool.or_eq_true_iff.mpr known)
    simp only [remember, Recollection.forget]
    rw [if_neg notDerived, if_neg notExecuted]
  | refreshed loop pin =>
    have notDerived : ¬ (setting.circuit.loopScope loop pin).derived.contains ref.node = true :=
      fun found => kept (List.contains_iff_mem.mp found)
    exact if_neg notDerived
  | _ => rfl

/-- What is left of a written output after some happenings that do not supersede it. -/
theorem recalled_written {value : Value} {between : List Happening}
    (written : recalled setting earlier ref = some value)
    (kept : ∀ happening ∈ between, ¬ Supersedes setting.circuit ref happening)
    (honest : ∀ later result before, between = later ++ .read ref result :: before →
      ∀ value, result = .ok value → recalled setting (before ++ earlier) ref = some value) :
    (ref.node ∈ setting.volatile ∧ Assigns between →
        recalled setting (between ++ earlier) ref = none) ∧
      (¬ (ref.node ∈ setting.volatile ∧ Assigns between) →
        recalled setting (between ++ earlier) ref = some value) := by
  induction between with
  | nil =>
    refine ⟨?_, fun _ => written⟩
    rintro ⟨-, path, value, impossible⟩
    cases impossible
  | cons happening between ih =>
    obtain ⟨lost, stays⟩ := ih (fun other member => kept other (List.mem_cons_of_mem _ member))
      fun later result before split =>
        honest (happening :: later) result before (by rw [split]; rfl)
    by_cases assigns : ∃ path value, happening = .assigned path value
    · obtain ⟨path, new, rfl⟩ := assigns
      have assigned : Assigns (.assigned path new :: between) := ⟨path, new, List.mem_cons_self⟩
      have forgets : recalled setting (.assigned path new :: between ++ earlier) ref =
          if setting.volatile.contains ref.node then none
          else recalled setting (between ++ earlier) ref := rfl
      constructor
      · rintro ⟨volatile, -⟩
        rw [forgets, if_pos (List.contains_iff_mem.mpr volatile)]
      · intro not
        have notVolatile : ref.node ∉ setting.volatile := fun volatile => not ⟨volatile, assigned⟩
        rw [forgets, if_neg fun found => notVolatile (List.contains_iff_mem.mp found)]
        exact stays fun both => notVolatile both.1
    · have silent : ∀ path value, happening ≠ .assigned path value :=
        fun path value same => assigns ⟨path, value, same⟩
      have unchanged : recalled setting (happening :: between ++ earlier) ref =
          recalled setting (between ++ earlier) ref := by
        refine remember_of_not_supersedes (kept happening List.mem_cons_self) ?_ silent
        rintro value rfl
        exact honest [] _ between rfl value rfl
      have same : Assigns (happening :: between) ↔ Assigns between := by
        constructor
        · rintro ⟨path, value, member⟩
          rcases List.mem_cons.mp member with eq | member
          · exact absurd eq.symm (silent path value)
          · exact ⟨path, value, member⟩
        · rintro ⟨path, value, member⟩
          exact ⟨path, value, List.mem_cons_of_mem _ member⟩
      rw [same, unchanged]
      exact ⟨lost, stays⟩

end recalled

section courses

variable {setting : Setting} {depth : Nat} {entry : String} {context : Context} {past : Past}
  {rest : Walk (Except Fault Unit × Walker)}

/-- Loops and actions have no evaluator. -/
theorem unevaluable_of_isOf (wired : Wired Registry.builtin setting.circuit)
    (known : setting.circuit.isOf Kinds.loops node = true ∨
      setting.circuit.isOf Kinds.actions node = true) : Unevaluable setting node := by
  intro part found pin
  have found := part_eq_ok_iff.mp found
  rcases known with loop | action
  · exact Kinds.unevaluable_of_loop (wired.kind_mem_of_isOf Kinds.loops_subset found loop) _ pin
  · exact Kinds.unevaluable_of_action (wired.kind_mem_of_isOf Kinds.actions_subset found action)
      _ pin

/-- Whatever happens in a walk over built-in kinds is lawful. -/
theorem lawful_of_course (wired : Wired Registry.builtin setting.circuit)
    (course : (start setting depth entry context).Leads past rest)
    (split : happenings past = later ++ happening :: earlier) :
    Lawful setting.circuit earlier happening := by
  obtain ⟨walker, before, rfl, allowed⟩ :=
    Obeys.happening (order_of_course wired course).2 split
  exact allowed.lawful happening rfl

/-- A read of an output that no evaluator computes returns what is remembered. -/
theorem read_iff_recalled (course : (start setting depth entry context).Leads past rest)
    {source : PinRef} {result : Except Fault Value}
    (split : happenings past = later ++ .read source result :: earlier)
    (unevaluable : Unevaluable setting source.node) (value : Value) :
    result = .ok value ↔ recalled setting earlier source = some value := by
  obtain ⟨walker, before, rfl, -, honest⟩ := Obeys.happening (obeys_recallRule course) split
  exact honest unevaluable value

/-- Only nodes without an evaluator write outputs, and no output twice at once. -/
theorem unevaluable_of_stored (wired : Wired Registry.builtin setting.circuit)
    (course : (start setting depth entry context).Leads past rest)
    {values : List (String × Value)}
    (split : happenings past = later ++ .stored node values :: earlier) :
    Unevaluable setting node ∧ (values.map Prod.fst).Nodup := by
  obtain ⟨distinct, writer⟩ := lawful_of_course wired course split
  exact ⟨unevaluable_of_isOf wired (writer.imp And.left id), distinct⟩

end courses

/-- Once a node has written an output, and until the output is superseded, a read of it
returns what was written if and only if the node is outside the volatile scope or no
variable was written in between. No other value is ever read. -/
theorem read_written_iff {graph : Graph} {circuit : Circuit}
    (loaded : load Registry.builtin graph = .ok circuit)
    {invocation capability : String} {maxIterations maxSnapshot depth : Nat} {entry : String}
    {context : Context} {past : Past} {rest : Walk (Except Fault Unit × Walker)}
    (course : (start (.of circuit invocation capability maxIterations maxSnapshot) depth entry
      context).Leads past rest)
    {later between earlier : List Happening} {node pin : String} {value : Value}
    {values : List (String × Value)} {result : Except Fault Value}
    (split : happenings past =
      later ++ .read ⟨node, pin⟩ result :: (between ++ .stored node values :: earlier))
    (written : (pin, value) ∈ values)
    (kept : ∀ happening ∈ between, ¬ Supersedes circuit ⟨node, pin⟩ happening) :
    (result = .ok value ↔ ¬ (node ∈ circuit.volatileScope ∧ Assigns between)) ∧
      ∀ other, result = .ok other → other = value := by
  have storedSplit : happenings past =
      (later ++ .read ⟨node, pin⟩ result :: between) ++ .stored node values :: earlier := by
    rw [split]
    simp
  obtain ⟨unevaluable, distinct⟩ :=
    unevaluable_of_stored (wired_of_load loaded) course storedSplit
  have honest := read_iff_recalled course split unevaluable
  have remembered : recalled (.of circuit invocation capability maxIterations maxSnapshot)
      (.stored node values :: earlier) ⟨node, pin⟩ = some value :=
    Recollection.storeMany_of_mem _ distinct written
  obtain ⟨lost, stays⟩ := recalled_written remembered kept fun after again before same => by
    have reread : happenings past = (later ++ .read ⟨node, pin⟩ result :: after) ++
        .read ⟨node, pin⟩ again :: (before ++ .stored node values :: earlier) := by
      rw [split, same]
      simp
    exact fun value => (read_iff_recalled course reread unevaluable value).mp
  by_cases forgotten : node ∈ circuit.volatileScope ∧ Assigns between
  · have none : ∀ other, result ≠ .ok other := fun other same => by
      have known := (honest other).mp same
      rw [lost forgotten] at known
      cases known
    exact ⟨⟨fun same => absurd same (none value), fun not => absurd forgotten not⟩,
      fun other same => absurd same (none other)⟩
  · have known := stays forgotten
    refine ⟨⟨fun _ => forgotten, fun _ => (honest value).mpr known⟩, fun other same => ?_⟩
    exact Option.some.inj (((honest other).mp same).symm.trans known)

/-- A loop over the output of a node: its body writes a variable, then logs the element. -/
def markingLoop (array : Node) : Graph where
  id := "loop"
  nodes := [
    { id := "start", kind := "on_event" },
    { id := "init", kind := "set_variable",
      config := [("name", .str "list"), ("value", .arr [.int 1, .int 2])] },
    array,
    { id := "each", kind := "for_each" },
    { id := "mark", kind := "set_variable",
      config := [("name", .str "seen"), ("value", .bool true)] },
    { id := "say", kind := "log" }]
  edges := [
    ⟨⟨"start", "then"⟩, ⟨"init", "exec"⟩⟩, ⟨⟨"init", "then"⟩, ⟨"each", "exec"⟩⟩,
    ⟨⟨"list", "value"⟩, ⟨"each", "array"⟩⟩, ⟨⟨"each", "loop_body"⟩, ⟨"mark", "exec"⟩⟩,
    ⟨⟨"mark", "then"⟩, ⟨"say", "exec"⟩⟩, ⟨⟨"each", "element"⟩, ⟨"say", "message"⟩⟩]

/-- The loop over a literal, whose node is not in the volatile scope. -/
def literalLoop : Graph :=
  markingLoop { id := "list", kind := "constant", config := [("value", .arr [.int 1, .int 2])] }

/-- The loop over a variable, whose node is. -/
def variableLoop : Graph :=
  markingLoop { id := "list", kind := "get_variable", config := [("name", .str "list")] }

/-- From the writing of the first element to its reading in the body. -/
def bodyUpToSay : List Happening :=
  [.executing "say", .followed ⟨"mark", "then"⟩ ⟨"say", "exec"⟩, .traversing ⟨"mark", "then"⟩,
    .executed "mark" (.ok (.next "then")), .assigned "seen" (.bool true),
    .supplied "mark" "value" (.bool true), .executing "mark",
    .followed ⟨"each", "loop_body"⟩ ⟨"mark", "exec"⟩, .traversing ⟨"each", "loop_body"⟩]

theorem bodyUpToSay_keeps (circuit : Circuit) (ref : PinRef) :
    ∀ happening ∈ bodyUpToSay, ¬ Supersedes circuit ref happening := by
  simp [bodyUpToSay, Supersedes]

theorem read_written_iff_literalLoop :
    ((.ok (.int 1) : Except Fault Value) = .ok (.int 1) ↔
        ¬ ("each" ∈ (ofGraph literalLoop).volatileScope ∧ Assigns bodyUpToSay)) ∧
      ∀ other, (.ok (.int 1) : Except Fault Value) = .ok other → other = .int 1 := by
  have loaded : load Registry.builtin literalLoop = .ok (.ofGraph literalLoop) := rfl
  have split : happenings (tour literalLoop [] 43).1 =
      [] ++ .read ⟨"each", "element"⟩ (.ok (.int 1)) ::
        (bodyUpToSay ++ .stored "each" [("element", .int 1), ("index", .int 0)] ::
          happenings (tour literalLoop [] 26).1) := rfl
  exact read_written_iff loaded (leads_tour literalLoop [] 43) split List.mem_cons_self
    (bodyUpToSay_keeps _ _)

/-- In the loop over a variable nothing supersedes the first element between its writing
and its reading in the body, and yet the read fails. -/
theorem element_lost_in_body :
    load Registry.builtin variableLoop = .ok (.ofGraph variableLoop) ∧
    ∃ past rest later between earlier,
      (start (.of (.ofGraph variableLoop) "" "" 10 10) 100 "start" {}).Leads past rest ∧
      happenings past =
        later ++ .read ⟨"each", "element"⟩
            (.error (.evaluation "each" (.onlyInsideLoop "element"))) ::
          (between ++ .stored "each" [("element", .int 1), ("index", .int 0)] :: earlier) ∧
      ∀ happening ∈ between,
        ¬ Supersedes (.ofGraph variableLoop) ⟨"each", "element"⟩ happening := by
  let between : List Happening :=
    .evaluated ⟨"each", "element"⟩ (.error (.evaluation "each" (.onlyInsideLoop "element"))) ::
      .evaluating ⟨"each", "element"⟩ [] :: bodyUpToSay
  refine ⟨rfl, _, _, [], between, happenings (tour variableLoop [] 26).1,
    leads_tour variableLoop [] 46, rfl, ?_⟩
  intro happening member
  rcases List.mem_cons.mp member with rfl | member
  · exact id
  · rcases List.mem_cons.mp member with rfl | member
    · exact id
    · exact bodyUpToSay_keeps _ _ happening member

end Pinflow.Walk
