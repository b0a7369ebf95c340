import Pinflow.Proofs.Circuit.Wired
import Pinflow.Proofs.Walk.Upkeep

/-!
# The order of happenings

Control enters and leaves nodes and pins like brackets, and `frames` lists those that are
open. A break that has been raised is handed from frame to frame: while it is `pending`,
one happening is `due`, and nothing else can be asked or announced before it. `Lawful`
says what a happening of a circuit of built-in kinds may be, given what came before it.

`orderRule` puts the three together into a rule for walks; that every walk obeys it is
shown in `Pinflow.Proofs.Walk.Orderly`.
-/

namespace Pinflow.Walk

variable {happening : Happening} {node : String} {result : Except Fault Signal}

/-- What control has entered and not yet left: a node whose executor runs, or an exec
output that is being followed. -/
inductive Frame where
  | node (id : String)
  | pin (source : PinRef)
deriving DecidableEq

/-- The open frames after some happenings, innermost first. -/
def frames : List Happening → List Frame
  | [] => []
  | .executing node :: earlier => .node node :: frames earlier
  | .traversing source :: earlier => .pin source :: frames earlier
  | .executed _ _ :: earlier => (frames earlier).tail
  | .traversed _ _ :: earlier => (frames earlier).tail
  | _ :: earlier => frames earlier

def carried : Happening → Option String
  | .executed node (.ok .break) => some node
  | .executed _ (.ok (.forward (.broken origin))) => some origin
  | .traversed _ (.ok (.broken origin)) => some origin
  | _ => none

/-- The node that raised the break which is on its way. -/
def pending (past : List Happening) : Option String := past.head?.bind carried

/-- How a break leaves a frame. -/
def Frame.handOn (origin : String) : Frame → Happening
  | .node id => .executed id (.ok (.forward (.broken origin)))
  | .pin source => .traversed source (.ok (.broken origin))

/-- How a pending break leaves the innermost frame. -/
def handedOn (past : List Happening) : Option Happening :=
  (pending past).bind fun origin => (frames past).head?.map (Frame.handOn origin)

/-- The happening that has to come next, if there is one. A break node breaks, a break
out of a loop's body leads to the loop's `completed` pin, the loop ends when control comes
back from there, and any other break is handed on. -/
def due (circuit : Circuit) (past : List Happening) : Option Happening :=
  match past.head? with
  | some (.executing node) =>
    if circuit.isOf Kinds.breaks node then some (.executed node (.ok .break)) else none
  | some (.traversed source result) =>
    if source.pin = Loop.completedPin then some (.executed source.node (result.map .forward))
    else if source.pin = Loop.bodyPin ∧ (pending past).isSome then
      some (.traversing ⟨source.node, Loop.completedPin⟩)
    else handedOn past
  | _ => handedOn past

def IsLoopPin (pin : String) : Prop := pin = Loop.bodyPin ∨ pin = Loop.completedPin

instance (pin : String) : Decidable (IsLoopPin pin) := inferInstanceAs (Decidable (_ ∨ _))

/-- What a happening may be, given those before it. Executors and traversals end in the
reverse order of their beginnings. Breaks are raised by break nodes only. Loops alone have
a body; what they put into the memo they put there right after starting it again. -/
def Lawful (circuit : Circuit) (past : List Happening) : Happening → Prop
  | .executed node result =>
    (frames past).head? = some (.node node) ∧
      (result = .ok .break →
        circuit.isOf Kinds.breaks node = true ∧ past.head? = some (.executing node)) ∧
      ∀ origin, result = .ok (.forward (.broken origin)) → pending past = some origin
  | .traversing source =>
    IsLoopPin source.pin →
      circuit.isOf Kinds.loops source.node = true ∧
        (frames past).head? = some (.node source.node)
  | .traversed source result =>
    (frames past).head? = some (.pin source) ∧
      ∀ origin, result = .ok (.broken origin) → pending past = some origin
  | .stored node values =>
    (values.map Prod.fst).Nodup ∧
      (circuit.isOf Kinds.loops node = true ∧ past.head? = some (.reentered node Loop.bodyPin) ∨
        circuit.isOf Kinds.actions node = true)
  | .reentered loop pin => circuit.isOf Kinds.loops loop = true ∧ pin = Loop.bodyPin
  | .refreshed loop pin => circuit.isOf Kinds.loops loop = true ∧ pin = Loop.bodyPin
  | _ => True

/-- Whether a walk may go on with a happening, or with a question that is none. Nothing
follows a pending break that has no frame left to leave. -/
structure Allowed (circuit : Circuit) (past : List Happening) (next : Option Happening) : Prop where
  prompt : ∀ happening, due circuit past = some happening → next = some happening
  possible : (pending past).isSome → (due circuit past).isSome
  lawful : ∀ happening, next = some happening → Lawful circuit past happening

/-- Every question is one that the happenings so far allow. -/
def orderRule (circuit : Circuit) (q : Query) (past : Past) : Prop :=
  Allowed circuit (happenings past) (happening? q)

/-- Nothing is due and no break is on its way. -/
structure Idle (circuit : Circuit) (past : List Happening) : Prop where
  due : due circuit past = none
  pending : pending past = none

/-- Happenings that open and close no frame. -/
def Plain : Happening → Prop
  | .executing _ | .executed _ _ | .traversing _ | .traversed _ _ => False
  | _ => True

variable {circuit : Circuit} {past : List Happening}

theorem frames_cons_of_plain (plain : Plain happening) :
    frames (happening :: past) = frames past := by
  cases happening <;> first | rfl | cases plain

@[simp] theorem pending_cons (happening : Happening) :
    pending (happening :: past) = carried happening := rfl

namespace Idle

theorem nil : Idle circuit [] := ⟨rfl, rfl⟩

theorem cons_of_plain (plain : Plain happening) : Idle circuit (happening :: past) := by
  cases happening <;> first | exact ⟨rfl, rfl⟩ | cases plain

theorem traversing (source : PinRef) : Idle circuit (.traversing source :: past) := ⟨rfl, rfl⟩

theorem allowed_of_lawful (idle : Idle circuit past) (lawful : Lawful circuit past happening) :
    Allowed circuit past (some happening) := by
  refine ⟨fun other isDue => ?_, fun isPending => ?_, fun other same => ?_⟩
  · rw [idle.due] at isDue
    cases isDue
  · rw [idle.pending] at isPending
    cases isPending
  · cases same
    exact lawful

theorem allowed_none (idle : Idle circuit past) : Allowed circuit past none := by
  refine ⟨fun other isDue => ?_, fun isPending => ?_, by simp⟩
  · rw [idle.due] at isDue
    cases isDue
  · rw [idle.pending] at isPending
    cases isPending

end Idle

theorem Allowed.of_due (isDue : due circuit past = some happening)
    (lawful : Lawful circuit past happening) : Allowed circuit past (some happening) := by
  refine ⟨fun other also => ?_, fun _ => ?_, fun other same => ?_⟩
  · exact isDue.symm.trans also
  · rw [isDue]
    rfl
  · cases same
    exact lawful

/-- What is known when control has come back with a result: a break is on its way out of
the innermost frame, or nothing is due. -/
def Returned (circuit : Circuit) (result : Except Fault Signal) (past : List Happening) : Prop :=
  match result with
  | .ok (.broken origin) => pending past = some origin ∧ due circuit past = handedOn past
  | _ => Idle circuit past

theorem returned_of_traversed {source : PinRef} (other : ¬ IsLoopPin source.pin) :
    Returned circuit result (.traversed source result :: past) := by
  obtain ⟨notBody, notCompleted⟩ := not_or.mp other
  have isDue : due circuit (.traversed source result :: past) =
      handedOn (.traversed source result :: past) := by
    simp [due, notBody, notCompleted]
  rcases result with fault | signal
  · exact ⟨isDue, rfl⟩
  · cases signal with
    | done => exact ⟨isDue, rfl⟩
    | broken => exact ⟨rfl, isDue⟩

/-- A break that comes back from a body leads on to `completed`. -/
theorem due_of_body {origin : String} :
    due circuit (.traversed ⟨node, Loop.bodyPin⟩ (.ok (.broken origin)) :: past) =
      some (.traversing ⟨node, Loop.completedPin⟩) := by
  have other : Loop.bodyPin ≠ Loop.completedPin := by decide
  simp [due, other, carried]

theorem due_of_completed :
    due circuit (.traversed ⟨node, Loop.completedPin⟩ result :: past) =
      some (.executed node (result.map .forward)) := by
  simp [due]

theorem idle_of_body (quiet : ∀ origin, result ≠ .ok (.broken origin)) :
    Idle circuit (.traversed ⟨node, Loop.bodyPin⟩ result :: past) := by
  have other : Loop.bodyPin ≠ Loop.completedPin := by decide
  have none : carried (.traversed ⟨node, Loop.bodyPin⟩ result) = none := by
    rcases result with fault | signal
    · rfl
    · cases signal with
      | done => rfl
      | broken origin => exact absurd rfl (quiet origin)
  refine ⟨?_, none⟩
  simp [due, other, handedOn, none]

theorem idle_of_executed {flow : Except Fault Flow} (quiet : carried (.executed node flow) = none) :
    Idle circuit (.executed node flow :: past) := by
  refine ⟨?_, quiet⟩
  simp [due, handedOn, quiet]

end Pinflow.Walk
