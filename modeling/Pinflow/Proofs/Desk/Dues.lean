import Pinflow.Proofs.Desk.Floor
import Pinflow.Proofs.Walk.Verdicts

/-!
# What is due on a floor

A hit that a breakpoint has counted is due until the invocation asks for the pause that shows
it. What is due after a question is what the walk then owes.
-/

namespace Pinflow

open Dialogue Invocation List

open Walk (Past verdict)

/-- A hit that no pause has shown yet. -/
structure Due where
  name : String
  graph : String
  node : String
  hits : Nat

/-- The hits that are due, latest first. -/
def dues : List Mark → List Due
  | [] => []
  | .counted name graph node hits :: log => ⟨name, graph, node, hits⟩ :: dues log
  | .deed (.asked name (.pause _ _ _)) :: log => (dues log).filter fun due => due.name != name
  | _ :: log => dues log

def duesOf (name : String) (log : List Mark) : List Due :=
  (dues log).filter fun due => due.name == name

variable {name graph : String} {log marks : List Mark} {q : Query} {past : Past} {birth : Birth}
  {invocation after : Invocation} {world world' : Surroundings} {deeds : List Deed}

/-- A mark with which nobody begins or asks anything and no hit is counted or lost. -/
def Mark.Silent : Mark → Prop
  | .deed (.asked _ _) | .deed (.started _ _ _ _) | .counted _ _ _ _ | .lost _ _ _ _ => False
  | _ => True

theorem counted_of_mem_dues {due : Due} (member : due ∈ dues log) :
    .counted due.name due.graph due.node due.hits ∈ log := by
  fun_induction dues log with
  | case1 => cases member
  | case2 name graph node hits log ih =>
    rcases mem_cons.mp member with rfl | member
    · exact mem_cons_self
    · exact mem_cons_of_mem _ (ih member)
  | case3 log name session node snapshot ih =>
    exact mem_cons_of_mem _ (ih (mem_filter.mp member).1)
  | case4 mark log _ _ ih => exact mem_cons_of_mem _ (ih member)

theorem dues_append_of_silent (silent : ∀ mark ∈ marks, mark.Silent) :
    dues (marks ++ log) = dues log := by
  induction marks with
  | nil => rfl
  | cons mark marks ih =>
    obtain ⟨now, later⟩ := forall_mem_cons.mp silent
    refine Eq.trans ?_ (ih later)
    cases mark with
    | deed deed =>
      cases deed with
      | asked | started => exact now.elim
      | _ => rfl
    | counted | lost => exact now.elim
    | _ => rfl

theorem silent_map_deed (asides : ∀ deed ∈ deeds, Aside name deed) :
    ∀ mark ∈ deeds.map Mark.deed, mark.Silent := by
  refine forall_mem_map.mpr fun deed member => ?_
  cases deed with
  | asked other q => exact absurd rfl ((asides _ member).still.1 q)
  | started => exact absurd rfl ((asides _ member).still.2 _ _ _)
  | _ => trivial

theorem duesOf_asked_pause {session node : String} {snapshot : Value} :
    duesOf name (.deed (.asked name (.pause session node snapshot)) :: log) = [] := by
  rw [duesOf, dues, filter_filter]
  exact filter_eq_nil_iff.mpr fun due _ => by simp

/-- What others put on record leaves what an invocation has due. -/
theorem duesOf_append (quiet : ∀ mark ∈ marks, mark.Silent ∨ mark.name? ≠ some name) :
    duesOf name (marks ++ log) = duesOf name log := by
  induction marks with
  | nil => rfl
  | cons mark marks ih =>
    obtain ⟨now, later⟩ := forall_mem_cons.mp quiet
    refine Eq.trans ?_ (ih later)
    rcases now with silent | other
    · have same : dues ([mark] ++ (marks ++ log)) = dues (marks ++ log) :=
        dues_append_of_silent (forall_mem_singleton.mpr silent)
      exact congrArg (filter _) same
    · cases mark with
      | deed deed =>
        cases deed with
        | asked someone q =>
          have differs : someone ≠ name := fun same => other (congrArg some same)
          cases q with
          | pause =>
            rw [cons_append, duesOf, dues, filter_filter, duesOf]
            refine filter_congr fun due _ => ?_
            by_cases same : due.name = name
            · simpa [same] using Ne.symm differs
            · simp [same]
          | _ => rfl
        | _ => rfl
      | counted someone =>
        have differs : someone ≠ name := fun same => other (congrArg some same)
        exact filter_cons_of_neg (by simpa using differs)
      | _ => rfl

/-- What an invocation owes after these exchanges of its walk. -/
def owes (birth : Birth) (past : Past) : List Due :=
  match verdict past with
  | .stops node hits => [⟨birth.name, birth.circuit.id, node, hits⟩]
  | _ => []

theorem Birth.walk_minds (birth : Birth) :
    WP (Walk.Minding birth.first) (fun result past => Walk.Minded birth.first result.2 past)
      birth.walk [] :=
  (Walk.stepwise_minded _ birth.first).start_keeps _ _ _ ⟨rfl, rfl⟩

namespace Walk

/-- Nothing is owed when a question that may have to wait has been answered. -/
theorem owes_of_answer {answer : q.Answer} (waits : q.MayWait) :
    owes birth (⟨q, answer⟩ :: past) = [] := by
  cases q with
  | pause | act | exhausted => rfl
  | _ => exact waits.elim

/-- Nothing is owed by a walk that asks for neither a session nor a pause. -/
theorem owes_of_allows (allowed : (verdict past).Allows q) (opens : q ≠ .openSession)
    (pauses : ¬ q.Pauses) : owes birth past = [] := by
  rw [owes]
  split
  · rename_i stops
    rw [stops] at allowed
    obtain rfl | ⟨session, snapshot, rfl, -⟩ := allowed
    · exact absurd rfl opens
    · exact absurd trivial pauses
  · rfl

theorem verdict_openSession (session : String) {node : String} {hits : Nat}
    (stops : verdict past = .stops node hits) (settled : ¬ JustOpened past) :
    verdict (⟨.openSession, session⟩ :: past) = .stops node hits := by
  unfold verdict at stops
  split at stops
  · cases stops
  · cases stops
    rfl
  · exact absurd trivial settled
  · cases stops

theorem owes_openSession (session : String) (allowed : (verdict past).Allows .openSession)
    (settled : ¬ JustOpened past) :
    owes birth (⟨.openSession, session⟩ :: past) = owes birth past := by
  cases stops : verdict past with
  | silent =>
    rw [stops] at allowed
    exact absurd rfl allowed.1
  | passes =>
    rw [stops] at allowed
    cases allowed
  | stops => rw [owes, owes, verdict_openSession session stops settled, stops]

end Walk

namespace Invocation

open Floor (notes)

/-- What is due after an answer is what the walk then owes. -/
theorem Replies.duesOf_eq {answer : q.Answer}
    (reply : Replies invocation world q answer after world' deeds)
    (named : invocation.name = birth.name) (graph : invocation.graph = birth.circuit.id)
    (allowed : (verdict past).Allows q) (careful : Walk.Careful q past)
    (owed : duesOf birth.name log = owes birth past) :
    duesOf birth.name (notes invocation world ⟨q, answer⟩ ++
      (deeds.map .deed ++ .deed (.asked invocation.name q) :: log)) =
      owes birth (⟨q, answer⟩ :: past) := by
  have asides := silent_map_deed fun _ => reply.aside
  rw [named]
  cases reply with
  | token | @acts action payload answer now | ticket | announce moment =>
    exact owed.trans (Walk.owes_of_allows allowed nofun id)
  | visit node vars =>
    have nothing : duesOf birth.name (.deed (.asked birth.name (.visit node vars)) :: log) = [] :=
      owed.trans (Walk.owes_of_allows allowed nofun id)
    cases (world.debugger.visit invocation.graph node vars).1 with
    | none => exact nothing
    | some hits =>
      rw [notes, named, graph, singleton_append, duesOf, dues]
      refine (filter_cons_of_pos ?_).trans (congrArg (_ :: ·) nothing)
      exact beq_self_eq_true birth.name
  | opens =>
    have settled : ¬ Walk.JustOpened past := by
      intro opened
      obtain ⟨_, _, _, same⟩ := careful.prompt opened
      cases same
    exact owed.trans (Walk.owes_openSession _ allowed settled).symm
  | refused gone =>
    rw [notes, gone, singleton_append, duesOf, dues, dues_append_of_silent asides, ← duesOf,
      duesOf_asked_pause]
    · rfl
    · nofun
    · nofun
  | impatient begun =>
    rw [notes, begun, nil_append, duesOf, dues_append_of_silent asides, ← duesOf, duesOf_asked_pause]
    rfl

/-- A walk that has to wait leaves nothing due. -/
theorem Waits.duesOf_eq {next : q.Answer → Run}
    (wait : Waits invocation world q next after world' deeds)
    (named : invocation.name = birth.name) (allowed : (verdict past).Allows q)
    (owed : duesOf birth.name log = owes birth past) :
    duesOf birth.name (deeds.map .deed ++ .deed (.asked invocation.name q) :: log) = [] := by
  have asides : ∀ deed ∈ deeds, Aside birth.name deed := fun _ member => .report (wait.aside member)
  rw [duesOf, dues_append_of_silent (silent_map_deed asides), ← duesOf, named]
  cases wait with
  | pauses => exact duesOf_asked_pause
  | acts | exhausted => exact owed.trans (Walk.owes_of_allows allowed nofun id)

end Invocation

end Pinflow
