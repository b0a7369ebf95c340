import Pinflow.Proofs.Circuit.Wired
import Pinflow.Proofs.Trace.Story
import Pinflow.Proofs.Walk.Upkeep

/-!
# Steps lie inside each other

In a `Nested` story the end of a step is told while that step is the innermost open one, an
evaluator is announced with the config of its node, and an exec edge as the circuit has it.
`Pinflow.Proofs.Walk.Evaluations` shows that walks tell no other stories.
-/

namespace Pinflow.Walk

variable {circuit : Circuit}

def moment? : Query → Option Moment
  | .announce moment => some moment
  | _ => none

/-- What the observers were told in a past. -/
def story (past : Past) : Story := past.filterMap fun exchange => moment? exchange.query

theorem story_told (happening : Happening) (walker : Walker) (past : Past) :
    story (told happening walker :: past) = ⟨happening, walker⟩ :: story past := rfl

theorem story_cons_of_silent {q : Query} (silent : happening? q = none) (answer : q.Answer)
    (past : Past) : story (⟨q, answer⟩ :: past) = story past := by
  cases q with
  | announce => cases silent
  | _ => rfl

def Innermost (heading : Heading) (story : Story) : Prop :=
  story.opened.head?.map Prod.fst = some heading

/-- A happening that ends a step ends the innermost open one, and configs and edges are as
the circuit has them. -/
def Suits (circuit : Circuit) (earlier : Story) : Happening → Prop
  | .evaluating source config =>
    ∃ part, circuit.part? source.node = some part ∧ part.node.config = config
  | .evaluated source _ => Innermost (.evaluation source) earlier
  | .executed node _ => Innermost (.execution node) earlier
  | .followed source target => circuit.execTarget? source.node source.pin = some target
  | _ => True

def Nested (circuit : Circuit) (story : Story) : Prop :=
  ∀ later moment earlier, story = later ++ moment :: earlier →
    Suits circuit earlier moment.happening

theorem nested_of_suits {rule : Query → Past → Prop} {past : Past}
    (suits : ∀ moment past, rule (.announce moment) past →
      Suits circuit (story past) moment.happening)
    (obeys : History.Obeys rule past) : Nested circuit (story past) := by
  intro later moment earlier split
  obtain ⟨after, most, rfl, -, most_eq⟩ := List.filterMap_eq_append_iff.mp split
  obtain ⟨silent, ⟨q, answer⟩, before, rfl, -, same, rfl⟩ := List.filterMap_eq_cons_iff.mp most_eq
  have allowed := obeys (after ++ silent) q answer before (by rw [List.append_assoc])
  cases q with
  | announce =>
    cases same
    exact suits _ _ allowed
  | _ => cases same

end Pinflow.Walk
