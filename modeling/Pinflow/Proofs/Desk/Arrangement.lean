import Pinflow.Proofs.Desk.Traces
import Pinflow.Proofs.Walk.Arrangement
import Pinflow.Proofs.Walk.Refinement

/-!
# Desks and authored order

The order in which a graph lists its nodes and edges has no effect. Rearranged graphs are
loaded together or not at all, their circuits agree, and a desk at which one is invoked in
place of the other is the same desk after every play, with all that its invocations have
come to, all that was published and all that was kept.
-/

namespace Pinflow

open Circuit Walk

theorem Invocation.begin_eq_of_agrees {circuit other : Circuit} (agrees : circuit.Agrees other)
    (settings : EngineSettings) (world : Surroundings) (name : String) (identity : Identity)
    (request : Request) :
    begin settings world circuit name identity request =
      begin settings world other name identity request := by
  have walks := serve_eq (Setting.agrees_of agrees identity.invocation
    request.capability.name settings.maxIterations settings.maxSnapshot)
  simp only [begin, nesting, agrees.id, agrees.size, agrees.contains_eq, start, walks]

namespace Desk

inductive Move.Exchanges (circuit other : Circuit) : Move → Move → Prop
  | same (move : Move) : Exchanges circuit other move move
  | start (name : String) (identity : Identity) (request : Request) :
    Exchanges circuit other (.start name identity circuit request)
      (.start name identity other request)

variable {circuit other : Circuit}

theorem make_eq_of_exchanges (agrees : circuit.Agrees other) {move move' : Move}
    (exchanges : move.Exchanges circuit other move') (desk : Desk) :
    desk.make move = desk.make move' := by
  cases exchanges with
  | same => rfl
  | start =>
    rw [make, make, start, start, Invocation.begin_eq_of_agrees agrees]

theorem play_eq_of_exchanges (agrees : circuit.Agrees other) {moves moves' : List Move}
    (exchanges : List.Forall₂ (Move.Exchanges circuit other) moves moves') (desk : Desk) :
    desk.play moves = desk.play moves' := by
  induction exchanges generalizing desk with
  | nil => rfl
  | cons first _ ih => rw [play_cons, play_cons, make_eq_of_exchanges agrees first, ih]

/-- Authored order is irrelevant. -/
theorem authored_order_irrelevant {graph graph' : Graph} (same : graph.Rearranges graph')
    (registry : Registry) :
    ((∃ circuit, load registry graph = .ok circuit) ↔
      ∃ circuit, load registry graph' = .ok circuit) ∧
    ∀ circuit circuit', load registry graph = .ok circuit →
      load registry graph' = .ok circuit' →
      circuit.Agrees circuit' ∧
        ∀ (desk : Desk) (moves moves' : List Move),
          List.Forall₂ (Move.Exchanges circuit circuit') moves moves' →
          desk.play moves = desk.play moves' := by
  refine ⟨⟨?_, ?_⟩, ?_⟩
  · rintro ⟨circuit, loaded⟩
    exact exists_load_of_rearranges same loaded
  · rintro ⟨circuit, loaded⟩
    exact exists_load_of_rearranges same.symm loaded
  · intro circuit circuit' loaded loaded'
    have agrees := agrees_of_load same loaded loaded'
    exact ⟨agrees, fun desk _ _ exchanges => play_eq_of_exchanges agrees exchanges desk⟩

/-- A loop authored from its end to its beginning. -/
def reversedLoop : Graph :=
  { gatheringLoop with
    nodes := gatheringLoop.nodes.reverse, edges := gatheringLoop.edges.reverse }

def loopStart (graph : Graph) : Move :=
  .start "x" ⟨"i", "s", "t"⟩ (.ofGraph graph) { entry := "start" }

/-- The first visit to the remark is paused and resumed with another value. -/
def overridingMoves : List Move :=
  [.edit (.remove "loop" "say"), .resume "s" [("last", .int 7)], .wake "x"]

/-- A pause with an override in the body of a loop. -/
theorem authored_order_irrelevant_reversedLoop :
    let desk := vacant [⟨"loop", "say", true, none, 0⟩]
    let moves := loopStart gatheringLoop :: overridingMoves
    let moves' := loopStart reversedLoop :: overridingMoves
    gatheringLoop.Rearranges reversedLoop ∧
    ((desk.play moves).outcome? "x").map Outcome.lines = some ["[1,7]", "[2,2]"] ∧
    ((desk.play moves').outcome? "x").map Outcome.lines = some ["[1,7]", "[2,2]"] := by
  intro desk moves moves'
  have same : gatheringLoop.Rearranges reversedLoop :=
    ⟨rfl, rfl, (List.reverse_perm _).symm, (List.reverse_perm _).symm⟩
  have loaded : load Registry.builtin gatheringLoop =
      .ok (.ofGraph gatheringLoop) := rfl
  have loaded' : load Registry.builtin reversedLoop = .ok (.ofGraph reversedLoop) := rfl
  have exchanges : List.Forall₂ (Move.Exchanges (.ofGraph gatheringLoop)
      (.ofGraph reversedLoop)) moves moves' :=
    .cons (.start ..) (List.forall₂_same.mpr fun move _ => .same move)
  have lines : ((desk.play moves).outcome? "x").map Outcome.lines = some ["[1,7]", "[2,2]"] := by
    decide +kernel
  obtain ⟨-, plays⟩ := (authored_order_irrelevant same Registry.builtin).2 _ _ loaded loaded'
  refine ⟨same, lines, ?_⟩
  rw [← plays desk moves moves' exchanges]
  exact lines

end Desk

end Pinflow
