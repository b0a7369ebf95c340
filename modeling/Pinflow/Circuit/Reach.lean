/-!
# Reachability by worklist

The nodes reached from some seeds over a list of arrows. Every arrow is put on the
worklist at most once, when its source is visited, so the number of seeds and arrows
bounds the number of visits.
-/

namespace Pinflow

/-- Arrows between named nodes, as pairs of source and target. -/
abbrev Arrows := List (String × String)

namespace Arrows

def targets (arrows : Arrows) (node : String) : List String :=
  (arrows.filter fun arrow => arrow.1 == node).map Prod.snd

def explore (arrows : Arrows) : (visits : Nat) → (seen worklist : List String) → List String
  | 0, seen, _ => seen
  | _ + 1, seen, [] => seen
  | visits + 1, seen, node :: worklist =>
    if seen.contains node then arrows.explore visits seen worklist
    else arrows.explore visits (node :: seen) (arrows.targets node ++ worklist)

/-- The seeds and everything they lead to. -/
def reach (arrows : Arrows) (seeds : List String) : List String :=
  arrows.explore (seeds.length + arrows.length) [] seeds

end Arrows

end Pinflow
