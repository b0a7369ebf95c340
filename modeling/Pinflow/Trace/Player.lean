import Pinflow.Trace.Basic

/-!
# Playback

A cursor over the steps of a trace. A move that would leave the trace leaves the
cursor where it is.
-/

namespace Pinflow

/-- A trace and the step under the cursor. -/
structure Player where
  trace : Trace
  position : Nat := 0

namespace Player

def size (player : Player) : Nat := player.trace.steps.length

/-- The step under the cursor. -/
def current? (player : Player) : Option Step := player.trace.steps[player.position]?

/-- Put the cursor on a step. -/
def seek (player : Player) (position : Nat) : Option Step × Player :=
  if position < player.size then
    let moved := { player with position }
    (moved.current?, moved)
  else (none, player)

/-- Go to the next step. -/
def forward (player : Player) : Option Step × Player := player.seek (player.position + 1)

/-- Go to the step before. -/
def backward (player : Player) : Option Step × Player :=
  match player.position with
  | 0 => (none, player)
  | position + 1 => player.seek position

/-- Go back to the first step. -/
def reset (player : Player) : Player := { player with position := 0 }

end Player

end Pinflow
