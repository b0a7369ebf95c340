import Pinflow.Main
import Pinflow.Program.Rehearsal
import Pinflow.Proofs.Archive.Interchange
import Pinflow.Proofs.Circuit.Exactness
import Pinflow.Proofs.Circuit.Volatility
import Pinflow.Proofs.Condition.Grammar
import Pinflow.Proofs.Console.Overrides
import Pinflow.Proofs.Desk.Archiving
import Pinflow.Proofs.Desk.Arrangement
import Pinflow.Proofs.Desk.Blame
import Pinflow.Proofs.Desk.Copies
import Pinflow.Proofs.Desk.Ending
import Pinflow.Proofs.Desk.Hits
import Pinflow.Proofs.Desk.Observation
import Pinflow.Proofs.Desk.Outcomes
import Pinflow.Proofs.Desk.Protocol
import Pinflow.Proofs.Desk.Refusals
import Pinflow.Proofs.Desk.Separation
import Pinflow.Proofs.Event.Delivery
import Pinflow.Proofs.Graph.Roundtrip
import Pinflow.Proofs.Settings.Expansion
import Pinflow.Proofs.Trace.Errors
import Pinflow.Proofs.Value.Nearest
import Pinflow.Proofs.Value.Path
import Pinflow.Proofs.Walk.Loops
import Pinflow.Proofs.Walk.Resolution
import Pinflow.Proofs.Walk.Stacks
import Pinflow.Proofs.Walk.Stale
import Pinflow.Settings.Record
