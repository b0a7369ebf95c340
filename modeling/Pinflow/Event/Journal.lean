import Pinflow.Event.Basic
import Pinflow.Files.Path
import Pinflow.Snapshot

/-!
# The event journal

The debug events of one graph as log entries, and the name of the directory that
holds the log of a graph.
-/

namespace Pinflow.Journal

/-- Graph ids as directory names: everything but ASCII letters, digits, `-` and `_`
becomes `_`. -/
def directory (graph : String) : String :=
  String.ofList (graph.toList.map fun c =>
    if c.isAlphanum || c == '-' || c == '_' then c else '_')

/-- Can the directory of a graph be made? A graph with a long id has no log. -/
def hasDirectory (graph : String) : Bool := (directory graph).utf8ByteSize ≤ Path.maxName

/-- The detail of an entry. Snapshots are included up to a size, if one is given. -/
def detail (snapshots : Option Nat) : News → List (String × Value)
  | .paused invocation node snapshot =>
    let included := match snapshots with
      | some most => [("snapshot", snapshot.bounded most)]
      | none => []
    [("node_id", .str node), ("detail", .object (("invocation_id", .str invocation) :: included))]
  | .error message => [("detail", .object [("message", .str message)])]
  | .resumed | .completed | .stopped => []

def entry (snapshots : Option Nat) (event : Event) : Value :=
  .object ([("session_id", .str event.session), ("event_type", .str event.news.name)] ++
    detail snapshots event.news)

def entries (graph : String) (snapshots : Option Nat) (events : List Event) : List Value :=
  (events.filter fun event => event.graph == graph).map (entry snapshots)

end Pinflow.Journal
