import Pinflow.Json.Record

/-!
# Debug events

What the debugger tells those who watch it: that an invocation paused, went on or
came to its end.
-/

namespace Pinflow

open Json

/-- What a debug event reports. -/
inductive News where
  | paused (invocation node : String) (snapshot : Value)
  | resumed
  | completed
  | stopped
  | error (message : String)

structure Event where
  session : String
  graph : String
  news : News

namespace News

def name : News → String
  | paused .. => "paused"
  | resumed => "resumed"
  | completed => "completed"
  | stopped => "stopped"
  | error _ => "error"

def entries : News → List (String × Value)
  | paused invocation node snapshot =>
    [("invocation_id", .str invocation), ("node_id", .str node), ("snapshot", snapshot)]
  | error message => [("message", .str message)]
  | resumed | completed | stopped => []

end News

namespace Event

def toValue (event : Event) : Value :=
  .object ([("type", .str event.news.name), ("session_id", .str event.session),
    ("graph_id", .str event.graph)] ++ event.news.entries)

def plain (news : News) : Reader Event :=
  .record [.required "session_id", .required "graph_id"] fun depth slots =>
    match slots with
    | [some session, some graph] => do
      let session ← Reader.string depth session
      let graph ← Reader.string depth graph
      some ⟨session, graph, news⟩
    | _ => none

def errorReader : Reader Event :=
  .record [.required "session_id", .required "graph_id", .required "message"] fun depth slots =>
    match slots with
    | [some session, some graph, some message] => do
      let session ← Reader.string depth session
      let graph ← Reader.string depth graph
      let message ← Reader.string depth message
      some ⟨session, graph, .error message⟩
    | _ => none

def pausedReader : Reader Event :=
  .record [.required "session_id", .required "graph_id", .required "invocation_id",
      .required "node_id", .required "snapshot"] fun depth slots =>
    match slots with
    | [some session, some graph, some invocation, some node, some snapshot] => do
      let session ← Reader.string depth session
      let graph ← Reader.string depth graph
      let invocation ← Reader.string depth invocation
      let node ← Reader.string depth node
      let snapshot ← Reader.value depth snapshot
      some ⟨session, graph, .paused invocation node snapshot⟩
    | _ => none

def readerOf? : String → Option (Reader Event)
  | "paused" => some pausedReader
  | "resumed" => some (plain .resumed)
  | "completed" => some (plain .completed)
  | "stopped" => some (plain .stopped)
  | "error" => some errorReader
  | _ => none

/-- Read an event: a table that has its type under `type`, or a list that begins with
the type. -/
def reader : Reader Event := fun depth tree =>
  match tree with
  | .table members =>
    match members.filter fun member => member.1 == some "type" with
    | [(_, .text (some type))] => (readerOf? type).bind fun reader => reader depth tree
    | _ => none
  | .list (.text (some type) :: items) =>
    (readerOf? type).bind fun reader => reader depth (.list items)
  | _ => none

/-- Read an event from a value that holds its stored form. -/
def ofValue? (value : Value) : Option Event := reader maxDepth (.ofValue value)

end Event

end Pinflow
