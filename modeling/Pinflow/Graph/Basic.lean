import Pinflow.Value.Basic

/-!
# Graphs

A graph as authored: nodes, each of a kind and with a config, and edges from output
pins to input pins. Nothing is checked here; see `Pinflow.Circuit`.
-/

namespace Pinflow

/-- One end of an edge. -/
structure PinRef where
  node : String
  pin : String
deriving DecidableEq

def PinRef.text (ref : PinRef) : String := ref.node ++ "." ++ ref.pin

/-- A wire from an output pin to an input pin. -/
structure Edge where
  source : PinRef
  target : PinRef
deriving DecidableEq

/-- A placed node. The config also holds literal values of unwired inputs, and the
position is where an editor draws the node. -/
structure Node where
  id : String
  kind : String
  config : Fields := []
  position : Option (Float × Float) := none

namespace Node

def configString? (node : Node) (key : String) : Option String :=
  (node.config.get? key).bind Value.asString?

def configNat? (node : Node) (key : String) : Option Nat :=
  (node.config.get? key).bind Value.asNat?

end Node

structure Graph where
  id : String
  name : String := ""
  nodes : List Node := []
  edges : List Edge := []

end Pinflow
