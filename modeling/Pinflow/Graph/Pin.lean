import Pinflow.Value.Basic

/-!
# Pins

A node has typed input and output pins. An `exec` pin carries control and no data;
every other pin carries a value, and a `wildcard` pin carries a value of any type.
-/

namespace Pinflow

inductive PinType where
  | exec
  | string
  | number
  | boolean
  | object
  | array
  | wildcard
deriving DecidableEq

namespace PinType

def all : List PinType := [exec, string, number, boolean, object, array, wildcard]

def name : PinType → String
  | exec => "exec"
  | string => "string"
  | number => "number"
  | boolean => "boolean"
  | object => "object"
  | array => "array"
  | wildcard => "wildcard"

def ofName? (name : String) : Option PinType := all.find? fun t => t.name == name

def isExec (t : PinType) : Bool := t == .exec

/-- May an output of this type feed an input of that type? Control goes to control,
and data goes to data of its own type or through a wildcard. -/
def feeds (source target : PinType) : Bool :=
  if source.isExec || target.isExec then source.isExec && target.isExec
  else source == .wildcard || target == .wildcard || source == target

end PinType

inductive Direction where
  | input
  | output
deriving DecidableEq

def Direction.name : Direction → String
  | input => "input"
  | output => "output"

/-- A declared pin. The default stands in for an input that is neither wired nor
set in the node's config; a required input must not end up null. -/
structure Pin where
  id : String
  type : PinType
  direction : Direction
  required : Bool := false
  default : Option Value := none

namespace Pin

def input (id : String) (type : PinType) : Pin := { id, type, direction := .input }

def output (id : String) (type : PinType) : Pin := { id, type, direction := .output }

def execIn (id : String) : Pin := input id .exec

def execOut (id : String) : Pin := output id .exec

def isRequired (pin : Pin) : Pin := { pin with required := true }

def withDefault (pin : Pin) (value : Value) : Pin := { pin with default := some value }

end Pin

/-- The pins of a node. A pin is known by its id; of several with one id the first
counts. -/
structure Schema where
  inputs : List Pin := []
  outputs : List Pin := []

namespace Schema

def input? (schema : Schema) (id : String) : Option Pin :=
  schema.inputs.find? fun pin => pin.id == id

def output? (schema : Schema) (id : String) : Option Pin :=
  schema.outputs.find? fun pin => pin.id == id

/-- The outputs that carry control, in declared order. -/
def execOutputs (schema : Schema) : List Pin :=
  schema.outputs.filter fun pin => pin.type.isExec

/-- The inputs that carry data, in declared order. -/
def dataInputs (schema : Schema) : List Pin :=
  schema.inputs.filter fun pin => !pin.type.isExec

end Schema

end Pinflow
