import EffectGraph.Graph.Basic
/-!
# Errors of graphs

The causes for which an edit is refused or a snapshot cannot be turned into a graph, and their
messages.
-/

namespace EffectGraph

/-- Why two ports cannot be connected. -/
inductive Mismatch where
  | sameNode
  /-- The roles, in the order in which the ports were given, do not join. -/
  | roles (first second : PortRole)
  /-- The type of the output does not convert to the type of the input. -/
  | types (source destination : ValueType)
  deriving DecidableEq

def Mismatch.text : Mismatch → String
  | sameNode => "ports belong to the same node"
  | roles first second => "a " ++ first.text ++ " cannot connect to a " ++ second.text
  | types source destination =>
    "type " ++ source.text ++ " does not convert to " ++ destination.text

/-- One of the two pseudo-nodes. -/
inductive PseudoNode where
  | entry
  | result
  deriving DecidableEq

def PseudoNode.text : PseudoNode → String
  | entry => "Entry"
  | result => "Return"

/-- Why stored data could not be read or written. -/
inductive CodecError where
  /-- A key of the stored defaults is no slot key. -/
  | slotIndex (text : String)
  | readJson
  | writeJson
  | readBytes
  | writeBytes
  /-- A file could not be opened; the reason is the system's. -/
  | openFile (path reason : String)
  /-- An open file could not be read; the reason is the system's. -/
  | readFile (path reason : String)
  /-- A file could not be made; the reason is the system's. -/
  | createFile (path reason : String)
  deriving DecidableEq

/-- The message for a text that is no slot key. -/
def slotIndexText (text : String) : String := "invalid slot index in '" ++ text ++ "'"

def CodecError.text : CodecError → String
  | slotIndex text => slotIndexText text
  | readJson => "JSON deserialization failed"
  | writeJson => "JSON serialization failed"
  | readBytes => "Deserialization failed"
  | writeBytes => "Serialization failed"
  | openFile path reason => "Could not open file '" ++ path ++ "': " ++ reason
  | readFile path reason => "Could not read from file '" ++ path ++ "': " ++ reason
  | createFile path reason => "Could not create file '" ++ path ++ "': " ++ reason

/-- Why an edit of a graph is refused, or a stored graph cannot be rebuilt. -/
inductive GraphError where
  | noNode (node : NodeId)
  | noPort (port : PortId)
  | idTaken (node : NodeId)
  | zeroId
  /-- The ports, in the order in which they were given, cannot be connected. -/
  | cannotConnect (first second : PlacedPort) (reason : Mismatch)
  | noDefinition (node : NodeId) (name : String)
  | noSuchPort (node : NodeId) (port : String) (slot : Option Nat)
  | slotBeyondLimit (node : NodeId) (port : String) (index : Nat)
  | wrongKind (sourceNode : NodeId) (sourcePort : String) (destNode : NodeId)
      (destPort : String) (recorded actual : ConnectionKind)
  | pseudoNodes (kind : PseudoNode) (count : Nat)
  | noSignature (kind : PseudoNode)
  | codec (cause : CodecError)
  deriving DecidableEq

def GraphError.message : GraphError → String
  | noNode n => "Node " ++ n.text ++ " not found in graph"
  | noPort p => "Port " ++ p.text ++ " not found in graph"
  | idTaken n => "Node id " ++ n.text ++ " is already in use"
  | zeroId => "Node id must be a positive integer"
  | cannotConnect first second reason =>
    "Cannot connect " ++ first.text ++ " to " ++ second.text ++ ": " ++ reason.text
  | noDefinition n name =>
    "Node '" ++ n.text ++ "' has an unregistered define: '" ++ name ++ "'"
  | noSuchPort n port slot =>
    let place := match slot with
      | some i => " at slot " ++ natText i
      | none => ""
    "Node " ++ n.text ++ " has no port '" ++ port ++ "'" ++ place
  | slotBeyondLimit n port index =>
    "Node " ++ n.text ++ ": slot " ++ natText index ++ " of '" ++ port ++
      "' is past the limit of " ++ natText slotLimit ++ " slots"
  | wrongKind n port m input recorded actual =>
    "Connection " ++ n.text ++ "." ++ port ++ " -> " ++ m.text ++ "." ++ input ++
      " is recorded as " ++ recorded.text ++ " but joins " ++ actual.text ++ " ports"
  | pseudoNodes kind count =>
    "Graph must contain exactly one " ++ kind.text ++ " node, found " ++ natText count
  | noSignature kind =>
    kind.text ++ " nodes can only be placed in a graph owned by a generated define"
  | codec cause => "Codec error: " ++ cause.text

end EffectGraph
