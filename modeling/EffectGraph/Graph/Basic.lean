import EffectGraph.Signature
import EffectGraph.Value.Conversion
/-!
# Action graphs

A graph holds nodes with ports and connections between ports. Ports live in their node; a port is
addressed by the graph that made it and a number that the graph never gives out twice, so an id that
is stale or belongs to another graph resolves to nothing.

The node kinds are a parameter `κ` that only has to show a signature. A graph over definitions can
therefore be looked at as a graph over signatures (`Graph.map`), and a definition can contain a
graph over definitions.

There is no table of ports beside the nodes: a port is what a node lists, and `Graph.portAt?` looks
through these lists. So nothing can be found that no node lists, and a copy of a graph has its ports
under its own identity without a rewriting of ids (`Graph.clone`). Both hold here by the way that
graphs are represented, where a graph with a table of ports has to see to them.

The numbers that ports get and the identities of graphs are counters, and they are without bound
here. In a graph that keeps them in 32 bits, what is proved of edits holds as long as no counter has
come to `2 ^ 32`.
-/

namespace EffectGraph

/-- What passes a connection. -/
inductive ConnectionKind where
  | control
  | value
  deriving DecidableEq

def ConnectionKind.text : ConnectionKind → String
  | control => "control"
  | value => "value"

/-- A directed edge from an output to an input, both given by their numbers in the graph. -/
structure Connection where
  kind : ConnectionKind
  /-- The number of the output. -/
  source : Nat
  /-- The number of the input. -/
  destination : Nat
  deriving DecidableEq

/-- Whether a port is an end of a connection. -/
def Connection.touches (c : Connection) (port : Nat) : Bool :=
  c.source = port || c.destination = port

/-- The end opposite to a port. -/
def Connection.other? (c : Connection) (port : Nat) : Option Nat :=
  if c.source = port then some c.destination
  else if c.destination = port then some c.source
  else none

/-- Where an editor shows a node. -/
structure Position where
  x : Binary32
  y : Binary32
  deriving DecidableEq

def Position.origin : Position := ⟨.zero, .zero⟩

/-- A port of a node. -/
structure Port where
  /-- The number of the port in its graph. -/
  index : Nat
  /-- The declaration that it stands for. -/
  decl : PortDecl
  /-- The place in the group, for a slot of a variadic group. -/
  slot : Option Nat
  deriving DecidableEq

def Port.key (p : Port) : SlotKey := ⟨p.decl.name, p.slot⟩

/-- A port together with its node and the side it is on. -/
structure PlacedPort where
  node : NodeId
  direction : Direction
  port : Port
  deriving DecidableEq

namespace PlacedPort

def role (p : PlacedPort) : PortRole := .of p.direction p.port.decl.isControl

/-- The description of a port in messages. -/
def text (p : PlacedPort) : String :=
  p.role.text ++ " '" ++ p.port.key.text ++ "' on node " ++ p.node.text

end PlacedPort

/-- What a node does: an action of some kind, or one of the two pseudo-nodes that stand for the
inputs and the outputs of the definition that owns the graph. -/
inductive NodeKind (κ : Type) where
  | action (kind : κ)
  | entry
  | result

/-- A node of a graph. -/
structure Node (κ : Type) where
  id : NodeId
  kind : NodeKind κ
  /-- The inputs in order, the slots of a group one after another. -/
  inputs : List Port
  outputs : List Port
  /-- The constants stored on the node. -/
  consts : Table String Value
  /-- The values that inputs take while they are not connected. -/
  defaults : Table SlotKey Value
  position : Position
  /-- For each group, the highest slot that is held open while the graph is being rebuilt. -/
  held : Table String Nat

/-- A graph of action nodes. -/
structure Graph (κ : Type) where
  /-- The identity of the graph, which its port ids carry. -/
  id : Nat
  /-- The nodes in ascending order of their ids. -/
  nodes : List (Node κ)
  /-- The connections, oldest first. -/
  connections : List Connection
  /-- The number that the next new port gets. It only grows, and it is without bound; see above for
  graphs with 32 bits for it. -/
  nextPort : Nat
  /-- The signature of the definition that owns the graph. -/
  signature : Option Signature
  /-- The conversions that decide which types may be connected. -/
  hook : ConversionHook

/-- How many slots a variadic group may have. -/
def slotLimit : Nat := 256

variable {κ : Type}

namespace NodeKind

def action? : NodeKind κ → Option κ
  | action k => some k
  | _ => none

def name [HasSignature κ] : NodeKind κ → String
  | action k => (HasSignature.signature k).name
  | entry => "Entry"
  | result => "Return"

/-- Applies a function to the kind of an action node. -/
def map {μ : Type} (f : κ → μ) : NodeKind κ → NodeKind μ
  | action k => action (f k)
  | entry => entry
  | result => result

end NodeKind

namespace Node

/-- A node without ports or stored values. -/
def fresh (id : NodeId) (kind : NodeKind κ) : Node κ where
  id := id
  kind := kind
  inputs := []
  outputs := []
  consts := .empty
  defaults := .empty
  position := .origin
  held := .empty

/-- The ports of a node, inputs first. -/
def ports (n : Node κ) : List Port := n.inputs ++ n.outputs

def signature? [HasSignature κ] (n : Node κ) : Option Signature :=
  n.kind.action?.map HasSignature.signature

/-- Whether the node is of a kind with a variadic group. -/
def hasVariadic [HasSignature κ] (n : Node κ) : Bool :=
  n.signature?.any fun s => s.inputs.any (·.isVariadic)

def map {μ : Type} (f : κ → μ) (n : Node κ) : Node μ where
  id := n.id
  kind := n.kind.map f
  inputs := n.inputs
  outputs := n.outputs
  consts := n.consts
  defaults := n.defaults
  position := n.position
  held := n.held

end Node

namespace Graph

/-- The graph without nodes. -/
def empty (id : Nat) (hook : ConversionHook) : Graph κ where
  id := id
  nodes := []
  connections := []
  nextPort := 0
  signature := none
  hook := hook

/-- The same graph under another identity. Ports keep their numbers, so the ids of the two graphs
differ in the graph part only. -/
def clone (g : Graph κ) (id : Nat) : Graph κ := { g with id := id }

def map {μ : Type} (f : κ → μ) (g : Graph κ) : Graph μ where
  id := g.id
  nodes := g.nodes.map (Node.map f)
  connections := g.connections
  nextPort := g.nextPort
  signature := g.signature
  hook := g.hook

/-! ## Nodes -/

def node? (g : Graph κ) (n : NodeId) : Option (Node κ) :=
  g.nodes.find? fun m => m.id = n

def nodeIds (g : Graph κ) : List NodeId := g.nodes.map (·.id)

/-- The first number from `candidate` on that does not occur in an ascending list. -/
def firstGap (candidate : UInt32) : List NodeId → UInt32
  | [] => candidate
  | n :: ns =>
    if n.number = candidate then firstGap (candidate + 1) ns
    else if candidate < n.number then candidate
    else firstGap candidate ns

/-- The smallest positive number that is not the id of a node. -/
def nextNodeId (g : Graph κ) : NodeId := ⟨firstGap 1 g.nodeIds⟩

/-- The Entry node with the smallest id. -/
def entryNode? (g : Graph κ) : Option NodeId :=
  (g.nodes.find? fun n => n.kind matches .entry).map (·.id)

/-- The Return node with the smallest id. -/
def resultNode? (g : Graph κ) : Option NodeId :=
  (g.nodes.find? fun n => n.kind matches .result).map (·.id)

/-! ## Ports -/

def portId (g : Graph κ) (index : Nat) : PortId := ⟨g.id, index⟩

/-- The ports of a node with their places, inputs first. -/
def placedPorts (n : Node κ) : List PlacedPort :=
  n.inputs.map (⟨n.id, .input, ·⟩) ++ n.outputs.map (⟨n.id, .output, ·⟩)

/-- The port with a number, sought in the lists of the nodes. -/
def portAt? (g : Graph κ) (index : Nat) : Option PlacedPort :=
  g.nodes.findSome? fun n => (placedPorts n).find? fun p => p.port.index = index

/-- The port that an id denotes. Ids of other graphs denote nothing. -/
def port? (g : Graph κ) (p : PortId) : Option PlacedPort :=
  if p.graph = g.id then g.portAt? p.index else none

/-- The first input of a node with the given name and slot. -/
def input? (g : Graph κ) (n : NodeId) (name : String) (slot : Option Nat) : Option PortId :=
  (g.node? n).bind fun m =>
    (m.inputs.find? fun p => p.decl.name = name && p.slot = slot).map fun p => g.portId p.index

/-- The first output of a node with the given name. -/
def output? (g : Graph κ) (n : NodeId) (name : String) : Option PortId :=
  (g.node? n).bind fun m =>
    (m.outputs.find? fun p => p.decl.name = name).map fun p => g.portId p.index

def controlInput? (g : Graph κ) (n : NodeId) : Option PortId := g.input? n enterName none

/-- The slots of a variadic group in order. -/
def variadicSlots (g : Graph κ) (n : NodeId) (group : String) : List PortId :=
  match g.node? n with
  | none => []
  | some m =>
    (m.inputs.filter fun p => p.decl.name = group && p.slot.isSome).map fun p => g.portId p.index

/-! ## Connections -/

/-- Whether some connection ends at the port with the given number. -/
def isWired (g : Graph κ) (index : Nat) : Bool := g.connections.any (·.touches index)

def isConnected (g : Graph κ) (p : PortId) : Bool := p.graph = g.id && g.isWired p.index

/-- The output that a value input is connected to. -/
def valueSource? (g : Graph κ) (p : PortId) : Option PortId :=
  if p.graph = g.id then
    (g.connections.find? fun c => c.destination = p.index).map fun c => g.portId c.source
  else none

/-- The control input that a control output leads to. -/
def nextControl? (g : Graph κ) (p : PortId) : Option PortId :=
  if p.graph = g.id then
    (g.connections.find? fun c => c.source = p.index).map fun c => g.portId c.destination
  else none

/-- The other ends of the connections of a port, oldest connection first. -/
def neighbours (g : Graph κ) (p : PortId) : List PortId :=
  if p.graph = g.id then
    (g.connections.filterMap fun c => c.other? p.index).map g.portId
  else []

end Graph

end EffectGraph
