import EffectGraph.Definition.Catalog
/-!
# Snapshots

A snapshot is a graph or a generated definition as it is stored: nodes by id and kind name, ports by
name and slot. It does not depend on the numbers of ports or on the order in which the graph was
edited: nodes are listed by id, connections in the order of their records, and stored values by key.

`Snapshot.ofGraph` takes a snapshot. `Snapshot.rebuild` turns one into a graph again by placing the
nodes and then restoring the connections.
-/

namespace EffectGraph

/-- The kind of a stored node. -/
inductive StoredKind where
  /-- An action node, by the name of its kind. -/
  | action (define : String)
  | entry
  | result
  deriving DecidableEq

/-- A stored node. -/
structure NodeRecord where
  id : UInt32
  position : Position
  kind : StoredKind
  consts : Table String Value
  /-- The defaults of inputs by the text of their slot keys. -/
  defaults : Table String Value
  deriving DecidableEq

/-- A stored connection. -/
structure ConnectionRecord where
  sourceNode : UInt32
  sourcePort : String
  destNode : UInt32
  destPort : String
  /-- Zero for a single port, else the place of the slot counted from one. -/
  destSlot : UInt32
  kind : ConnectionKind
  deriving DecidableEq

/-- A stored graph. -/
structure Snapshot where
  nodes : List NodeRecord
  connections : List ConnectionRecord
  deriving DecidableEq

/-- A stored generated definition. -/
structure DefinitionRecord where
  name : String
  obsoleteNames : List String
  obsoleteMessage : Option String
  inputs : List PortDecl
  consts : List PortDecl
  outputs : List PortDecl
  graph : Snapshot
  deriving DecidableEq

/-! ## Equality of stored values -/

/-- Equality of tables of values, with values compared as values. -/
def sameValues (s t : Table String Value) : Bool :=
  s.keys = t.keys && Value.allSame (s.entries.map (·.2)) (t.entries.map (·.2))

/-- Equality of stored nodes, with numbers compared as numbers. -/
def NodeRecord.same (a b : NodeRecord) : Bool :=
  a.id = b.id && a.position.x.same b.position.x && a.position.y.same b.position.y &&
    a.kind = b.kind && sameValues a.consts b.consts && sameValues a.defaults b.defaults

/-- Equality of snapshots, with numbers compared as numbers: a snapshot that holds a NaN differs
from itself. -/
def Snapshot.same (s t : Snapshot) : Bool :=
  s.nodes.length = t.nodes.length && (s.nodes.zip t.nodes).all (fun p => p.1.same p.2) &&
    s.connections = t.connections

/-- Equality of stored definitions, with numbers compared as numbers. -/
def DefinitionRecord.same (a b : DefinitionRecord) : Bool :=
  a.name = b.name && a.obsoleteNames = b.obsoleteNames && a.obsoleteMessage = b.obsoleteMessage &&
    a.inputs = b.inputs && a.consts = b.consts && a.outputs = b.outputs && a.graph.same b.graph

/-! ## The order of connections -/

/-- The order of two connection records: by source node and port, then by destination node, port and
slot, then control before value. -/
def ConnectionRecord.compare (a b : ConnectionRecord) : Ordering :=
  (Ord.compare a.sourceNode b.sourceNode).then <|
  (Ord.compare a.sourcePort b.sourcePort).then <|
  (Ord.compare a.destNode b.destNode).then <|
  (Ord.compare a.destPort b.destPort).then <|
  (Ord.compare a.destSlot b.destSlot).then <|
  match a.kind, b.kind with
  | .control, .value => .lt
  | .value, .control => .gt
  | _, _ => .eq

/-- Puts a record before the first one that does not come before it. -/
def insertRecord (r : ConnectionRecord) : List ConnectionRecord → List ConnectionRecord
  | [] => [r]
  | s :: ss => if s.compare r = .lt then s :: insertRecord r ss else r :: s :: ss

/-- Connection records in their order. -/
def sortRecords (rs : List ConnectionRecord) : List ConnectionRecord := rs.foldr insertRecord []

/-! ## Taking a snapshot -/

def StoredKind.ofKind {κ : Type} [HasSignature κ] : NodeKind κ → StoredKind
  | .action k => .action (HasSignature.signature k).name
  | .entry => .entry
  | .result => .result

def NodeRecord.ofNode {κ : Type} [HasSignature κ] (n : Node κ) : NodeRecord where
  id := n.id.number
  position := n.position
  kind := .ofKind n.kind
  consts := n.consts
  defaults := .ofList (n.defaults.entries.map fun e => (e.1.text, e.2))

def ConnectionRecord.ofConnection? {κ : Type} (g : Graph κ) (c : Connection) :
    Option ConnectionRecord := do
  let source ← g.portAt? c.source
  let destination ← g.portAt? c.destination
  some
    { sourceNode := source.node.number
      sourcePort := source.port.decl.name
      destNode := destination.node.number
      destPort := destination.port.decl.name
      destSlot := (destination.port.slot.elim 0 (· + 1)).toUInt32
      kind := c.kind }

/-- The snapshot of a graph. -/
def Snapshot.ofGraph {κ : Type} [HasSignature κ] (g : Graph κ) : Snapshot where
  nodes := g.nodes.map .ofNode
  connections := sortRecords (g.connections.filterMap (ConnectionRecord.ofConnection? g))

/-- The stored form of a generated definition. Methods have none. -/
def DefinitionRecord.ofDefinition? (d : Definition) : Option DefinitionRecord :=
  d.inner?.map fun g =>
    { name := d.name
      obsoleteNames := d.obsoleteNames
      obsoleteMessage := d.obsoleteMessage
      inputs := d.signature.inputs
      consts := d.signature.consts
      outputs := d.signature.outputs
      graph := .ofGraph g }

/-! ## Rebuilding -/

namespace Snapshot

/-- The kind of a stored node, by the catalog. -/
def kindOf (c : Catalog) (r : NodeRecord) : Except GraphError (NodeKind Definition) :=
  match r.kind with
  | .entry => .ok .entry
  | .result => .ok .result
  | .action name =>
    match c.get? name with
    | some d => .ok (.action d)
    | none => .error (.noDefinition ⟨r.id⟩ name)

/-- Stores constants on a node one after another. -/
def restoreConsts (n : NodeId) : List (String × Value) → Graph Definition →
    Except GraphError (Graph Definition)
  | [], g => .ok g
  | (name, v) :: rest, g => do restoreConsts n rest (← g.setConst n name v)

/-- Sets defaults of a node one after another, each under the slot key that its text spells. -/
def restoreDefaults (n : NodeId) : List (String × Value) → Graph Definition →
    Except GraphError (Graph Definition)
  | [], g => .ok g
  | (text, v) :: rest, g =>
    match SlotKey.ofText? text with
    | none => .error (.codec (.slotIndex text))
    | some k => do restoreDefaults n rest (← g.setDefault n k v)

/-- Adds a stored node with its position, constants and defaults. -/
def placeNode (c : Catalog) (g : Graph Definition) (r : NodeRecord) :
    Except GraphError (Graph Definition) := do
  let kind ← kindOf c r
  let n : NodeId := ⟨r.id⟩
  let g ← g.addNodeAt n kind
  let g ← g.setPosition n r.position
  let g ← restoreConsts n r.consts.entries g
  restoreDefaults n r.defaults.entries g

def placeNodes (c : Catalog) :
    List NodeRecord → Graph Definition → Except GraphError (Graph Definition)
  | [], g => .ok g
  | r :: rs, g => do placeNodes c rs (← placeNode c g r)

/-- The slot of a group that a stored connection ends at. -/
def slotOf (r : ConnectionRecord) : Option Nat :=
  if r.destSlot = 0 then none else some (r.destSlot.toNat - 1)

/-- Holds the slots open that stored connections end at. -/
def holdSlots : List ConnectionRecord → Graph Definition → Except GraphError (Graph Definition)
  | [], g => .ok g
  | r :: rs, g =>
    match slotOf r with
    | none => holdSlots rs g
    | some i => do holdSlots rs (← g.hold ⟨r.destNode⟩ r.destPort i)

/-- Restores a connection, which has to be of the recorded kind. -/
def restoreConnection (g : Graph Definition) (r : ConnectionRecord) :
    Except GraphError (Graph Definition) := do
  let source ← g.getOutput ⟨r.sourceNode⟩ r.sourcePort
  let destination ← g.getInput ⟨r.destNode⟩ r.destPort (slotOf r)
  let port ← g.getPort source
  let actual : ConnectionKind := if port.port.decl.isControl then .control else .value
  if actual ≠ r.kind then
    .error
      (.wrongKind ⟨r.sourceNode⟩ r.sourcePort ⟨r.destNode⟩ r.destPort r.kind actual)
  else g.connect source destination

def restoreConnections :
    List ConnectionRecord → Graph Definition → Except GraphError (Graph Definition)
  | [], g => .ok g
  | r :: rs, g => do restoreConnections rs (← restoreConnection g r)

/-- The graph without nodes that a snapshot is rebuilt into. -/
def canvas (id : Nat) (signature : Option Signature) : Graph Definition :=
  { Graph.empty id .standard with signature := signature }

/-- Rebuilds the graph of a snapshot under the given identity. A signature is needed if the snapshot
holds Entry or Return nodes. -/
def rebuild (c : Catalog) (id : Nat) (signature : Option Signature) (s : Snapshot) :
    Except GraphError (Graph Definition) := do
  let g ← placeNodes c s.nodes (canvas id signature)
  -- Slots exist only while they are used, so they are held open until the connections are back.
  let g ← holdSlots s.connections g
  let g ← restoreConnections s.connections g
  .ok g.release

/-- The uses of aliases that placing nodes in order has to report: one for each node that is asked
for, up to the first that cannot be placed. -/
def placementNotices (c : Catalog) : List NodeRecord → Graph Definition → List AliasUse
  | [], _ => []
  | r :: rs, g =>
    let here := match r.kind with
      | .action name => (c.notice? name).toList
      | _ => []
    match placeNode c g r with
    | .ok g => here ++ placementNotices c rs g
    | .error _ => here

/-- The uses of aliases that a rebuild has to report. -/
def notices (c : Catalog) (id : Nat) (signature : Option Signature) (s : Snapshot) :
    List AliasUse :=
  placementNotices c s.nodes (canvas id signature)

end Snapshot

namespace DefinitionRecord

def signature (r : DefinitionRecord) : Signature := ⟨r.name, r.inputs, r.consts, r.outputs⟩

/-- Rebuilds a stored definition, its inner graph under the given identity. -/
def rebuild (c : Catalog) (id : Nat) (r : DefinitionRecord) :
    Except DefinitionError Definition := do
  let g ← (r.graph.rebuild c id (some r.signature)).mapError (.innerGraph r.name)
  let d ← Definition.generated r.signature g
  .ok ((d.withObsoleteNames r.obsoleteNames).withObsoleteMessage r.obsoleteMessage)

/-- Rebuilds a stored definition and adds it to the catalog. -/
def load (c : Catalog) (id : Nat) (r : DefinitionRecord) :
    Except DefinitionError (Catalog × Definition) := do
  let d ← r.rebuild c id
  .ok (c.register d, d)

end DefinitionRecord

end EffectGraph
