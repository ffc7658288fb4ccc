import EffectGraph.Flow.Run
import EffectGraph.Json.Parser
import EffectGraph.Json.Values
import EffectGraph.Snapshot.Basic
/-!
# Snapshots in JSON

The text form of stored graphs, stored definitions and interpreter options. Writing refuses a
snapshot that holds a foreign object. Reading accepts whatever spells a record, with members that
are not fields, with fields in any order, or as an array of the fields.
-/

namespace EffectGraph

open JsonReader

/-! ## Writing -/

def PortDecl.toJson (d : PortDecl) : Json :=
  .record
    [("value_type", d.type.toJson), ("name", .text d.name), ("display_name", .text d.displayName),
      ("is_variadic", .bool d.isVariadic), ("is_control", .bool d.isControl)]

/-- The document of a table of values, if it holds no foreign object. -/
def valuesToJson? (t : Table String Value) : Option Json := do
  let vs ← Value.allToJson? (t.entries.map (·.2))
  some (.record (t.keys.zip vs))

def StoredKind.toJson : StoredKind → Json
  | action define => .tagged "Action" (.record [("define", .text define)])
  | entry => .text "Entry"
  | result => .text "Return"

def ConnectionKind.toJson : ConnectionKind → Json
  | control => .text "Control"
  | value => .text "Value"

/-- The document of a stored node, if it holds no foreign object. -/
def NodeRecord.toJson? (r : NodeRecord) : Option Json := do
  let consts ← valuesToJson? r.consts
  let defaults ← valuesToJson? r.defaults
  some <| .record
    [("id", natJson r.id.toNat),
      ("position", .record [("x", r.position.x.toJson), ("y", r.position.y.toJson)]),
      ("kind", r.kind.toJson), ("consts", consts), ("input_default_values", defaults)]

def ConnectionRecord.toJson (r : ConnectionRecord) : Json :=
  .record
    [("source_node_id", natJson r.sourceNode.toNat), ("source_port_name", .text r.sourcePort),
      ("dest_node_id", natJson r.destNode.toNat), ("dest_port_name", .text r.destPort),
      ("dest_param_index", natJson r.destSlot.toNat), ("kind", r.kind.toJson)]

/-- The document of a snapshot, if it holds no foreign object. -/
def Snapshot.toJson? (s : Snapshot) : Option Json := do
  let nodes ← s.nodes.mapM NodeRecord.toJson?
  some (.record [("nodes", .array nodes), ("connections", .array (s.connections.map (·.toJson)))])

/-- The document of a stored definition, if it holds no foreign object. -/
def DefinitionRecord.toJson? (r : DefinitionRecord) : Option Json := do
  let graph ← r.graph.toJson?
  some <| .record
    [("name", .text r.name), ("obsolete_names", .array (r.obsoleteNames.map .text)),
      ("obsolete_message", r.obsoleteMessage.elim .null .text),
      ("inputs", .array (r.inputs.map (·.toJson))), ("consts", .array (r.consts.map (·.toJson))),
      ("outputs", .array (r.outputs.map (·.toJson))), ("graph", graph)]

def Options.toJson (o : Options) : Json :=
  .record [("max_call_depth", natJson o.maxCallDepth), ("log_node_errors", .bool o.logNodeErrors)]

/-! ## Reading -/

def PortDecl.ofJson? : JsonReader PortDecl :=
  record ["value_type", "name", "display_name", "is_variadic", "is_control"] fun levels f => do
    let type ← f.require 0 (ValueType.ofJson? levels)
    let name ← f.require 1 (string levels)
    let displayName ← f.require 2 (string levels)
    let isVariadic ← f.getD 3 false (bool levels)
    let isControl ← f.getD 4 false (bool levels)
    some ⟨type, name, displayName, isVariadic, isControl⟩

def Position.ofJson? : JsonReader Position :=
  record ["x", "y"] fun levels f => do
    let x ← f.require 0 (binary32 levels)
    let y ← f.require 1 (binary32 levels)
    some ⟨x, y⟩

def StoredKind.ofJson? : JsonReader StoredKind := fun levels v => do
  let c ← choice? levels v
  if c.tag = "Action" then
    (c.read (record ["define"] fun levels f => f.require 0 (string levels))).map action
  else if c.tag = "Entry" ∧ c.isUnit then some entry
  else if c.tag = "Return" ∧ c.isUnit then some result
  else none

def ConnectionKind.ofJson? : JsonReader ConnectionKind := fun levels v => do
  let c ← choice? levels v
  if c.tag = "Control" ∧ c.isUnit then some control
  else if c.tag = "Value" ∧ c.isUnit then some value
  else none

def NodeRecord.ofJson? : JsonReader NodeRecord :=
  record ["id", "position", "kind", "consts", "input_default_values"] fun levels f => do
    let id ← f.require 0 (uint32 levels)
    let position ← f.require 1 (Position.ofJson? levels)
    let kind ← f.require 2 (StoredKind.ofJson? levels)
    let consts ← f.require 3 (table Value.ofJson? levels)
    let defaults ← f.require 4 (table Value.ofJson? levels)
    some ⟨id, position, kind, consts, defaults⟩

def ConnectionRecord.ofJson? : JsonReader ConnectionRecord :=
  record
    ["source_node_id", "source_port_name", "dest_node_id", "dest_port_name", "dest_param_index",
      "kind"]
    fun levels f => do
      let sourceNode ← f.require 0 (uint32 levels)
      let sourcePort ← f.require 1 (string levels)
      let destNode ← f.require 2 (uint32 levels)
      let destPort ← f.require 3 (string levels)
      let destSlot ← f.require 4 (uint32 levels)
      let kind ← f.require 5 (ConnectionKind.ofJson? levels)
      some ⟨sourceNode, sourcePort, destNode, destPort, destSlot, kind⟩

def Snapshot.ofJson? : JsonReader Snapshot :=
  record ["nodes", "connections"] fun levels f => do
    let nodes ← f.require 0 (list NodeRecord.ofJson? levels)
    let connections ← f.require 1 (list ConnectionRecord.ofJson? levels)
    some ⟨nodes, connections⟩

def DefinitionRecord.ofJson? : JsonReader DefinitionRecord :=
  record ["name", "obsolete_names", "obsolete_message", "inputs", "consts", "outputs", "graph"]
    fun levels f => do
      let name ← f.require 0 (string levels)
      let obsoleteNames ← f.require 1 (list string levels)
      let obsoleteMessage ← f.optional 2 (optional string levels)
      let inputs ← f.require 3 (list PortDecl.ofJson? levels)
      let consts ← f.require 4 (list PortDecl.ofJson? levels)
      let outputs ← f.require 5 (list PortDecl.ofJson? levels)
      let graph ← f.require 6 (Snapshot.ofJson? levels)
      some ⟨name, obsoleteNames, obsoleteMessage, inputs, consts, outputs, graph⟩

/-- Reads interpreter options. Either may be left out for its usual value. -/
def Options.ofJson? : JsonReader Options :=
  record ["max_call_depth", "log_node_errors"] fun levels f => do
    let usual : Options := {}
    let depth ← f.getD 0 usual.maxCallDepth fun v => (uint64 levels v).map (·.toNat)
    let log ← f.getD 1 usual.logNodeErrors (bool levels)
    some ⟨depth, log⟩

/-! ## Texts -/

/-- Reads a text with the nesting that a document may have. -/
def JsonReader.ofText? {α : Type} (reader : JsonReader α) (s : String) : Option α :=
  (Json.parse? s).bind (reader levels)

/-- The JSON text of a snapshot, with indentation. -/
def Snapshot.jsonText (s : Snapshot) : Except GraphError String :=
  match s.toJson? with
  | some v => .ok v.pretty
  | none => .error (.codec .writeJson)

/-- The snapshot of a JSON text. -/
def Snapshot.ofJsonText (s : String) : Except GraphError Snapshot :=
  match Snapshot.ofJson?.ofText? s with
  | some r => .ok r
  | none => .error (.codec .readJson)

/-- The JSON text of a stored definition, with indentation. -/
def DefinitionRecord.jsonText (r : DefinitionRecord) : Except GraphError String :=
  match r.toJson? with
  | some v => .ok v.pretty
  | none => .error (.codec .writeJson)

/-- The stored definition of a JSON text. -/
def DefinitionRecord.ofJsonText (s : String) : Except GraphError DefinitionRecord :=
  match DefinitionRecord.ofJson?.ofText? s with
  | some r => .ok r
  | none => .error (.codec .readJson)

end EffectGraph
