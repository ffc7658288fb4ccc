import EffectGraph.Bytes.Basic
import EffectGraph.Snapshot.Basic
/-!
# Snapshots in bytes

The binary form of stored graphs and stored definitions: the fields of a record in order, an
alternative by its place in its list of alternatives followed by its content, a table as the
sequence of its entries. Writing refuses a snapshot that holds a foreign object.

Arrays of values and array types nest; they are read at a bound on the nesting, for which the number
of bytes is always enough.
-/

namespace EffectGraph

open Bytes

/-! ## Writing -/

namespace Value

mutual

/-- The bytes of a value, if it holds no foreign object. -/
def toBytes? : Value → Option Bytes
  | null => some (writeNat 0)
  | bool b => some (writeNat 1 ++ writeBool b)
  | int i => some (writeNat 2 ++ writeInt i.toInt)
  | float x => some (writeNat 3 ++ Bytes.ofNat 8 x.bits.toNat)
  | string s => some (writeNat 4 ++ writeString s)
  | card id => some (writeNat 5 ++ writeNat id.toNat)
  | buff id => some (writeNat 6 ++ writeNat id.toNat)
  | player id => some (writeNat 7 ++ writeNat id.toNat)
  | array items => (allToBytes? items).map fun bs => writeNat 8 ++ writeNat items.length ++ bs
  | foreign _ => none

def allToBytes? : List Value → Option Bytes
  | [] => some []
  | v :: vs => do
    let b ← v.toBytes?
    let bs ← allToBytes? vs
    some (b ++ bs)

end

end Value

def ValueType.toBytes : ValueType → Bytes
  | any => writeNat 0
  | bool => writeNat 1
  | int => writeNat 2
  | float => writeNat 3
  | string => writeNat 4
  | card => writeNat 5
  | buff => writeNat 6
  | player => writeNat 7
  | object name => writeNat 8 ++ writeString name
  | array e => writeNat 9 ++ e.toBytes

def PortDecl.toBytes (d : PortDecl) : Bytes :=
  d.type.toBytes ++ writeString d.name ++ writeString d.displayName ++ writeBool d.isVariadic ++
    writeBool d.isControl

/-- The bytes of the entries of a table of values, if it holds no foreign object. -/
def entriesToBytes? : List (String × Value) → Option Bytes
  | [] => some []
  | (k, v) :: es => do
    let b ← v.toBytes?
    let bs ← entriesToBytes? es
    some (writeString k ++ b ++ bs)

/-- The bytes of a table of values, if it holds no foreign object. -/
def valuesToBytes? (t : Table String Value) : Option Bytes :=
  (entriesToBytes? t.entries).map fun bs => writeNat t.size ++ bs

def Position.toBytes (p : Position) : Bytes :=
  Bytes.ofNat 4 p.x.bits.toNat ++ Bytes.ofNat 4 p.y.bits.toNat

def StoredKind.toBytes : StoredKind → Bytes
  | action define => writeNat 0 ++ writeString define
  | entry => writeNat 1
  | result => writeNat 2

def ConnectionKind.toBytes : ConnectionKind → Bytes
  | control => writeNat 0
  | value => writeNat 1

/-- The bytes of a stored node, if it holds no foreign object. -/
def NodeRecord.toBytes? (r : NodeRecord) : Option Bytes := do
  let consts ← valuesToBytes? r.consts
  let defaults ← valuesToBytes? r.defaults
  some (writeNat r.id.toNat ++ r.position.toBytes ++ r.kind.toBytes ++ consts ++ defaults)

def nodesToBytes? : List NodeRecord → Option Bytes
  | [] => some []
  | r :: rs => do
    let b ← r.toBytes?
    let bs ← nodesToBytes? rs
    some (b ++ bs)

def ConnectionRecord.toBytes (r : ConnectionRecord) : Bytes :=
  writeNat r.sourceNode.toNat ++ writeString r.sourcePort ++ writeNat r.destNode.toNat ++
    writeString r.destPort ++ writeNat r.destSlot.toNat ++ r.kind.toBytes

/-- The bytes of a snapshot, if it holds no foreign object. -/
def Snapshot.toBytes? (s : Snapshot) : Option Bytes :=
  (nodesToBytes? s.nodes).map fun bs =>
    writeNat s.nodes.length ++ bs ++ writeList ConnectionRecord.toBytes s.connections

/-- The bytes of a stored definition, if it holds no foreign object. -/
def DefinitionRecord.toBytes? (r : DefinitionRecord) : Option Bytes :=
  r.graph.toBytes?.map fun graph =>
    writeString r.name ++ writeList writeString r.obsoleteNames ++
      writeOption writeString r.obsoleteMessage ++ writeList PortDecl.toBytes r.inputs ++
      writeList PortDecl.toBytes r.consts ++ writeList PortDecl.toBytes r.outputs ++ graph

/-! ## Reading -/

open ByteReader

def Value.ofBytes? : Nat → ByteReader Value
  | 0, _ => none
  | bound + 1, bs => do
    let (tag, bs) ← nat 4 bs
    if tag = 0 then some (null, bs)
    else if tag = 1 then (ByteReader.bool bs).map fun p => (bool p.1, p.2)
    else if tag = 2 then (int64 bs).map fun p => (int p.1, p.2)
    else if tag = 3 then (fixed 8 bs).map fun p => (float ⟨p.1.toUInt64⟩, p.2)
    else if tag = 4 then (ByteReader.string bs).map fun p => (string p.1, p.2)
    else if tag = 5 then (uint64 bs).map fun p => (card p.1, p.2)
    else if tag = 6 then (uint64 bs).map fun p => (buff p.1, p.2)
    else if tag = 7 then (uint64 bs).map fun p => (player p.1, p.2)
    else if tag = 8 then (list (Value.ofBytes? bound) bs).map fun p => (array p.1, p.2)
    else none

def ValueType.ofBytes? : Nat → ByteReader ValueType
  | 0, _ => none
  | bound + 1, bs => do
    let (tag, bs) ← nat 4 bs
    if tag = 0 then some (any, bs)
    else if tag = 1 then some (bool, bs)
    else if tag = 2 then some (int, bs)
    else if tag = 3 then some (float, bs)
    else if tag = 4 then some (string, bs)
    else if tag = 5 then some (card, bs)
    else if tag = 6 then some (buff, bs)
    else if tag = 7 then some (player, bs)
    else if tag = 8 then (ByteReader.string bs).map fun p => (object p.1, p.2)
    else if tag = 9 then (ValueType.ofBytes? bound bs).map fun p => (array p.1, p.2)
    else none

def PortDecl.ofBytes? : ByteReader PortDecl := fun bs => do
  let (type, bs) ← ValueType.ofBytes? bs.length bs
  let (name, bs) ← string bs
  let (displayName, bs) ← string bs
  let (isVariadic, bs) ← bool bs
  let (isControl, bs) ← bool bs
  some (⟨type, name, displayName, isVariadic, isControl⟩, bs)

def entryOfBytes? : ByteReader (String × Value) := fun bs => do
  let (k, bs) ← string bs
  let (v, bs) ← Value.ofBytes? bs.length bs
  some ((k, v), bs)

/-- Reads a table of values. Of two entries with one key the later counts. -/
def valuesOfBytes? : ByteReader (Table String Value) := fun bs =>
  (list entryOfBytes? bs).map fun p => (.ofList p.1, p.2)

def Position.ofBytes? : ByteReader Position := fun bs => do
  let (x, bs) ← fixed 4 bs
  let (y, bs) ← fixed 4 bs
  some (⟨⟨x.toUInt32⟩, ⟨y.toUInt32⟩⟩, bs)

def StoredKind.ofBytes? : ByteReader StoredKind := fun bs => do
  let (tag, bs) ← nat 4 bs
  if tag = 0 then (string bs).map fun p => (action p.1, p.2)
  else if tag = 1 then some (entry, bs)
  else if tag = 2 then some (result, bs)
  else none

def ConnectionKind.ofBytes? : ByteReader ConnectionKind := fun bs => do
  let (tag, bs) ← nat 4 bs
  if tag = 0 then some (control, bs)
  else if tag = 1 then some (value, bs)
  else none

def NodeRecord.ofBytes? : ByteReader NodeRecord := fun bs => do
  let (id, bs) ← uint32 bs
  let (position, bs) ← Position.ofBytes? bs
  let (kind, bs) ← StoredKind.ofBytes? bs
  let (consts, bs) ← valuesOfBytes? bs
  let (defaults, bs) ← valuesOfBytes? bs
  some (⟨id, position, kind, consts, defaults⟩, bs)

def ConnectionRecord.ofBytes? : ByteReader ConnectionRecord := fun bs => do
  let (sourceNode, bs) ← uint32 bs
  let (sourcePort, bs) ← string bs
  let (destNode, bs) ← uint32 bs
  let (destPort, bs) ← string bs
  let (destSlot, bs) ← uint32 bs
  let (kind, bs) ← ConnectionKind.ofBytes? bs
  some (⟨sourceNode, sourcePort, destNode, destPort, destSlot, kind⟩, bs)

def Snapshot.ofBytes? : ByteReader Snapshot := fun bs => do
  let (nodes, bs) ← list NodeRecord.ofBytes? bs
  let (connections, bs) ← list ConnectionRecord.ofBytes? bs
  some (⟨nodes, connections⟩, bs)

def DefinitionRecord.ofBytes? : ByteReader DefinitionRecord := fun bs => do
  let (name, bs) ← string bs
  let (obsoleteNames, bs) ← list string bs
  let (obsoleteMessage, bs) ← optional string bs
  let (inputs, bs) ← list PortDecl.ofBytes? bs
  let (consts, bs) ← list PortDecl.ofBytes? bs
  let (outputs, bs) ← list PortDecl.ofBytes? bs
  let (graph, bs) ← Snapshot.ofBytes? bs
  some (⟨name, obsoleteNames, obsoleteMessage, inputs, consts, outputs, graph⟩, bs)

/-! ## Whole encodings -/

/-- The bytes of a snapshot. -/
def Snapshot.encode (s : Snapshot) : Except GraphError Bytes :=
  match s.toBytes? with
  | some bs => .ok bs
  | none => .error (.codec .writeBytes)

/-- The snapshot at the start of a list of bytes. -/
def Snapshot.decode (bs : Bytes) : Except GraphError Snapshot :=
  match Snapshot.ofBytes? bs with
  | some (s, _) => .ok s
  | none => .error (.codec .readBytes)

/-- The bytes of a stored definition. -/
def DefinitionRecord.encode (r : DefinitionRecord) : Except GraphError Bytes :=
  match r.toBytes? with
  | some bs => .ok bs
  | none => .error (.codec .writeBytes)

/-- The stored definition at the start of a list of bytes. -/
def DefinitionRecord.decode (bs : Bytes) : Except GraphError DefinitionRecord :=
  match DefinitionRecord.ofBytes? bs with
  | some (r, _) => .ok r
  | none => .error (.codec .readBytes)

end EffectGraph
