import EffectGraph.Graph.Error
import EffectGraph.Graph.Shape
/-!
# Editing graphs

Every edit first checks its arguments and answers with an error if one does not hold; what follows
the checks is total, so a refused edit leaves the graph as it was.

After each edit a value input has at most one connection, a control output has at most one, and a
variadic group shows the slots in use and an empty one after them.
-/

namespace EffectGraph

variable {κ : Type} [HasSignature κ]

namespace Graph

/-! ## Checks -/

/-- The node with the given id, or the error that there is none. -/
def getNode (g : Graph κ) (n : NodeId) : Except GraphError (Node κ) :=
  match g.node? n with
  | some m => .ok m
  | none => .error (.noNode n)

/-- The port that an id denotes, or the error that there is none. -/
def getPort (g : Graph κ) (p : PortId) : Except GraphError PlacedPort :=
  match g.port? p with
  | some q => .ok q
  | none => .error (.noPort p)

/-- A connection that may be made. -/
structure Joint where
  source : PlacedPort
  destination : PlacedPort
  kind : ConnectionKind

/-- Orients two ports by their roles. -/
def orient? (first second : PlacedPort) : Option Joint :=
  match first.role, second.role with
  | .valueOutput, .valueInput => some ⟨first, second, .value⟩
  | .valueInput, .valueOutput => some ⟨second, first, .value⟩
  | .controlOutput, .controlInput => some ⟨first, second, .control⟩
  | .controlInput, .controlOutput => some ⟨second, first, .control⟩
  | _, _ => none

/-- Checks that two ports, given in either order, may be connected, and orients them. -/
def checkConnection (g : Graph κ) (a b : PortId) : Except GraphError Joint := do
  let first ← g.getPort a
  let second ← g.getPort b
  if first.node = second.node then .error (.cannotConnect first second .sameNode)
  else
    match orient? first second with
    | none => .error (.cannotConnect first second (.roles first.role second.role))
    | some joint =>
      let source := joint.source.port.decl.type
      let target := joint.destination.port.decl.type
      if joint.kind = .value ∧ ValueType.feeds g.hook source target = false then
        .error (.cannotConnect first second (.types source target))
      else .ok joint

/-- Whether two ports, given in either order, may be connected. -/
def canConnect (g : Graph κ) (a b : PortId) : Bool :=
  match g.checkConnection a b with
  | .ok _ => true
  | .error _ => false

/-- The declaration that an input slot of a node goes back to: an input of the kind of an action
node, an output of the graph's signature for the Return node. -/
def slotDecl? (g : Graph κ) (n : Node κ) (name : String) : Option PortDecl :=
  match n.kind with
  | .action k => (HasSignature.signature k).input? name
  | .result => g.signature.bind fun s => s.output? name
  | .entry => none

/-- Checks that a slot key names an input of a node, with an index exactly if the input is a
variadic group and below the limit. The answer is whether it is a group. -/
def checkSlot (g : Graph κ) (n : NodeId) (k : SlotKey) : Except GraphError Bool := do
  let m ← g.getNode n
  match g.slotDecl? m k.name with
  | none => .error (.noSuchPort n k.name k.index)
  | some d =>
    if d.isVariadic ≠ k.index.isSome then .error (.noSuchPort n k.name k.index)
    else
      match k.index with
      | none => .ok false
      | some i => if i < slotLimit then .ok true else .error (.slotBeyondLimit n k.name i)

/-! ## Nodes -/

/-- Puts a node at its place among nodes in ascending order. -/
def insertNode (m : Node κ) : List (Node κ) → List (Node κ)
  | [] => [m]
  | n :: ns => if m.id.number < n.id.number then m :: n :: ns else n :: insertNode m ns

/-- Adds a node with its ports under an id that is free. -/
def place (g : Graph κ) (n : NodeId) (kind : NodeKind κ) : Graph κ :=
  { g with nodes := insertNode (.fresh n kind) g.nodes }.reshape n

/-- Checks that a node of the given kind may be added: a pseudo-node needs a signature and must be
the only one of its kind. -/
def checkKind (g : Graph κ) (kind : NodeKind κ) : Except GraphError Unit :=
  let check (pseudo : PseudoNode) (present : Option NodeId) : Except GraphError Unit :=
    if g.signature.isNone then .error (.noSignature pseudo)
    else if present.isSome then .error (.pseudoNodes pseudo 2)
    else .ok ()
  match kind with
  | .action _ => .ok ()
  | .entry => check .entry g.entryNode?
  | .result => check .result g.resultNode?

/-- Adds a node under the given id. -/
def addNodeAt (g : Graph κ) (n : NodeId) (kind : NodeKind κ) : Except GraphError (Graph κ) := do
  if n.number = 0 then .error .zeroId
  else if (g.node? n).isSome then .error (.idTaken n)
  else
    g.checkKind kind
    .ok (g.place n kind)

/-- Adds a node under the smallest free id. -/
def addNode (g : Graph κ) (kind : NodeKind κ) : Except GraphError (Graph κ × NodeId) := do
  let n := g.nextNodeId
  let g ← g.addNodeAt n kind
  .ok (g, n)

def setPosition (g : Graph κ) (n : NodeId) (p : Position) : Except GraphError (Graph κ) := do
  let _ ← g.getNode n
  .ok (g.updateNode n fun m => { m with position := p })

/-! ## Connections -/

/-- Makes a connection in the stead of the one that a value input or a control output has. -/
def join (g : Graph κ) (joint : Joint) : Graph κ :=
  let source := joint.source.port.index
  let destination := joint.destination.port.index
  if g.connections.any fun c => c.source = source && c.destination = destination then g
  else
    let replaced (c : Connection) : Bool :=
      match joint.kind with
      | .value => c.destination = destination
      | .control => c.source = source
    let rest := g.sever replaced
    let added : Connection := ⟨joint.kind, source, destination⟩
    let wired := { rest with connections := rest.connections ++ [added] }
    match joint.kind with
    -- The nodes that lose a slot are read off the graph in which the connection still is.
    | .value => wired.refresh (g.severed replaced ++ [joint.destination.node])
    | .control => wired.refresh (g.severed replaced)

/-- Connects two ports, given in either order. -/
def connect (g : Graph κ) (a b : PortId) : Except GraphError (Graph κ) := do
  let joint ← g.checkConnection a b
  .ok (g.join joint)

/-- The output of a node by name, or the error that there is none. -/
def getOutput (g : Graph κ) (n : NodeId) (name : String) : Except GraphError PortId :=
  match g.output? n name with
  | some p => .ok p
  | none => .error (.noSuchPort n name none)

/-- The input of a node by name and slot, or the error that there is none. -/
def getInput (g : Graph κ) (n : NodeId) (name : String) (slot : Option Nat) :
    Except GraphError PortId :=
  match g.input? n name slot with
  | some p => .ok p
  | none => .error (.noSuchPort n name slot)

/-- Connects an output and a single input by their names. -/
def wire (g : Graph κ) (source : NodeId) (output : String) (destination : NodeId)
    (input : String) : Except GraphError (Graph κ) := do
  let a ← g.getOutput source output
  let b ← g.getInput destination input none
  g.connect a b

/-- Drops the connections that pass a test and reshapes the nodes that this resizes, the nodes of a
given list apart. The answer counts the connections dropped. -/
def cut (g : Graph κ) (p : Connection → Bool) (except : List NodeId) : Graph κ × Nat :=
  let resized := (g.severed p).filter fun n => !except.contains n
  ((g.sever p).refresh resized, g.connections.countP p)

/-- Drops the connection between two ports, given in either order. The answer is whether there was
one. -/
def disconnect (g : Graph κ) (a b : PortId) : Except GraphError (Graph κ × Bool) := do
  let _ ← g.getPort a
  let _ ← g.getPort b
  let between (c : Connection) : Bool :=
    (c.source = a.index && c.destination = b.index) ||
      (c.source = b.index && c.destination = a.index)
  let (g, count) := g.cut between []
  .ok (g, count ≠ 0)

/-- Drops every connection of a port. The answer counts them. -/
def isolatePort (g : Graph κ) (p : PortId) : Except GraphError (Graph κ × Nat) := do
  let _ ← g.getPort p
  .ok (g.cut (·.touches p.index) [])

/-- Drops every connection of a node. The node itself keeps its shape. The answer counts the
connections. -/
def isolateNode (g : Graph κ) (n : NodeId) : Except GraphError (Graph κ × Nat) := do
  let m ← g.getNode n
  .ok (g.cut (fun c => m.ports.any fun p => c.touches p.index) [n])

/-- Removes a node and its connections. The answer is the node removed. -/
def removeNode (g : Graph κ) (n : NodeId) : Except GraphError (Graph κ × Node κ) := do
  let (g, _) ← g.isolateNode n
  let m ← g.getNode n
  .ok ({ g with nodes := g.nodes.filter fun m => m.id ≠ n }, m)

/-! ## Stored values -/

/-- Stores a constant on an action node whose kind declares it. -/
def setConst (g : Graph κ) (n : NodeId) (name : String) (v : Value) :
    Except GraphError (Graph κ) := do
  let m ← g.getNode n
  if m.signature?.any fun s => (s.const? name).isSome then
    .ok (g.updateNode n fun m => { m with consts := m.consts.insert name v })
  else .error (.noSuchPort n name none)

/-- Reshapes a node if a slot of a group was concerned. -/
def reshapeIf (g : Graph κ) (n : NodeId) (isGroup : Bool) : Graph κ :=
  if isGroup then g.reshape n else g

/-- Sets the value that an input slot takes while it is not connected. -/
def setDefault (g : Graph κ) (n : NodeId) (k : SlotKey) (v : Value) :
    Except GraphError (Graph κ) := do
  let isGroup ← g.checkSlot n k
  let g := g.updateNode n fun m => { m with defaults := m.defaults.insert k v }
  .ok (g.reshapeIf n isGroup)

/-- Takes the default of an input slot away. The answer is the value it had. -/
def clearDefault (g : Graph κ) (n : NodeId) (k : SlotKey) :
    Except GraphError (Graph κ × Option Value) := do
  let isGroup ← g.checkSlot n k
  let m ← g.getNode n
  let cleared := g.updateNode n fun m => { m with defaults := m.defaults.erase k }
  .ok (cleared.reshapeIf n isGroup, m.defaults.get? k)

/-! ## Signatures and kinds -/

/-- Sees to it that a pseudo-node is there in its present shape. The second part is its id if it is
new. -/
def ensure (g : Graph κ) (kind : NodeKind κ) (present : Option NodeId) :
    Except GraphError (Graph κ × Option NodeId) :=
  match present with
  | some n => .ok (g.reshape n, none)
  | none => do
    let (g, n) ← g.addNode kind
    .ok (g, some n)

/-- Gives the graph a signature: Entry and Return are reshaped to it or made, and if both are new
then Entry leads straight to Return. It is refused if no node id is left for them. -/
def setSignature (g : Graph κ) (s : Signature) : Except GraphError (Graph κ) := do
  let g := { g with signature := some s }
  let (g, entry) ← g.ensure .entry g.entryNode?
  let (g, result) ← g.ensure .result g.resultNode?
  match entry, result with
  | some e, some r => g.wire e exitName r enterName
  | _, _ => .ok g

/-- The new graph of a definition with the given signature. -/
def withSignature (id : Nat) (hook : ConversionHook) (s : Signature) :
    Except GraphError (Graph κ) :=
  (Graph.empty id hook).setSignature s

/-- Whether a kind declares the slot of a stored default. -/
def declaresSlot (s : Signature) (k : SlotKey) : Bool :=
  (s.input? k.name).any fun d => d.isVariadic = k.index.isSome

/-- Turns a node to a new definition of its kind. Stored values that the kind no longer declares are
dropped. -/
def redefineNode (g : Graph κ) (kind : κ) (n : NodeId) : Graph κ :=
  let s := HasSignature.signature kind
  let turned := g.updateNode n fun m =>
    { m with
      kind := .action kind
      consts := m.consts.filter fun name _ => (s.const? name).isSome
      defaults := m.defaults.filter fun k _ => declaresSlot s k }
  turned.reshape n

/-- The action nodes of the kind with the given name, in ascending order. -/
def nodesOfKind (g : Graph κ) (name : String) : List NodeId :=
  (g.nodes.filter fun n => n.signature?.any fun s => s.name = name).map (·.id)

/-- Turns every node of a kind to a new definition of it. The answer counts the nodes. -/
def redefine (g : Graph κ) (kind : κ) : Graph κ × Nat :=
  let targets := g.nodesOfKind (HasSignature.signature kind).name
  (targets.foldl (fun g n => g.redefineNode kind n) g, targets.length)

/-! ## Holding slots open -/

/-- Holds a slot of a group open until it is released, so that connections can be restored to it. -/
def hold (g : Graph κ) (n : NodeId) (group : String) (index : Nat) :
    Except GraphError (Graph κ) := do
  let _ ← g.checkSlot n ⟨group, some index⟩
  let raise (m : Node κ) : Node κ :=
    let highest := max ((m.held.get? group).getD index) index
    { m with held := m.held.insert group highest }
  .ok ((g.updateNode n raise).reshape n)

/-- Releases all slots that are held open. -/
def release (g : Graph κ) : Graph κ :=
  let holding := (g.nodes.filter fun n => !n.held.isEmpty).map (·.id)
  let released := { g with nodes := g.nodes.map fun n => { n with held := .empty } }
  holding.foldl reshape released

end Graph

end EffectGraph
