import EffectGraph.Graph.Basic
/-!
# The shape of nodes

The ports of a node follow from its kind and, for a variadic group, from the slots in use. Reshaping
a node keeps every port whose declaration and slot are still wanted, makes the missing ones under
fresh numbers, and drops the rest together with the connections that end at them. A node at the
other end of a connection that was lost this way may have shrunk too and is reshaped in turn.

A reshape on behalf of another node happens only after connections were lost, so the nesting is
bounded by the number of connections (`Graph.reshapeNested`).
-/

namespace EffectGraph

/-- A port that a node should have. -/
structure PortSpec where
  decl : PortDecl
  /-- The place in the group, for a slot of a variadic group. -/
  slot : Option Nat
  deriving DecidableEq

namespace PortSpec

/-- The port of a declaration that is no group. -/
def single (d : PortDecl) : PortSpec := ⟨d, none⟩

def control (name : String) : PortSpec := single (.control name)

/-- Whether a port is the one wanted. -/
def fits (s : PortSpec) (p : Port) : Bool := p.decl = s.decl && p.slot = s.slot

end PortSpec

/-- The outcome of giving a side of a node its wanted ports. -/
structure Reused where
  /-- The ports in the wanted order. -/
  ports : List Port
  /-- The old ports that are no longer wanted. -/
  dropped : List Port
  nextPort : Nat

/-- Gives each wanted port the first old port that fits and is not taken yet, or else a new one. -/
def reusePorts : List PortSpec → List Port → Nat → Reused
  | [], old, next => ⟨[], old, next⟩
  | s :: ss, old, next =>
    match old.find? s.fits with
    | some p =>
      let r := reusePorts ss (old.eraseP s.fits) next
      { r with ports := p :: r.ports }
    | none =>
      let r := reusePorts ss old (next + 1)
      { r with ports := ⟨next, s.decl, s.slot⟩ :: r.ports }

/-- A list of node ids in ascending order without repetitions. -/
def sortIds (ns : List NodeId) : List NodeId :=
  (Table.ofList (ns.map fun n => (n, ()))).keys

variable {κ : Type} [HasSignature κ]

namespace Graph

/-! ## The wanted ports -/

/-- The slots of a group that hold it open: those that are connected, those with a default, and the
slot held while the graph is being rebuilt. -/
def usedSlots (g : Graph κ) (n : Node κ) (group : String) : List Nat :=
  (n.inputs.filterMap fun p =>
      if p.decl.name = group && g.isWired p.index then p.slot else none) ++
    (n.defaults.keys.filterMap fun k => if k.name = group then k.index else none) ++
    (n.held.get? group).toList

/-- How many slots a group with the given slots in use shows: up to the highest one and one empty
slot after it, within the limit. -/
def arityOf (used : List Nat) : Nat :=
  match used.max? with
  | some highest => min (highest + 2) slotLimit
  | none => 1

/-- How many slots a group of a node shows. -/
def arity (g : Graph κ) (n : Node κ) (group : String) : Nat := arityOf (g.usedSlots n group)

/-- The ports wanted for a declared input. -/
def inputSpecs (g : Graph κ) (n : Node κ) (d : PortDecl) : List PortSpec :=
  if d.isVariadic then (List.range (g.arity n d.name)).map fun i => ⟨d, some i⟩ else [.single d]

/-- The inputs that a node should have. -/
def wantedInputs (g : Graph κ) (n : Node κ) : List PortSpec :=
  match n.kind with
  | .action k => .control enterName :: (HasSignature.signature k).inputs.flatMap (g.inputSpecs n)
  | .entry => []
  | .result => .control enterName :: (g.signature.elim [] (·.outputs)).map .single

/-- The outputs that a node should have. -/
def wantedOutputs (g : Graph κ) (n : Node κ) : List PortSpec :=
  match n.kind with
  | .action k => .control exitName :: (HasSignature.signature k).outputs.map .single
  | .entry =>
    .control exitName ::
      (g.signature.elim [] fun s => s.inputs.map (·.packed) ++ s.consts).map .single
  | .result => []

/-! ## Losing connections -/

/-- The node at the destination of a value connection if it is of a kind with a variadic group: the
node whose shape may change when the connection is lost. -/
def resizedBy? (g : Graph κ) (c : Connection) : Option NodeId :=
  match c.kind with
  | .control => none
  | .value =>
    (g.portAt? c.destination).bind fun p =>
      (g.node? p.node).bind fun n => if n.hasVariadic then some n.id else none

/-- Drops the connections that pass a test. -/
def sever (g : Graph κ) (p : Connection → Bool) : Graph κ :=
  { g with connections := g.connections.filter fun c => !p c }

/-- The nodes that dropping the connections that pass a test may resize, one for each connection. -/
def severed (g : Graph κ) (p : Connection → Bool) : List NodeId :=
  (g.connections.filter p).filterMap g.resizedBy?

def updateNode (g : Graph κ) (n : NodeId) (f : Node κ → Node κ) : Graph κ :=
  { g with nodes := g.nodes.map fun m => if m.id = n then f m else m }

/-! ## Reshaping -/

/-- Gives a node its wanted ports and drops the connections of the ports it loses. The second part
lists the other nodes that may have to shrink. -/
def reshapeOne (g : Graph κ) (n : NodeId) : Graph κ × List NodeId :=
  match g.node? n with
  | none => (g, [])
  | some m =>
    let ins := reusePorts (g.wantedInputs m) m.inputs g.nextPort
    let outs := reusePorts (g.wantedOutputs m) m.outputs ins.nextPort
    let shaped :=
      { g.updateNode n fun m => { m with inputs := ins.ports, outputs := outs.ports } with
        nextPort := outs.nextPort }
    let lost (c : Connection) : Bool := (ins.dropped ++ outs.dropped).any fun p => c.touches p.index
    -- Ports are looked up in the shaped graph, where those that the node has lost are gone.
    (shaped.sever lost, sortIds ((shaped.severed lost).filter fun k => k ≠ n))

/-- Reshapes nodes one after another, each followed by the nodes that it made shrink. -/
def reshapeNested : Nat → Graph κ → List NodeId → Graph κ
  -- No connection is left to lose, so no node shrinks on account of another.
  | 0, g, ns => ns.foldl (fun g n => (g.reshapeOne n).1) g
  | depth + 1, g, ns =>
    ns.foldl (fun g n => reshapeNested depth (g.reshapeOne n).1 (g.reshapeOne n).2) g

/-- Reshapes a node and whatever it makes shrink. -/
def reshape (g : Graph κ) (n : NodeId) : Graph κ := reshapeNested g.connections.length g [n]

/-- Reshapes those of the given nodes whose kind has a variadic group, in ascending order. -/
def refresh (g : Graph κ) (ns : List NodeId) : Graph κ :=
  (sortIds ns).foldl
    (fun g n => if (g.node? n).any (·.hasVariadic) then g.reshape n else g) g

end Graph

end EffectGraph
