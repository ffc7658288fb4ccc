import EffectGraph.Definition.Basic
import EffectGraph.Flow.Machine
/-!
# Running graphs

A run has two disciplines. Control is pushed: a node is run, the control output that it answers with
leads to the next node, and so on until a control output leads nowhere. Values are pulled: the value
of an output that is not memoized is had by running its node, and is memoized in the innermost
scope, so that a node read many times in one scope runs once.

`exec` is the interpreter. It is defined by levels: `exec 0` has no allowance left, and a step of
level `n + 1` takes its nested steps at level `n`. A run ends with a result exactly if it does so at
some level, and then with the same result at every higher one.
-/

namespace EffectGraph

/-- The limits of the interpreter. -/
structure Options where
  /-- How deeply generated kinds may nest flows. -/
  maxCallDepth : Nat := 32
  /-- Whether the failure of a body is written to the log. -/
  logNodeErrors : Bool := true
  deriving DecidableEq

/-- What stays fixed while a flow runs. -/
structure Setting where
  graph : Graph Definition
  environment : Environment
  options : Options
  /-- The conversions between types. -/
  hook : ConversionHook
  /-- The generated nodes of the enclosing flows that led here, outermost first. -/
  callers : List NodeId
  /-- How deeply the flow is nested in others. -/
  depth : Nat

namespace Setting

/-- The setting of a flow that no other flow opened. -/
def top (g : Graph Definition) (e : Environment) (o : Options) (hook : ConversionHook) : Setting :=
  ⟨g, e, o, hook, [], 0⟩

/-- The setting of the flow that a generated node opens over its inner graph. -/
def child (s : Setting) (inner : Graph Definition) (caller : NodeId) : Setting :=
  { s with graph := inner, callers := s.callers ++ [caller], depth := s.depth + 1 }

/-- Converts a value to the type of a port. -/
def coerce (s : Setting) (p : PlacedPort) (v : Value) : Value :=
  v.convert s.hook p.port.decl.type

/-- The value of an input that is not connected: its default, or else the default of its type. -/
def unconnected (s : Setting) (p : PlacedPort) : Value :=
  (((s.graph.node? p.node).bind fun n => n.defaults.get? p.port.key)).getD p.port.decl.type.default

end Setting

/-- How a host answers when it is consulted. -/
abbrev Host (σ : Type) := Value → σ → Value × σ

/-- What the interpreter may be set to do. -/
inductive Task where
  /-- Have the value of a port. -/
  | read (port : PortId)
  /-- Run one node and have the control output to follow. -/
  | invoke (node : NodeId)
  /-- Run from a control input until control leads nowhere. -/
  | follow (port : PortId)

@[reducible] def Task.Result : Task → Type
  | read _ => Value
  | invoke _ => Option PortId
  | follow _ => Unit

/-- The means to carry out nested tasks. -/
abbrev Engine (σ : Type) := Setting → (t : Task) → Exec σ t.Result

variable {σ : Type}

namespace Engine

open Exec

variable (engine : Engine σ) (s : Setting)

/-! ## Control -/

/-- Runs from a port, which has to be a control input. -/
def run (p : PortId) : Exec σ Unit := do
  let port ← ofGraph (s.graph.getPort p)
  if port.role = .controlInput then engine s (.follow p)
  else fail (.wrongRole p .controlInput port.role)

/-- Runs from the control input of a node. A node without one counts as not found. -/
def runNode (n : NodeId) : Exec σ Unit :=
  match s.graph.controlInput? n with
  | some p => engine.run s p
  | none => fail (.graph (.noNode n))

/-- Runs the node of a control input and goes on where its control output leads. -/
def follow (p : PortId) : Exec σ Unit := do
  let port ← ofGraph (s.graph.getPort p)
  let exit ← engine s (.invoke port.node)
  match exit.bind s.graph.nextControl? with
  | some next => engine s (.follow next)
  | none => return ()

/-! ## Values -/

/-- The value of a port. A memoized value comes first. An input has the value of the output it is
connected to, or its default, converted to its type. For an output its node is run, unless it is
being run already. -/
def read (p : PortId) : Exec σ Value := do
  match ← peek p with
  | some v => return v
  | none =>
    let port ← ofGraph (s.graph.getPort p)
    match port.role with
    | .valueInput =>
      match s.graph.valueSource? p with
      | some source =>
        let v ← engine s (.read source)
        return s.coerce port v
      | none => return s.coerce port (s.unconnected port)
    | .valueOutput =>
      -- A node that is being run needs this output for its own inputs.
      if (← inspect (·.running)).contains port.node then fail (.cycle port.node)
      else
        let _ ← engine s (.invoke port.node)
        match ← peek p with
        | some v => return v
        | none =>
          -- The node has run without writing this output.
          let define := ((s.graph.node? port.node).map (·.kind.name)).getD ""
          emit (.outputEmpty port.node define port.port.key)
          fail (.emptyOutput port.node define port.port.decl.name)
    | role => fail (.wrongRole p .valuePort role)

/-- The values of several ports in order. -/
def readAll : List PortId → Exec σ (List Value)
  | [] => return []
  | p :: ps => do
    let v ← engine s (.read p)
    let vs ← readAll ps
    return v :: vs

/-- The argument for a declared input of a node: the value of its port, or the array of the values
of its slots. -/
def argument (n : NodeId) (d : PortDecl) : Exec σ Value := do
  if d.isVariadic then
    let vs ← engine.readAll s (s.graph.variadicSlots n d.name)
    return .array vs
  else
    let p ← ofGraph (s.graph.getInput n d.name none)
    engine s (.read p)

/-- Converts a value to the type of an output of a node and memoizes it there. -/
def publish (n : NodeId) (name : String) (v : Value) : Exec σ Unit := do
  let p ← ofGraph (s.graph.getOutput n name)
  let port ← ofGraph (s.graph.getPort p)
  memoize p (s.coerce port v)

/-- Publishes several outputs in order. -/
def publishAll (n : NodeId) : List (String × Value) → Exec σ Unit
  | [] => return ()
  | (name, v) :: rest => do
    publish s n name v
    publishAll n rest

/-! ## Bodies -/

/-- The constant of a node, null if it is not set. -/
def constant (node : Node Definition) (name : String) : Value := (node.consts.get? name).getD .null

/-- Resolves the parameters of a method in order. -/
def bindParams (node : Node Definition) : List MethodParam → Table String Value →
    Exec σ (Table String Value)
  | [], args => return args
  | .input d :: ps, args => do
    let v ← engine.argument s node.id d
    bindParams node ps (args.insert d.name v)
  | .const d :: ps, args =>
    bindParams node ps (args.insert d.name ((constant node d.name).convert s.hook d.type))
  | .ambient name context :: ps, args =>
    bindParams node ps (args.insert name (s.environment.resolve context))
  | .out _ :: ps, args => bindParams node ps args
  | .branch _ :: ps, args => bindParams node ps args

/-- Answers a request of a body. -/
def answer (host : Host σ) : (q : Request) → Exec σ q.Answer
  | .read p => attempt (engine s (.read p))
  | .write p v => memoize p v
  | .peek p => Exec.peek p
  | .run p => attempt (engine.run s p)
  | .runNode n => attempt (engine.runNode s n)
  | .invoke n => attempt (engine s (.invoke n))
  | .openScope => modifyScopes (·.push)
  | .closeScope => do
    let closed ← inspect fun mem => mem.scopes.pop
    modifyScopes fun _ => closed.1
    return closed.2
  | .status => inspect fun mem => ⟨s.depth, s.callers, mem.running.reverse, mem.scopes.depth⟩
  | .graph => return s.graph.map Definition.signature
  | .log n message => emit (.logged n message)
  | .consult v => fun m =>
    let (w, host) := host v m.host
    some (.ok w, { m with host := host })

def runProgram {α : Type} (host : Host σ) : Program α → Exec σ α
  | .pure a => return a
  | .ask q next => Exec.bind (answer engine s host q) fun a => runProgram host (next a)

/-- The values that a body leaves for the outputs of its node: out values in the order of the
parameters and then the return value. Those not set are null. -/
def outputsOf (m : Method) (o : Outcome) : List (String × Value) :=
  (m.params.filterMap (·.out?)).map (fun d => (d.name, (o.outs.get? d.name).getD .null)) ++
    m.returns.toList.map fun d => (d.name, o.result.getD .null)

/-- The control output to follow after a body: the branch chosen, or else the usual exit. It has to
be a control port. -/
def branchOf (n : NodeId) (o : Outcome) : Except GraphError (Option PortId) :=
  let name := o.branch.getD exitName
  match s.graph.output? n name with
  | none => .error (.noSuchPort n name none)
  | some p => do
    let port ← s.graph.getPort p
    if port.port.decl.isControl then .ok (some p) else .error (.noSuchPort n name none)

/-- Fails with the error of a body. An error of its own is attributed to the node and logged; an
error of the interpreter that it passes through stays as it is. -/
def blame {α : Type} (n : NodeId) (define : String) : BodyError → Exec σ α
  | .flow e => fail e
  | .action e => do
    if s.options.logNodeErrors then emit (.nodeFailed n define s.depth s.callers e)
    fail (.action n define e)

def invokeMethod (host : Host σ) (node : Node Definition) (define : String) (m : Method) :
    Exec σ (Option PortId) := do
  let args ← engine.bindParams s node m.params .empty
  match ← engine.runProgram s host (m.body ⟨node.id, args, s.environment⟩) with
  | .error e => blame s node.id define e
  | .ok outcome =>
    publishAll s node.id (outputsOf m outcome)
    ofGraph (branchOf s node.id outcome)

/-! ## Generated kinds -/

/-- The output of the Entry node of an inner graph by name, together with its place. -/
def entryPort (inner : Graph Definition) (entry : NodeId) (name : String) :
    Except GraphError (PortId × PlacedPort) := do
  let p ← inner.getOutput entry name
  let port ← inner.getPort p
  .ok (p, port)

/-- Pulls the inputs of a generated node in order into the base frame of the flow it opens. -/
def bindInputs (n : NodeId) (inner : Graph Definition) (entry : NodeId) :
    List PortDecl → Frame → Exec σ Frame
  | [], f => return f
  | d :: ds, f => do
    -- Pulled in the outer flow, as the inner one is not open yet.
    let v ← engine.argument s n d
    let (p, port) ← ofGraph (entryPort inner entry d.name)
    bindInputs n inner entry ds (f.insert p (s.coerce port v))

/-- Puts the constants of a generated node into the base frame of the flow it opens. -/
def bindConsts (node : Node Definition) (inner : Graph Definition) (entry : NodeId) :
    List PortDecl → Frame → Except GraphError Frame
  | [], f => .ok f
  | d :: ds, f => do
    let (p, port) ← entryPort inner entry d.name
    bindConsts node inner entry ds (f.insert p (s.coerce port (constant node d.name)))

/-- Follows control from the Entry node of an inner graph, in the memory of the inner flow. -/
def followEntry (child : Setting) (entry : NodeId) (memory : Memory) : Exec σ Memory :=
  match (child.graph.output? entry exitName).bind child.graph.nextControl? with
  | none => return memory
  | some start => do
    let (_, memory) ← within memory (engine child (.follow start))
    return memory

/-- Pulls the inputs of the Return node in the inner flow one after another and publishes each at
the output of the generated node. -/
def deliver (child : Setting) (n result : NodeId) : List PortDecl → Memory → Exec σ Unit
  | [], _ => return ()
  | d :: ds, memory => do
    let p ← ofGraph (child.graph.getInput result d.name none)
    let (v, memory) ← within memory (engine child (.read p))
    publish s n d.name v
    deliver child n result ds memory

/-- Runs a node of a generated kind: its inputs and constants become the Entry outputs of a flow
over the inner graph, control is followed from Entry, and what the inputs of Return then have is
delivered. -/
def invokeGenerated (node : Node Definition) (d : Definition) (inner : Graph Definition) :
    Exec σ (Option PortId) := do
  if s.options.maxCallDepth < s.depth + 1 then
    fail (.tooDeep d.name s.options.maxCallDepth)
  else
    match inner.entryNode?, inner.resultNode? with
    | none, _ => fail (.graph (.pseudoNodes .entry 0))
    | some _, none => fail (.graph (.pseudoNodes .result 0))
    | some entry, some result =>
      let child := s.child inner node.id
      let inputs ← engine.bindInputs s node.id inner entry d.signature.inputs .empty
      let frame ← ofGraph (bindConsts s node inner entry d.signature.consts inputs)
      let memory ← engine.followEntry child entry (.start frame)
      engine.deliver s child node.id result d.signature.outputs memory
      return s.graph.output? node.id exitName

/-! ## Nodes -/

/-- Gives every value output of an Entry node that has no value the default of its type. -/
def populateEntry : List Port → Exec σ Unit
  | [] => return ()
  | p :: ps => do
    let id := s.graph.portId p.index
    if (← peek id).isNone ∧ p.decl.isControl = false then memoize id p.decl.type.default
    populateEntry ps

/-- Runs one node and answers with the control output to follow. -/
def invoke (host : Host σ) (n : NodeId) : Exec σ (Option PortId) := do
  let node ← ofGraph (s.graph.getNode n)
  emit (.nodeInvoked n node.kind.name)
  running n <|
    match node.kind with
    | .entry => do
      populateEntry s node.outputs
      return s.graph.output? n exitName
    | .result => return none
    | .action d =>
      match d.behaviour with
      | .method m => engine.invokeMethod s host node d.name m
      | .generated inner => engine.invokeGenerated s node d inner

/-- Carries out a task with nested tasks carried out by the given engine. -/
def step (host : Host σ) : Engine σ := fun s t =>
  match t with
  | .read p => engine.read s p
  | .invoke n => engine.invoke s host n
  | .follow p => engine.follow s p

end Engine

/-- The interpreter with an allowance of nested steps. -/
def exec (host : Host σ) : Nat → Engine σ
  | 0 => fun _ _ => Exec.exhausted
  | n + 1 => fun s t => Engine.step (fun s t => exec host n s t) host s t

end EffectGraph
