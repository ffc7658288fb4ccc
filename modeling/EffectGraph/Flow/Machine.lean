import EffectGraph.Flow.Program
/-!
# The state of a run

A flow memoizes values in nested scopes and remembers the nodes that it is running; together they
are its `Memory`. The log and the state of the host are shared between a flow and the flows that it
opens for generated kinds.

`Exec` is the monad of the interpreter: a step from a machine to a result and the machine after it,
or nothing when the allowance of nested steps is used up. An error ends the steps that follow it but
keeps the machine as it was when the error arose.
-/

namespace EffectGraph

/-! ## Scopes -/

/-- The scopes of a flow. There is always one. -/
structure Scopes where
  top : Frame
  /-- The enclosing scopes, innermost first. -/
  outer : List Frame

namespace Scopes

def base (f : Frame) : Scopes := ⟨f, []⟩

/-- The value of a port in the first frame that has one. -/
def findIn? (p : PortId) : List Frame → Option Value
  | [] => none
  | f :: fs => (f.get? p) <|> findIn? p fs

/-- The value memoized for a port, looked for from the innermost scope outwards. -/
def find? (s : Scopes) (p : PortId) : Option Value := findIn? p (s.top :: s.outer)

/-- Memoizes a value in the innermost scope. -/
def set (s : Scopes) (p : PortId) (v : Value) : Scopes := { s with top := s.top.insert p v }

def push (s : Scopes) : Scopes := ⟨.empty, s.top :: s.outer⟩

/-- Closes the innermost scope and answers with its frame. The last scope stays open. -/
def pop (s : Scopes) : Scopes × Option Frame :=
  match s.outer with
  | [] => (s, none)
  | f :: fs => (⟨f, fs⟩, some s.top)

def depth (s : Scopes) : Nat := s.outer.length + 1

end Scopes

/-- What a flow remembers. -/
structure Memory where
  scopes : Scopes
  running : List NodeId

/-- The memory of a new flow whose base frame is given. -/
def Memory.start (f : Frame) : Memory := ⟨.base f, []⟩

/-! ## The log -/

/-- An entry of the log. -/
inductive Event where
  /-- The interpreter ran a node. -/
  | nodeInvoked (node : NodeId) (define : String)
  /-- A node wrote a message. -/
  | logged (node : NodeId) (message : String)
  /-- A body failed in a flow at the given depth and with the given callers. -/
  | nodeFailed (node : NodeId) (define : String) (depth : Nat) (callers : List NodeId)
    (error : ActionError)
  /-- A node was run for an output and did not write it. -/
  | outputEmpty (node : NodeId) (define : String) (port : SlotKey)
  deriving DecidableEq

/-! ## Machines -/

/-- The state of a run: the memory of the present flow, and what all flows of the run share. -/
structure Machine (σ : Type) where
  memory : Memory
  /-- The log, newest entry first. -/
  log : List Event
  host : σ

/-- A step of the interpreter. -/
def Exec (σ α : Type) : Type := Machine σ → Option (Except FlowError α × Machine σ)

namespace Exec

variable {σ α β : Type}

def pure (a : α) : Exec σ α := fun m => some (.ok a, m)

def bind (x : Exec σ α) (f : α → Exec σ β) : Exec σ β := fun m =>
  match x m with
  | none => none
  | some (.error e, m) => some (.error e, m)
  | some (.ok a, m) => f a m

instance : Monad (Exec σ) where
  pure := Exec.pure
  bind := Exec.bind

/-- The step for which the allowance does not suffice. -/
def exhausted : Exec σ α := fun _ => none

def fail (e : FlowError) : Exec σ α := fun m => some (.error e, m)

/-- The step with a result known in advance. -/
def ofExcept (r : Except FlowError α) : Exec σ α := fun m => some (r, m)

/-- The step with the result of a question to the graph. -/
def ofGraph (r : Except GraphError α) : Exec σ α := ofExcept (r.mapError .graph)

/-- Turns an error of a step into a result. -/
def attempt (x : Exec σ α) : Exec σ (Except FlowError α) := fun m =>
  match x m with
  | none => none
  | some (r, m) => some (.ok r, m)

/-- Reads from the memory of the present flow. -/
def inspect (f : Memory → α) : Exec σ α := fun m => some (.ok (f m.memory), m)

/-- Changes the memory of the present flow. -/
def modifyMemory (f : Memory → Memory) : Exec σ Unit := fun m =>
  some (.ok (), { m with memory := f m.memory })

/-- Changes the scopes of the present flow. -/
def modifyScopes (f : Scopes → Scopes) : Exec σ Unit :=
  modifyMemory fun mem => { mem with scopes := f mem.scopes }

/-- Writes to the log. -/
def emit (e : Event) : Exec σ Unit := fun m => some (.ok (), { m with log := e :: m.log })

/-- The value memoized for a port. -/
def peek (p : PortId) : Exec σ (Option Value) := inspect fun mem => mem.scopes.find? p

/-- Memoizes a value in the innermost scope. -/
def memoize (p : PortId) (v : Value) : Exec σ Unit := modifyScopes fun s => s.set p v

/-- Takes a step in the memory of another flow and answers with that memory afterwards. The memory
of the present flow is not touched. -/
def within (memory : Memory) (x : Exec σ α) : Exec σ (α × Memory) := fun m =>
  match x { m with memory := memory } with
  | none => none
  | some (.error e, m') => some (.error e, { m' with memory := m.memory })
  | some (.ok a, m') => some (.ok (a, m'.memory), { m' with memory := m.memory })

/-- Takes a step with a node noted as running, and notes it as done however the step ends. -/
def running (n : NodeId) (x : Exec σ α) : Exec σ α := do
  modifyMemory fun mem => { mem with running := n :: mem.running }
  let r ← attempt x
  modifyMemory fun mem => { mem with running := mem.running.tail }
  ofExcept r

end Exec

end EffectGraph
