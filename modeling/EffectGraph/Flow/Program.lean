import EffectGraph.Flow.Error
/-!
# What a node body does

A body is a program: it may ask the flow that runs it for something and go on with the answer, any
number of times, and then ends. The requests are those that a host has to a flow from outside, so a
body can read and write ports, run nodes and open scopes; on top of them it can write to the log and
consult the host. It has no other way to the flow, and it waits for each answer before it goes on.
What follows for the notes of a flow if a body gives a request up instead is in
`Proofs.Abandoning`.

`Program` is a monad; an interpreter is a function on the requests.
-/

namespace EffectGraph

/-- One frame of memoized values. -/
abbrev Frame := Table PortId Value

/-- The context that a run takes place in. A value not given is null. -/
structure Environment where
  game : Value
  card : Value
  buff : Value
  event : Value

/-- The environment in which nothing is given. -/
def Environment.empty : Environment := ⟨.null, .null, .null, .null⟩

/-- Where a flow stands. -/
structure FlowStatus where
  /-- How deeply the flow is nested in others. -/
  depth : Nat
  callers : List NodeId
  /-- The nodes that are being run, outermost first. -/
  running : List NodeId
  scopes : Nat

/-- What a body may ask of the flow that runs it. -/
inductive Request where
  /-- The value of a port, run for if need be. -/
  | read (port : PortId)
  /-- Memoizes a value in the innermost scope. -/
  | write (port : PortId) (v : Value)
  /-- The value memoized for a port. -/
  | peek (port : PortId)
  /-- Runs from a control input. -/
  | run (port : PortId)
  /-- Runs from the control input of a node. -/
  | runNode (node : NodeId)
  | invoke (node : NodeId)
  | openScope
  | closeScope
  | status
  /-- The graph that the flow runs on, as far as its shape goes. -/
  | graph
  | log (node : NodeId) (message : String)
  /-- Hands a value to the host and waits for its answer. -/
  | consult (v : Value)

/-- The type of the answer to a request. Errors of the interpreter are answers, which a body may
pass through or pass over. -/
def Request.Answer : Request → Type
  | read _ => Except FlowError Value
  | write _ _ => Unit
  | peek _ => Option Value
  | run _ => Except FlowError Unit
  | runNode _ => Except FlowError Unit
  | invoke _ => Except FlowError (Option PortId)
  | openScope => Unit
  | closeScope => Option Frame
  | status => FlowStatus
  | graph => Graph Signature
  | log _ _ => Unit
  | consult _ => Value

/-- A program with result type `α`. -/
inductive Program (α : Type) where
  /-- Ends with a result. -/
  | pure (a : α)
  /-- Asks and goes on with the answer. -/
  | ask (q : Request) (next : q.Answer → Program α)

namespace Program

/-- Runs a program and then another that depends on its result. -/
def bind {α β : Type} : Program α → (α → Program β) → Program β
  | pure a, f => f a
  | ask q next, f => ask q fun a => (next a).bind f

instance : Monad Program where
  pure := Program.pure
  bind := Program.bind

/-- The program that asks once and ends with the answer. -/
def request (q : Request) : Program q.Answer := ask q pure

theorem bind_pure {α : Type} (x : Program α) : x.bind pure = x := by
  induction x with
  | pure a => rfl
  | ask q next ih => simp only [bind, ih]

theorem bind_assoc {α β γ : Type} (x : Program α) (f : α → Program β) (g : β → Program γ) :
    (x.bind f).bind g = x.bind fun a => (f a).bind g := by
  induction x with
  | pure a => rfl
  | ask q next ih => simp only [bind, ih]

end Program

/-! ## Calls -/

/-- One call of a body: the arguments come resolved and converted to their declared types. -/
structure Call where
  /-- The node that is run. -/
  node : NodeId
  /-- The arguments by parameter name. -/
  args : Table String Value
  /-- The context of the run. -/
  environment : Environment

namespace Call

/-- An argument by name. -/
def arg (c : Call) (name : String) : Except ActionError Value :=
  match c.args.get? name with
  | some v => .ok v
  | none => .error (.noArgument name)

/-- An argument read at one type, which is named in the error. -/
def argAs {α : Type} (c : Call) (name expected : String) (read? : Value → Option α) :
    Except ActionError α := do
  let v ← c.arg name
  match read? v with
  | some a => .ok a
  | none => .error (.wrongArgument name expected v.kindName)

def int (c : Call) (name : String) : Except ActionError Int64 := c.argAs name "int" Value.asInt?

def float (c : Call) (name : String) : Except ActionError Binary64 :=
  c.argAs name "float" Value.asFloat?

def bool (c : Call) (name : String) : Except ActionError Bool := c.argAs name "bool" Value.asBool?

def string (c : Call) (name : String) : Except ActionError String :=
  c.argAs name "string" Value.asString?

def array (c : Call) (name : String) : Except ActionError (List Value) :=
  c.argAs name "array" Value.asArray?

end Call

/-- What a body leaves behind. A value that it does not set becomes the default of its type. -/
structure Outcome where
  /-- The out values by parameter name. -/
  outs : Table String Value
  /-- The return value. -/
  result : Option Value
  /-- The control branch to take in the stead of the usual exit. -/
  branch : Option String

namespace Outcome

def empty : Outcome := ⟨.empty, none, none⟩

/-- The outcome that sets the return value alone. -/
def returning (v : Value) : Outcome := { empty with result := some v }

/-- Sets an out value. -/
def setOut (o : Outcome) (name : String) (v : Value) : Outcome :=
  { o with outs := o.outs.insert name v }

/-- Chooses a control branch. -/
def take (o : Outcome) (branch : String) : Outcome := { o with branch := some branch }

end Outcome

/-- The body of a node kind. -/
abbrev Body := Call → Program (Except BodyError Outcome)

/-- The body that asks for nothing. -/
def Body.compute (f : Call → Except ActionError Outcome) : Body :=
  fun c => .pure ((f c).mapError .action)

end EffectGraph
