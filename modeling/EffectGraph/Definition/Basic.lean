import EffectGraph.Flow.Program
import EffectGraph.Graph.Edit
/-!
# Definitions of node kinds

A definition gives a node kind its signature and its behaviour. The behaviour is a method, with
parameters in several roles and a body, or generated: an inner graph of further nodes, whose Entry
and Return stand for the inputs and the outputs of the kind.

`MethodDecl.define` declares a method and `Definition.generated` wraps a graph; both refuse
declarations in which a name would be ambiguous.
-/

namespace EffectGraph

/-- Context of the run that a parameter may be bound to without a port. -/
inductive Ambient where
  | game
  | card
  | buff
  | event
  /-- The flow itself, which a body reaches through its requests: no argument. -/
  | flow
  /-- The node that is run, which the call carries: no argument. -/
  | node
  deriving DecidableEq

/-- The type name of the host's game object. -/
def gameTypeName : String := "Game"

/-- The type name of the object that carries a triggering event. -/
def eventTypeName : String := "EventArg"

/-- The context that a parameter of a type is bound to if no role is given for it. -/
def Ambient.ofType? : ValueType → Option Ambient
  | .card => some card
  | .buff => some buff
  | .object name =>
    if name = gameTypeName then some game
    else if name = eventTypeName then some event
    else none
  | _ => none

/-- The value of a context. -/
def Environment.resolve (e : Environment) : Ambient → Value
  | .game => e.game
  | .card => e.card
  | .buff => e.buff
  | .event => e.event
  | .flow | .node => .null

/-- A parameter of a method in its role. -/
inductive MethodParam where
  /-- A value input, or a variadic group of them. -/
  | input (d : PortDecl)
  /-- A constant stored on the node. -/
  | const (d : PortDecl)
  /-- A value output. -/
  | out (d : PortDecl)
  /-- A control output that the body may choose. -/
  | branch (d : PortDecl)
  /-- Context of the run. -/
  | ambient (name : String) (context : Ambient)
  deriving DecidableEq

namespace MethodParam

def name : MethodParam → String
  | input d | const d | out d | branch d => d.name
  | ambient n _ => n

def isVariadic : MethodParam → Bool
  | input d => d.isVariadic
  | _ => false

/-- The parameter whose role follows from its type: context for the types of the context, a value
input for any other. -/
def ofType (n : String) (type : ValueType) : MethodParam :=
  match Ambient.ofType? type with
  | some context => ambient n context
  | none => input (.value n type)

def input? : MethodParam → Option PortDecl
  | input d => some d
  | _ => none

def const? : MethodParam → Option PortDecl
  | const d => some d
  | _ => none

/-- The declaration of an output, a value or a branch. -/
def output? : MethodParam → Option PortDecl
  | out d | branch d => some d
  | _ => none

/-- The declaration of a value output. -/
def out? : MethodParam → Option PortDecl
  | out d => some d
  | _ => none

end MethodParam

/-- The behaviour of a method kind. -/
structure Method where
  params : List MethodParam
  /-- The output of the return value. -/
  returns : Option PortDecl
  body : Body

/-- How nodes of a kind behave, with definitions of type `κ` inside. -/
inductive Behaviour (κ : Type) where
  | method (m : Method)
  /-- An inner graph. -/
  | generated (inner : Graph κ)

/-- The definition of a node kind. -/
structure Definition where
  signature : Signature
  /-- Names under which the kind was known before. -/
  obsoleteNames : List String
  /-- What to say when the kind is asked for by one of them. -/
  obsoleteMessage : Option String
  behaviour : Behaviour Definition

instance : HasSignature Definition := ⟨Definition.signature⟩

namespace Definition

def name (d : Definition) : String := d.signature.name

/-- The inner graph of a generated kind. -/
def inner? (d : Definition) : Option (Graph Definition) :=
  match d.behaviour with
  | .generated g => some g
  | .method _ => none

end Definition

/-! ## Errors -/

/-- Why a definition is refused. -/
inductive DefinitionError where
  | repeatedName (define param : String)
  | groupNotLast (define param : String)
  | noBody (define : String)
  | controlOutput (define port : String)
  | innerGraph (define : String) (cause : GraphError)
  deriving DecidableEq

def DefinitionError.message : DefinitionError → String
  | repeatedName define param =>
    "Define '" ++ define ++ "' declares parameter '" ++ param ++ "' more than once"
  | groupNotLast define param =>
    "Define '" ++ define ++ "': variadic parameter '" ++ param ++ "' must be the last parameter"
  | noBody define => "Define '" ++ define ++ "' has no body"
  | controlOutput define port =>
    "Generated define '" ++ define ++ "' cannot declare control output '" ++ port ++ "'"
  | innerGraph define cause =>
    "Generated define '" ++ define ++ "' has an invalid graph: " ++ cause.message

/-! ## Methods -/

/-- The declaration of a method kind. -/
structure MethodDecl where
  name : String
  params : List MethodParam := []
  /-- The type of the return value. -/
  returns : Option ValueType := none
  obsoleteNames : List String := []
  obsoleteMessage : Option String := none
  body : Option Body := none

namespace MethodDecl

/-- The output of the return value. -/
def returnDecl? (m : MethodDecl) : Option PortDecl := m.returns.map (.value returnName)

/-- The signature that a declaration describes. -/
def signature (m : MethodDecl) : Signature where
  name := m.name
  inputs := m.params.filterMap (·.input?)
  consts := m.params.filterMap (·.const?)
  outputs := m.params.filterMap (·.output?) ++ m.returnDecl?.toList

/-- The names that a parameter may not have: those of the implied ports and, if there is one, of the
return value. -/
def reservedNames (m : MethodDecl) : List String :=
  (if m.returns.isSome then [returnName] else []) ++ [enterName, exitName]

/-- Checks parameters in order against the names taken so far: each name is new, and nothing follows
a variadic group. -/
def checkParams (define : String) : List String → List MethodParam → Except DefinitionError Unit
  | _, [] => .ok ()
  | taken, p :: ps =>
    if taken.contains p.name then .error (.repeatedName define p.name)
    else if p.isVariadic ∧ ps ≠ [] then .error (.groupNotLast define p.name)
    else checkParams define (p.name :: taken) ps

/-- The kind that a declaration describes. -/
def define (m : MethodDecl) : Except DefinitionError Definition := do
  match m.body with
  | none => .error (.noBody m.name)
  | some body =>
    checkParams m.name m.reservedNames m.params
    .ok
      { signature := m.signature
        obsoleteNames := m.obsoleteNames
        obsoleteMessage := m.obsoleteMessage
        behaviour := .method ⟨m.params, m.returnDecl?, body⟩ }

end MethodDecl

/-! ## Generated kinds -/

/-- The first name of a list that occurred before it. -/
def firstRepeated? : List String → List String → Option String
  | _, [] => none
  | taken, n :: ns => if taken.contains n then some n else firstRepeated? (n :: taken) ns

/-- Checks that there is exactly one pseudo-node of each kind. -/
def checkPseudoNodes (g : Graph Definition) : Except GraphError Unit :=
  let entries := g.nodes.countP fun n => n.kind matches .entry
  let results := g.nodes.countP fun n => n.kind matches .result
  if entries ≠ 1 then .error (.pseudoNodes .entry entries)
  else if results ≠ 1 then .error (.pseudoNodes .result results)
  else .ok ()

/-- The kind whose behaviour is a graph. The graph takes on the signature; it may lack Entry and
Return, which are then made. Control outputs cannot be declared, and the names of inputs and
constants must differ. -/
def Definition.generated (s : Signature) (g : Graph Definition) :
    Except DefinitionError Definition :=
  match s.outputs.find? (·.isControl) with
  | some port => .error (.controlOutput s.name port.name)
  | none =>
    match firstRepeated? [] ((s.inputs ++ s.consts).map (·.name)) with
    | some n => .error (.repeatedName s.name n)
    | none =>
      match g.setSignature s with
      | .error e => .error (.innerGraph s.name e)
      | .ok inner =>
        match checkPseudoNodes inner with
        | .error e => .error (.innerGraph s.name e)
        | .ok () => .ok ⟨s, [], none, .generated inner⟩

/-- Adds names under which the kind was known before. -/
def Definition.withObsoleteNames (d : Definition) (names : List String) : Definition :=
  { d with obsoleteNames := d.obsoleteNames ++ names }

/-- Sets what to say when the kind is asked for by an obsolete name, if anything is given. -/
def Definition.withObsoleteMessage (d : Definition) (message : Option String) : Definition :=
  { d with obsoleteMessage := message <|> d.obsoleteMessage }

end EffectGraph
