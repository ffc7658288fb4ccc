import EffectGraph.Definition.Catalog
import EffectGraph.Library.Integers
/-!
# The standard kinds

The kinds that every catalog starts with: integers, text, control, and access to the context of the
run.
-/

namespace EffectGraph.Library

/-- A constant text. -/
def text : MethodDecl where
  name := "Text"
  params := [.const (.value "value" .string)]
  returns := some .string
  body := some <| .compute fun c => do
    let s ← c.string "value"
    .ok (.returning (.string s))

def concat : MethodDecl where
  name := "Concat"
  params := [.input (.variadic "parts" .string)]
  returns := some .string
  body := some <| .compute fun c => do
    let parts ← c.array "parts"
    .ok (.returning (.string (String.join (parts.filterMap Value.asString?))))

def branch : MethodDecl where
  name := "Branch"
  params :=
    [.input (.value "condition" .bool), .branch (.control "true"), .branch (.control "false")]
  body := some <| .compute fun c => do
    let condition ← c.bool "condition"
    .ok (Outcome.empty.take (branchName condition))

/-- A pause. Time does not pass in the model, so that only the argument is looked at. -/
def delay : MethodDecl where
  name := "Delay"
  params := [.input (.value "milliseconds" .int)]
  body := some <| .compute fun c => do
    let _ ← c.int "milliseconds"
    .ok .empty

/-- A kind that returns a piece of the context, told by its type. -/
def context (kind param : String) (type : ValueType) : MethodDecl where
  name := kind
  params := [.ofType param type]
  returns := some type
  body := some <| .compute fun c => do
    let v ← c.arg param
    .ok (.returning v)

/-- The card that an effect belongs to. -/
def getCard : MethodDecl := context "GetCard" "card" .card

/-- The buff that an effect belongs to. -/
def getBuff : MethodDecl := context "GetBuff" "buff" .buff

/-- The event that triggered an effect. -/
def getEvent : MethodDecl := context "GetEvent" "event" (.object eventTypeName)

/-- A message to the log. -/
def log : MethodDecl where
  name := "Log"
  params := [.input (.value "message" .string)]
  body := some fun c =>
    match c.string "message" with
    | .error e => .pure (.error (.action e))
    | .ok message => .ask (.log c.node message) fun _ => .pure (.ok .empty)

/-- The declarations of the standard kinds. -/
def declarations : List MethodDecl :=
  [integer, integerOperation, compare, text, concat, branch, delay, getCard, getBuff, getEvent, log]

/-- The standard kinds. -/
def builtins : Except DefinitionError (List Definition) := declarations.mapM MethodDecl.define

end Library

/-- The catalog of the standard kinds. -/
def Catalog.standard : Except DefinitionError Catalog := do
  let kinds ← Library.builtins
  .ok (kinds.foldl Catalog.register .empty)

end EffectGraph
