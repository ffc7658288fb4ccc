import EffectGraph.Graph.Error
/-!
# Errors of runs

A body fails with an `ActionError` of its own or passes an error of the interpreter through
(`BodyError`). A run ends with a `FlowError`.
-/

namespace EffectGraph

/-- Why the body of a node failed. -/
inductive ActionError where
  /-- The body asked for an argument that its kind does not declare. -/
  | noArgument (name : String)
  /-- An argument is not what the body expects. -/
  | wrongArgument (name expected found : String)
  /-- The body reports a failure in its own words. -/
  | failed (text : String)
  /-- An error from outside the library. -/
  | other (text : String)
  deriving DecidableEq

def ActionError.message : ActionError → String
  | noArgument name => "Missing argument '" ++ name ++ "'"
  | wrongArgument name expected found =>
    "Argument '" ++ name ++ "' expected " ++ expected ++ ", but found " ++ found
  | failed text => text
  | other text => text

/-- The role that a port was expected to have. -/
inductive ExpectedRole where
  | controlInput
  | valuePort
  deriving DecidableEq

def ExpectedRole.text : ExpectedRole → String
  | controlInput => PortRole.controlInput.text
  | valuePort => "value port"

/-- Why a run ended early. -/
inductive FlowError where
  | wrongRole (port : PortId) (expected : ExpectedRole) (actual : PortRole)
  /-- A node was run for one of its outputs and did not write it. -/
  | emptyOutput (node : NodeId) (define port : String)
  /-- The body of a node failed. -/
  | action (node : NodeId) (define : String) (source : ActionError)
  /-- A node was asked for an output while it was running. -/
  | cycle (node : NodeId)
  | tooDeep (define : String) (limit : Nat)
  | graph (cause : GraphError)
  deriving DecidableEq

namespace FlowError

def message : FlowError → String
  | wrongRole port expected actual =>
    "Port " ++ port.text ++ " is a " ++ actual.text ++ ", expected a " ++ expected.text
  | emptyOutput n define port =>
    "Node " ++ n.text ++ " ('" ++ define ++ "') did not populate its output '" ++ port ++ "'"
  | action n define source =>
    "Node " ++ n.text ++ " ('" ++ define ++ "') failed: " ++ source.message
  | cycle n => "Node " ++ n.text ++ " depends on its own output"
  | tooDeep define limit =>
    "Generated define '" ++ define ++ "' exceeded the maximum call depth of " ++ natText limit
  | graph cause => cause.message

/-- The node that an error is attributed to. -/
def node? : FlowError → Option NodeId
  | emptyOutput n _ _ | action n _ _ | cycle n => some n
  | _ => none

end FlowError

/-- How a body ends that does not end well. -/
inductive BodyError where
  | action (error : ActionError)
  /-- The body passes an error through that it got from the interpreter. -/
  | flow (error : FlowError)
  deriving DecidableEq

end EffectGraph
