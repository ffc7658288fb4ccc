import EffectGraph.Port
/-!
# Signatures

A signature is the shape of a node kind as its ports show it: value inputs, constants stored on the
node, and outputs. The control ports that every action node has are implied and not listed.
-/

namespace EffectGraph

/-- The shape of a node kind. -/
structure Signature where
  name : String
  inputs : List PortDecl
  consts : List PortDecl
  /-- The value outputs and the control branches. -/
  outputs : List PortDecl
  deriving DecidableEq

namespace Signature

def input? (s : Signature) (name : String) : Option PortDecl :=
  s.inputs.find? fun d => d.name = name

def const? (s : Signature) (name : String) : Option PortDecl :=
  s.consts.find? fun d => d.name = name

def output? (s : Signature) (name : String) : Option PortDecl :=
  s.outputs.find? fun d => d.name = name

end Signature

/-- Node kinds that show a signature. -/
class HasSignature (κ : Type) where
  signature : κ → Signature

instance : HasSignature Signature := ⟨id⟩

end EffectGraph
