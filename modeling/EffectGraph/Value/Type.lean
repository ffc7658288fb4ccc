/-!
# The types of ports

A port carries a static type. Cards, buffs, players and foreign objects are references into the
host's own model; `null` is a value of every reference type.
-/

namespace EffectGraph

/-- The static type of a port. -/
inductive ValueType where
  /-- Admits every value. -/
  | any
  | bool
  | int
  | float
  | string
  | card
  | buff
  | player
  /-- A foreign object of the host, told by the name of its type. -/
  | object (name : String)
  | array (element : ValueType)
  deriving DecidableEq

namespace ValueType

/-- Whether the type refers into the host's model, so that `null` belongs to it. -/
def isReference : ValueType → Bool
  | card | buff | player | object _ => true
  | _ => false

def isArray : ValueType → Bool
  | array _ => true
  | _ => false

def element? : ValueType → Option ValueType
  | array e => some e
  | _ => none

/-- The text of a type: its name, with one pair of brackets for each array level. -/
def text : ValueType → String
  | any => "any"
  | bool => "bool"
  | int => "int"
  | float => "float"
  | string => "string"
  | card => "card"
  | buff => "buff"
  | player => "player"
  | object name => name
  | array e => e.text ++ "[]"

end ValueType

end EffectGraph
