import EffectGraph.Json.Reader
import EffectGraph.Number.Layout
import EffectGraph.Value.Basic
/-!
# Values and types in JSON

A value or a type without content is its name in a string; any other is an object with its name as
the only key. Foreign objects cannot be stored, so the printer of values may refuse.
-/

namespace EffectGraph

/-- The document of a floating-point number; infinities and NaN have none but `null`. -/
def Binary64.toJson (x : Binary64) : Json :=
  if x.isFinite then .number (NumberStyle.jsonDouble.text .double x.reading) else .null

/-- The document of a coordinate; infinities and NaN have none but `null`. -/
def Binary32.toJson (x : Binary32) : Json :=
  if x.isFinite then .number (NumberStyle.jsonSingle.text .single x.reading) else .null

def natJson (n : Nat) : Json := .number (natText n)

namespace Value

mutual

/-- The document of a value, if it holds no foreign object. -/
def toJson? : Value → Option Json
  | null => some (.text "Null")
  | bool b => some (.tagged "Bool" (.bool b))
  | int i => some (.tagged "Int" (.number (intText i.toInt)))
  | float x => some (.tagged "Float" x.toJson)
  | string s => some (.tagged "String" (.text s))
  | card id => some (.tagged "Card" (natJson id.toNat))
  | buff id => some (.tagged "Buff" (natJson id.toNat))
  | player id => some (.tagged "Player" (natJson id.toNat))
  | array items => (allToJson? items).map fun vs => .tagged "Array" (.array vs)
  | foreign _ => none

def allToJson? : List Value → Option (List Json)
  | [] => some []
  | v :: vs => do
    let j ← v.toJson?
    let js ← allToJson? vs
    some (j :: js)

end

mutual

def ofJson? (levels : Nat) : Json → Option Value
  | .string (some tag) => if tag = "Null" then some null else none
  | .object [(some tag, content)] =>
    (JsonReader.enter? levels).bind fun levels =>
      if tag = "Null" then (if content matches .null then some null else none)
      else if tag = "Bool" then (JsonReader.bool levels content).map bool
      else if tag = "Int" then (JsonReader.int64 levels content).map int
      else if tag = "Float" then (JsonReader.binary64 levels content).map float
      else if tag = "String" then (JsonReader.string levels content).map string
      else if tag = "Card" then (JsonReader.uint64 levels content).map card
      else if tag = "Buff" then (JsonReader.uint64 levels content).map buff
      else if tag = "Player" then (JsonReader.uint64 levels content).map player
      else if tag = "Array" then (arrayOfJson? levels content).map array
      else none
  | _ => none

/-- Reads the elements of an array of values. -/
def arrayOfJson? (levels : Nat) : Json → Option (List Value)
  | .array items => (JsonReader.enter? levels).bind fun levels => allOfJson? levels items
  | _ => none

def allOfJson? (levels : Nat) : List Json → Option (List Value)
  | [] => some []
  | v :: vs => do
    let a ← ofJson? levels v
    let as ← allOfJson? levels vs
    some (a :: as)

end

end Value

namespace ValueType

def toJson : ValueType → Json
  | any => .text "Any"
  | bool => .text "Bool"
  | int => .text "Int"
  | float => .text "Float"
  | string => .text "String"
  | card => .text "Card"
  | buff => .text "Buff"
  | player => .text "Player"
  | object name => .tagged "Object" (.text name)
  | array e => .tagged "Array" e.toJson

/-- The type without content of a name. -/
def ofName? (name : String) : Option ValueType :=
  if name = "Any" then some any
  else if name = "Bool" then some bool
  else if name = "Int" then some int
  else if name = "Float" then some float
  else if name = "String" then some string
  else if name = "Card" then some card
  else if name = "Buff" then some buff
  else if name = "Player" then some player
  else none

/-- Reads a type. Each level of an array type is one level of nesting. -/
def ofJson? : Nat → Json → Option ValueType
  | _, .string (some name) => ofName? name
  | levels + 2, .object [(some tag, content)] =>
    if tag = "Object" then (JsonReader.string (levels + 1) content).map object
    else if tag = "Array" then (ofJson? (levels + 1) content).map array
    else if content matches .null then ofName? tag
    else none
  | _, _ => none

end ValueType

end EffectGraph
