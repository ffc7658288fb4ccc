import EffectGraph.Number.Binary
import EffectGraph.Value.Type
/-!
# Values

The values that flow through ports. Cards, buffs and players are carried by number; a foreign object
is a handle on something that only the host can open.

Two comparisons exist side by side. `v = w` is equality of the data, decidable, and tells NaN
patterns and the two zeros apart. `Value.same` is equality of the values as numbers: NaN differs
from itself and the zeros are equal.

* `Value.belongsTo` says which values belong to a type;
* `ValueType.default` is the value that stands for a missing one, and conforms
  (`default_belongsTo`).
-/

namespace EffectGraph

/-- A handle on an object of the host. Two handles are the same object only if they agree in both
parts. -/
structure ForeignObject where
  /-- The name of the object's type. -/
  typeName : String
  /-- The identity of the object among those of its type. -/
  identity : Int64
  deriving DecidableEq

/-- A value. -/
inductive Value where
  | null
  | bool (b : Bool)
  | int (i : Int64)
  | float (x : Binary64)
  | string (s : String)
  | card (id : UInt64)
  | buff (id : UInt64)
  | player (id : UInt64)
  | array (items : List Value)
  | foreign (object : ForeignObject)

namespace Value

instance : Inhabited Value := ⟨null⟩

/-! ## Equality -/

mutual

/-- Whether two values are the same data. -/
def matches? : Value → Value → Bool
  | null, null => true
  | bool a, bool b => a = b
  | int a, int b => a = b
  | float a, float b => a = b
  | string a, string b => a = b
  | card a, card b => a = b
  | buff a, buff b => a = b
  | player a, player b => a = b
  | array as, array bs => allMatch? as bs
  | foreign a, foreign b => a = b
  | _, _ => false

/-- Whether two lists are the same data. -/
def allMatch? : List Value → List Value → Bool
  | [], [] => true
  | a :: as, b :: bs => matches? a b && allMatch? as bs
  | _, _ => false

end

mutual

theorem matches?_iff : ∀ v w : Value, matches? v w = true ↔ v = w
  | null, w => by cases w <;> simp [matches?]
  | bool a, w => by cases w <;> simp [matches?]
  | int a, w => by cases w <;> simp [matches?]
  | float a, w => by cases w <;> simp [matches?]
  | string a, w => by cases w <;> simp [matches?]
  | card a, w => by cases w <;> simp [matches?]
  | buff a, w => by cases w <;> simp [matches?]
  | player a, w => by cases w <;> simp [matches?]
  | array as, w => by cases w <;> simp [matches?, allMatch?_iff as]
  | foreign a, w => by cases w <;> simp [matches?]

theorem allMatch?_iff : ∀ vs ws : List Value, allMatch? vs ws = true ↔ vs = ws
  | [], ws => by cases ws <;> simp [allMatch?]
  | v :: vs, ws => by cases ws <;> simp [allMatch?, matches?_iff v, allMatch?_iff vs]

end

instance : DecidableEq Value := fun v w => decidable_of_iff _ (matches?_iff v w)

mutual

/-- Equality of values: numbers are compared as numbers, so NaN differs from itself and the zeros
are equal; foreign objects are compared by identity. -/
def same : Value → Value → Bool
  | null, null => true
  | bool a, bool b => a = b
  | int a, int b => a = b
  | float a, float b => a.same b
  | string a, string b => a = b
  | card a, card b => a = b
  | buff a, buff b => a = b
  | player a, player b => a = b
  | array as, array bs => allSame as bs
  | foreign a, foreign b => a = b
  | _, _ => false

/-- Equality of lists of values, element by element. -/
def allSame : List Value → List Value → Bool
  | [], [] => true
  | a :: as, b :: bs => same a b && allSame as bs
  | _, _ => false

end

/-! ## Reading a value at one type -/

def isNull : Value → Bool
  | null => true
  | _ => false

def asBool? : Value → Option Bool
  | bool b => some b
  | _ => none

def asInt? : Value → Option Int64
  | int i => some i
  | _ => none

def asFloat? : Value → Option Binary64
  | float x => some x
  | _ => none

def asString? : Value → Option String
  | string s => some s
  | _ => none

def asArray? : Value → Option (List Value)
  | array items => some items
  | _ => none

/-- The name of the kind of value, for messages: a foreign object goes by its type. -/
def kindName : Value → String
  | null => "null"
  | bool _ => "bool"
  | int _ => "int"
  | float _ => "float"
  | string _ => "string"
  | card _ => "card"
  | buff _ => "buff"
  | player _ => "player"
  | array _ => "array"
  | foreign o => o.typeName

/-! ## Values and types -/

/-- Whether a value belongs to a type. Every value belongs to `any`, `null` to every reference type,
and an array to an array type if all its elements belong to the element type. -/
def belongsTo : Value → ValueType → Bool
  | _, .any => true
  | null, t => t.isReference
  | bool _, .bool => true
  | int _, .int => true
  | float _, .float => true
  | string _, .string => true
  | card _, .card => true
  | buff _, .buff => true
  | player _, .player => true
  | foreign o, .object name => o.typeName = name
  | array items, .array e => items.all fun item => belongsTo item e
  | _, _ => false

end Value

/-- The value of an unconnected port of the type that has no default of its own. -/
def ValueType.default : ValueType → Value
  | bool => .bool false
  | int => .int 0
  | float => .float .zero
  | string => .string ""
  | array _ => .array []
  | any | card | buff | player | object _ => .null

/-- The default of a type belongs to it. -/
theorem ValueType.default_belongsTo (t : ValueType) : t.default.belongsTo t = true := by
  cases t <;> simp [ValueType.default, Value.belongsTo, ValueType.isReference]

end EffectGraph
