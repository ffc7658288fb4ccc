import EffectGraph.Number.Reading
import EffectGraph.Text.Blank
import EffectGraph.Value.Printer
/-!
# Conversion between types

A value that arrives at a port of another type is converted. A `ConversionHook` gives the direct
conversions between scalars; around it stand the rules for arrays, which are fixed:

* a value that belongs to the target type is left alone, and then the hook is asked;
* an array goes to an array type element by element, and to any other type through its first
  element;
* any other value but `null` becomes the one element of an array;
* where no rule applies the result is the default of the target type.

`feeds` is the static counterpart: whether a port of one type may feed a port of another.
-/

namespace EffectGraph

/-- The direct conversions of a host. -/
structure ConversionHook where
  /-- The value that stands for the given one in the target type, if there is a rule. -/
  convert? : Value → ValueType → Option Value
  /-- Whether a port of the first type may feed a port of the second by a rule of this hook. -/
  canConvert : ValueType → ValueType → Bool

namespace ConversionHook

/-- No direct conversions: only the rules for arrays are left. -/
def structural : ConversionHook where
  convert? _ _ := none
  canConvert _ _ := false

/-- The standard conversion of a value: integers and floating-point numbers into each other,
booleans and integers into each other, numerals in strings into numbers, and scalars into their
text. -/
def standardValue? : Value → ValueType → Option Value
  | .int i, .float => some (.float (.ofInt i.toInt))
  | .float x, .int => some (.int x.toInt64)
  | .bool b, .int => some (.int (if b then 1 else 0))
  | .int i, .bool => some (.bool (i ≠ 0))
  | .string s, .int => (readInt64? (trimBlank s.toList)).map .int
  | .string s, .float => (readBinary64? (trimBlank s.toList)).map .float
  | .int i, .string => some (.string (Value.int i).text)
  | .float x, .string => some (.string (Value.float x).text)
  | .bool b, .string => some (.string (Value.bool b).text)
  | _, _ => none

/-- The pairs of types between which the standard conversions may be wired. -/
def standardType : ValueType → ValueType → Bool
  | .int, .float | .float, .int | .bool, .int | .int, .bool => true
  | .string, .int | .string, .float => true
  | .int, .string | .float, .string | .bool, .string => true
  | _, _ => false

/-- The standard conversions. -/
def standard : ConversionHook where
  convert? := standardValue?
  canConvert := standardType

end ConversionHook

namespace Value

/-- The conversion that needs no array rule: the value itself if it belongs to the target, else what
the hook makes of it. -/
def convertDirectly? (hook : ConversionHook) (target : ValueType) (v : Value) : Option Value :=
  if v.belongsTo target then some v else hook.convert? v target

mutual

/-- Converts a value to a type that is no array type. -/
def convertScalar (hook : ConversionHook) (target : ValueType) : Value → Value
  | .array items =>
    (convertDirectly? hook target (.array items)).getD (convertFirst hook target items)
  | v => (convertDirectly? hook target v).getD target.default

/-- Converts the first element of an array; an array without elements gives the default. -/
def convertFirst (hook : ConversionHook) (target : ValueType) : List Value → Value
  | [] => target.default
  | first :: _ => convertScalar hook target first

end

/-- Converts a value to a type. -/
def convert (hook : ConversionHook) : ValueType → Value → Value
  | .array e, v =>
    (convertDirectly? hook (.array e) v).getD <|
      match v with
      | .array items => .array (items.map (convert hook e))
      | .null => .array []
      | v => .array [convert hook e v]
  | target, v => convertScalar hook target v

end Value

namespace ValueType

/-- Whether one type feeds another without taking arrays apart. -/
def feedsDirectly (hook : ConversionHook) (source target : ValueType) : Bool :=
  source = target || source = .any || target = .any || hook.canConvert source target

/-- Whether a port of the type `source`, no array type, may feed a port of another type. -/
def feedsInto (hook : ConversionHook) (source : ValueType) : ValueType → Bool
  | .array e => feedsDirectly hook source (.array e) || feedsInto hook source e
  | target => feedsDirectly hook source target

/-- Whether a port of the first type may feed a port of the second. -/
def feeds (hook : ConversionHook) : ValueType → ValueType → Bool
  | .array a, target =>
    feedsDirectly hook (.array a) target ||
      match target with
      | .array b => feeds hook a b
      | target => feeds hook a target
  | source, target => feedsInto hook source target

end ValueType

end EffectGraph
