import EffectGraph.Definition.Basic
/-!
# Kinds for integers

`Integer` is a constant, `IntegerOperation` folds a group of integers with an operator, and
`Compare` compares two of them and branches on the outcome.

Integers have 64 bits and wrap. Zero is neutral on the right for every operator, so the empty slot
at the end of a group does not change a result.
-/

namespace EffectGraph

/-- The operators of `IntegerOperation`. -/
inductive IntegerOperator where
  | add
  | subtract
  | or
  | xor
  deriving DecidableEq

namespace IntegerOperator

/-- The operator applied to two integers. -/
def combine : IntegerOperator → Int64 → Int64 → Int64
  | add, a, b => a + b
  | subtract, a, b => a - b
  | or, a, b => a ||| b
  | xor, a, b => a ^^^ b

/-- The operator applied along a list from the left; an empty list gives zero. -/
def apply (o : IntegerOperator) : List Int64 → Int64
  | [] => 0
  | first :: rest => rest.foldl o.combine first

/-- Reads an operator, a word or a sign. The empty text means addition. -/
def ofText? (s : String) : Option IntegerOperator :=
  if s = "" ∨ s = "add" ∨ s = "+" then some add
  else if s = "subtract" ∨ s = "-" then some subtract
  else if s = "or" ∨ s = "|" then some or
  else if s = "xor" ∨ s = "^" then some xor
  else none

def unknownText (s : String) : String := "unknown integer operator '" ++ s ++ "'"

end IntegerOperator

/-- The comparisons of `Compare`. -/
inductive Comparison where
  | less
  | lessOrEqual
  | equal
  | different
  | greater
  | greaterOrEqual
  deriving DecidableEq

namespace Comparison

def holds : Comparison → Int64 → Int64 → Bool
  | less, a, b => a < b
  | lessOrEqual, a, b => a ≤ b
  | equal, a, b => a = b
  | different, a, b => a ≠ b
  | greater, a, b => b < a
  | greaterOrEqual, a, b => b ≤ a

/-- Reads a comparison sign. The empty text means equality. -/
def ofText? (s : String) : Option Comparison :=
  if s = "<" then some less
  else if s = "<=" then some lessOrEqual
  else if s = "" ∨ s = "==" then some equal
  else if s = "!=" then some different
  else if s = ">" then some greater
  else if s = ">=" then some greaterOrEqual
  else none

end Comparison

/-- The name of the control branch for a truth value. -/
def branchName (b : Bool) : String := if b then "true" else "false"

namespace Library

/-- A constant integer. -/
def integer : MethodDecl where
  name := "Integer"
  params := [.const (.value "value" .int)]
  returns := some .int
  body := some <| .compute fun c => do
    let v ← c.int "value"
    .ok (.returning (.int v))

/-- An operator applied along a group of integers. -/
def integerOperation : MethodDecl where
  name := "IntegerOperation"
  params := [.const (.value "operator" .string), .input (.variadic "values" .int)]
  returns := some .int
  obsoleteNames := ["IntOperation"]
  obsoleteMessage := some "IntOperation was renamed to IntegerOperation"
  body := some <| .compute fun c => do
    let text ← c.string "operator"
    match IntegerOperator.ofText? text with
    | none => .error (.failed (IntegerOperator.unknownText text))
    | some o =>
      let values ← c.array "values"
      .ok (.returning (.int (o.apply (values.map fun v => v.asInt?.getD 0))))

/-- A comparison of two integers, as a value and as a branch. -/
def compare : MethodDecl where
  name := "Compare"
  params :=
    [.input (.value "left" .int), .input (.value "right" .int), .const (.value "operator" .string),
      .branch (.control "true"), .branch (.control "false")]
  returns := some .bool
  body := some <| .compute fun c => do
    let left ← c.int "left"
    let right ← c.int "right"
    let text ← c.string "operator"
    match Comparison.ofText? text with
    | none => .error (.wrongArgument "operator" "a comparison operator" text)
    | some o =>
      let outcome := o.holds left right
      .ok ((Outcome.returning (.bool outcome)).take (branchName outcome))

end Library

end EffectGraph
