import EffectGraph.Json.Basic
import EffectGraph.Number.Scaling
import EffectGraph.Table
/-!
# Reading documents at a type

A reader takes the nesting that is left and a document, and answers with a value of its type or with
nothing. Every array or object that is read costs one level; a value that nobody reads costs none.

Records are read in two forms: as an object with a member for each field, in any order and among
members that are not fields, or as an array with an element for each field. Alternatives are read as
a string if they have no content and as an object with one member otherwise.
-/

namespace EffectGraph

/-- A reader of documents at a type. -/
abbrev JsonReader (α : Type) := Nat → Json → Option α

namespace JsonReader

/-- The number of levels that a document may have, one more than the containers nested in one
another. -/
def levels : Nat := 128

/-- The nesting that is left inside a container; the last level admits none. -/
def enter? : Nat → Option Nat
  | n + 2 => some (n + 1)
  | _ => none

/-! ## Strings, booleans and numbers -/

def string : JsonReader String
  | _, .string s => s
  | _, _ => none

def bool : JsonReader Bool
  | _, .bool b => some b
  | _, _ => none

/-- The literal of a number without its sign, and whether it has one. -/
def splitMinus (cs : List Char) : Bool × List Char :=
  match cs with
  | '-' :: rest => (true, rest)
  | rest => (false, rest)

/-- The integer that a literal denotes: digits alone, in the range of the 64-bit integers, signed or
unsigned. Minus zero is no integer. -/
def integerOf? (literal : String) : Option Int :=
  let (negative, digits) := splitMinus literal.toList
  match natOfDigits? digits with
  | none => none
  | some n =>
    if negative then
      if n = 0 ∨ -(n : Int) < Int64.minValue.toInt then none else some (-(n : Int))
    else if n < UInt64.size then some n
    else none

/-- Reads an integer from `low` to `high`. -/
def integer (low high : Int) : JsonReader Int
  | _, .number literal =>
    (integerOf? literal).bind fun n => if low ≤ n ∧ n ≤ high then some n else none
  | _, _ => none

def int64 : JsonReader Int64 := fun levels v =>
  (integer Int64.minValue.toInt Int64.maxValue.toInt levels v).map Int64.ofInt

def uint64 : JsonReader UInt64 := fun levels v =>
  (integer 0 (UInt64.size - 1 : Nat) levels v).map fun n => n.toNat.toUInt64

def uint32 : JsonReader UInt32 := fun levels v =>
  (integer 0 (UInt32.size - 1 : Nat) levels v).map fun n => n.toNat.toUInt32

/-- The 64-bit floating-point number that a literal is read as, which must not be too large for one:
the nearest to an integer, and any other numeral by scaling. -/
def binary64Of? (literal : String) : Option Binary64 :=
  match integerOf? literal with
  | some n => some (.ofInt n)
  | none =>
    let (negative, body) := splitMinus literal.toList
    (readNumeral? body).bind (·.scaled? negative)

def binary64 : JsonReader Binary64
  | _, .number literal => binary64Of? literal
  | _, _ => none

/-- Reads a 32-bit floating-point number: an integer is rounded once, any other literal to 64 bits
first. -/
def binary32 : JsonReader Binary32
  | _, .number literal =>
    match integerOf? literal with
    | some n => some (.ofInt n)
    | none => (binary64Of? literal).map (·.toBinary32)
  | _, _ => none

/-- Reads what may be missing: `null` or a value. -/
def optional {α : Type} (reader : JsonReader α) : JsonReader (Option α)
  | _, .null => some none
  | levels, v => (reader levels v).map some

/-! ## Arrays and objects -/

/-- Reads documents one after another. -/
def each {α : Type} (read? : Json → Option α) : List Json → Option (List α)
  | [] => some []
  | v :: vs => do
    let a ← read? v
    let as ← each read? vs
    some (a :: as)

def list {α : Type} (reader : JsonReader α) : JsonReader (List α)
  | levels, .array items => (enter? levels).bind fun levels => each (reader levels) items
  | _, _ => none

/-- Reads members into a table; of two members with one key the later counts. -/
def entries {α : Type} (read? : Json → Option α) :
    List (Option String × Json) → Table String α → Option (Table String α)
  | [], t => some t
  | (none, _) :: _, _ => none
  | (some k, v) :: ms, t => do
    let a ← read? v
    entries read? ms (t.insert k a)

/-- Reads an object as a table. -/
def table {α : Type} (reader : JsonReader α) : JsonReader (Table String α)
  | levels, .object members =>
    (enter? levels).bind fun levels => entries (reader levels) members .empty
  | _, _ => none

/-! ## Records -/

/-- The fields found for a record. -/
structure Fields where
  /-- Whether they were members of an object. -/
  named : Bool
  /-- For each field its document, if there is one. -/
  found : List (Option Json)

/-- The member of a key. -/
def member? (key : String) (members : List (Option String × Json)) : Option Json :=
  (members.find? fun m => m.1 = some key).map (·.2)

/-- Whether every key can be read and no field occurs twice. -/
def wellKeyed (names : List String) (members : List (Option String × Json)) : Bool :=
  members.all (fun m => m.1.isSome) &&
    names.all fun n => decide ((members.countP fun m => m.1 = some n) ≤ 1)

/-- Finds the fields of a record in an object or in an array, which must not have more elements than
there are fields, and reads them with the nesting that is left. -/
def record {α : Type} (names : List String) (read? : Nat → Fields → Option α) : JsonReader α
  | levels, .object members =>
    (enter? levels).bind fun levels =>
      if wellKeyed names members then
        read? levels ⟨true, names.map fun n => member? n members⟩
      else none
  | levels, .array items =>
    (enter? levels).bind fun levels =>
      if items.length ≤ names.length then
        -- Elements that are missing at the end are fields that are left out.
        read? levels ⟨false, (List.range names.length).map fun i => items[i]?⟩
      else none
  | _, _ => none

/-- The document of a field, if there is one. -/
def Fields.get? (f : Fields) (i : Nat) : Option Json := (f.found[i]?).join

/-- Reads a field that has to be there. -/
def Fields.require {α : Type} (f : Fields) (i : Nat) (read? : Json → Option α) : Option α :=
  (f.get? i).bind read?

/-- Reads a field that may be left out for a default. -/
def Fields.getD {α : Type} (f : Fields) (i : Nat) (default : α) (read? : Json → Option α) :
    Option α :=
  match f.get? i with
  | some v => read? v
  | none => some default

/-- Reads a field that may be `null`; among named members it may also be left out. -/
def Fields.optional {α : Type} (f : Fields) (i : Nat) (read? : Json → Option (Option α)) :
    Option (Option α) :=
  match f.get? i with
  | some v => read? v
  | none => if f.named then some none else none

/-! ## Alternatives -/

/-- One of several alternatives as it is written: its name, what is left of the nesting, and its
content if it has any. -/
structure Choice where
  tag : String
  levels : Nat
  content : Option Json

/-- Reads the name of an alternative with or without content. -/
def choice? : JsonReader Choice
  | levels, .string (some tag) => some ⟨tag, levels, none⟩
  | levels, .object [(some tag, content)] =>
    (enter? levels).map fun levels => ⟨tag, levels, some content⟩
  | _, _ => none

/-- Whether an alternative without content is written as such: by its name alone or with `null`. -/
def Choice.isUnit (c : Choice) : Bool :=
  match c.content with
  | none => true
  | some v => v matches .null

/-- Reads the content of an alternative. -/
def Choice.read {α : Type} (c : Choice) (reader : JsonReader α) : Option α :=
  c.content.bind (reader c.levels)

end JsonReader

end EffectGraph
