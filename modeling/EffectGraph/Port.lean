import EffectGraph.Number.Reading
import EffectGraph.Table
import EffectGraph.Value.Type
/-!
# Nodes and ports by name

The identities that the rest of the library speaks of: node ids, port ids, the declaration of a
port, and slot keys, which name an input of a node together with its place in a variadic group.
-/

namespace EffectGraph

/-- The id of a node, unique within its graph. -/
structure NodeId where
  number : UInt32
  deriving DecidableEq

def NodeId.text (n : NodeId) : String := natText n.number.toNat

instance : KeyOrder NodeId where
  before a b := decide (a.number.toNat < b.number.toNat)
  before_irrefl _ := decide_eq_false (Nat.lt_irrefl _)
  before_trans h₁ h₂ :=
    decide_eq_true (Nat.lt_trans (of_decide_eq_true h₁) (of_decide_eq_true h₂))
  before_total h₁ h₂ :=
    congrArg NodeId.mk <| UInt32.toNat_inj.1 <|
      Nat.le_antisymm (Nat.not_lt.1 (of_decide_eq_false h₂)) (Nat.not_lt.1 (of_decide_eq_false h₁))

/-- The id of a port: the graph that made it and its number there. -/
structure PortId where
  graph : Nat
  index : Nat
  deriving DecidableEq

/-- The text of a port id in messages; the graph is left out. -/
def PortId.text (p : PortId) : String := "#" ++ natText p.index

namespace PortId

/-- Ports are ordered by graph and then by number. -/
def before (a b : PortId) : Bool :=
  decide (a.graph < b.graph ∨ a.graph = b.graph ∧ a.index < b.index)

theorem before_irrefl (a : PortId) : a.before a = false := by simp [before]

theorem before_trans {a b c : PortId} (h₁ : a.before b = true) (h₂ : b.before c = true) :
    a.before c = true := by
  simp only [before, decide_eq_true_eq] at *
  omega

theorem before_total {a b : PortId} (h₁ : a.before b = false) (h₂ : b.before a = false) :
    a = b := by
  simp only [before, decide_eq_false_iff_not] at *
  cases a; cases b
  simp only [PortId.mk.injEq] at *
  omega

end PortId

instance : KeyOrder PortId :=
  ⟨PortId.before, PortId.before_irrefl, PortId.before_trans, PortId.before_total⟩

/-! ## Reserved names -/

/-- The control input of every action node. -/
def enterName : String := "enter"

/-- The control output of every action node that is taken unless a branch is chosen. -/
def exitName : String := "exit"

/-- The output that carries the return value of a method. -/
def returnName : String := "return"

/-! ## Declarations -/

/-- The declaration of a port or of a variadic group of ports. Declarations are compared as data
when a node is reshaped: a port survives exactly if its declaration does. -/
structure PortDecl where
  /-- The type of the port, for a variadic group that of each slot. -/
  type : ValueType
  /-- The name by which the port is addressed. -/
  name : String
  /-- The name shown to people. -/
  displayName : String
  /-- Whether this declares a group of slots. -/
  isVariadic : Bool
  /-- Whether control rather than a value passes the port. -/
  isControl : Bool
  deriving DecidableEq

namespace PortDecl

/-- A value port shown under its own name. -/
def value (name : String) (type : ValueType) : PortDecl := ⟨type, name, name, false, false⟩

/-- A variadic group of value ports. -/
def variadic (name : String) (element : ValueType) : PortDecl := ⟨element, name, name, true, false⟩

def control (name : String) : PortDecl := ⟨.any, name, name, false, true⟩

/-- The single port that carries a variadic group as one array; any other declaration is kept. -/
def packed (d : PortDecl) : PortDecl :=
  if d.isVariadic then { d with type := .array d.type, isVariadic := false } else d

end PortDecl

/-- The side of a node that a port is on. -/
inductive Direction where
  | input
  | output
  deriving DecidableEq

/-- The role of a port: its side and what passes it. -/
inductive PortRole where
  | valueInput
  | valueOutput
  | controlInput
  | controlOutput
  deriving DecidableEq

namespace PortRole

/-- The role of a port on a side. -/
def of (direction : Direction) (isControl : Bool) : PortRole :=
  match direction, isControl with
  | .input, false => valueInput
  | .output, false => valueOutput
  | .input, true => controlInput
  | .output, true => controlOutput

/-- Whether the role admits one connection at most: a value input takes one value, and a control
output leads to one next step. -/
def isSingle : PortRole → Bool
  | valueInput | controlOutput => true
  | valueOutput | controlInput => false

def text : PortRole → String
  | valueInput => "value input"
  | valueOutput => "value output"
  | controlInput => "control input"
  | controlOutput => "control output"

end PortRole

/-! ## Slot keys -/

/-- An input of a node by name, with the place in its group for a slot of a variadic group. -/
structure SlotKey where
  name : String
  /-- The place in the group, from zero. -/
  index : Option Nat
  deriving DecidableEq

namespace SlotKey

/-- The text of a slot key, `name` or `name[index]`. -/
def text (k : SlotKey) : String :=
  match k.index with
  | some i => k.name ++ "[" ++ natText i ++ "]"
  | none => k.name

/-- Slot indices in text are numbers of 64 bits. -/
def indexBound : Nat := UInt64.size

/-- Splits a list at the first opening bracket, if there is one. -/
def splitBracket? : List Char → Option (List Char × List Char)
  | [] => none
  | c :: cs => if c = '[' then some ([], cs) else (splitBracket? cs).map fun p => (c :: p.1, p.2)

/-- The part of the text before a closing bracket at its end, if there is one. -/
def beforeClosing? (cs : List Char) : Option (List Char) :=
  if cs.getLast? = some ']' then some cs.dropLast else none

/-- Reads a slot key. A text that ends in a closing bracket and has an opening one is cut at the
first opening bracket, and what stands between must be an index; nothing otherwise. Any other text
is the name of a single input. -/
def ofText? (s : String) : Option SlotKey :=
  match (beforeClosing? s.toList).bind splitBracket? with
  | some (name, index) =>
    (readNatBelow? indexBound index).map fun i => ⟨String.ofList name, some i⟩
  | none => some ⟨s, none⟩

/-- Whether one index comes before another; the missing index comes first. -/
def indexBefore : Option Nat → Option Nat → Bool
  | none, none => false
  | none, some _ => true
  | some _, none => false
  | some i, some j => i < j

/-- Slot keys are ordered by name and then by index. -/
def before (a b : SlotKey) : Bool :=
  decide (a.name < b.name) || (decide (a.name = b.name) && indexBefore a.index b.index)

theorem before_irrefl (a : SlotKey) : a.before a = false := by
  obtain ⟨_, _ | i⟩ := a <;> simp [before, indexBefore]

theorem before_trans {a b c : SlotKey} (h₁ : a.before b = true) (h₂ : b.before c = true) :
    a.before c = true := by
  simp only [before, Bool.or_eq_true, decide_eq_true_eq, Bool.and_eq_true] at *
  rcases h₁ with h₁ | ⟨e₁, h₁⟩ <;> rcases h₂ with h₂ | ⟨e₂, h₂⟩
  · exact .inl (String.lt_trans h₁ h₂)
  · exact .inl (e₂ ▸ h₁)
  · exact .inl (e₁ ▸ h₂)
  · refine .inr ⟨e₁.trans e₂, ?_⟩
    obtain ⟨_, _ | i⟩ := a <;> obtain ⟨_, _ | j⟩ := b <;> obtain ⟨_, _ | k⟩ := c <;>
      simp_all [indexBefore]
    omega

theorem before_total {a b : SlotKey} (h₁ : a.before b = false) (h₂ : b.before a = false) :
    a = b := by
  simp only [before, Bool.or_eq_false_iff, decide_eq_false_iff_not, String.not_lt,
    Bool.and_eq_false_iff] at *
  have name : a.name = b.name := String.le_antisymm h₂.1 h₁.1
  have i₁ := h₁.2.resolve_left (fun h => h name)
  have i₂ := h₂.2.resolve_left (fun h => h name.symm)
  obtain ⟨n, _ | i⟩ := a <;> obtain ⟨m, _ | j⟩ := b <;> simp_all [indexBefore]
  omega

instance : KeyOrder SlotKey := ⟨before, before_irrefl, before_trans, before_total⟩

end SlotKey

end EffectGraph
