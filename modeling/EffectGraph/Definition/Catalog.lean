import EffectGraph.Definition.Basic
/-!
# The catalog of node kinds

The catalog keeps definitions by name. A kind can also be asked for by an alias, in particular by
the names it had before, so that graphs saved under an old name still load.
-/

namespace EffectGraph

structure Catalog where
  definitions : Table String Definition
  /-- For each alias the name that it stands for. -/
  aliases : Table String String

/-- The use of an alias, to be reported. -/
structure AliasUse where
  /-- The alias that was asked for. -/
  name : String
  /-- The name of the kind that was found. -/
  define : String
  message : String
  deriving DecidableEq

namespace Catalog

def empty : Catalog := ⟨.empty, .empty⟩

/-- Makes a name stand for another. -/
def addAlias (c : Catalog) (name target : String) : Catalog :=
  { c with aliases := c.aliases.insert name target }

/-- Adds a definition, in the stead of one of the same name, and aliases for its obsolete names. -/
def register (c : Catalog) (d : Definition) : Catalog where
  definitions := c.definitions.insert d.name d
  aliases := d.obsoleteNames.foldl (fun t n => t.insert n d.name) c.aliases

/-- The definition that an alias leads to. -/
def byAlias? (c : Catalog) (name : String) : Option Definition :=
  (c.aliases.get? name).bind c.definitions.get?

/-- The definition registered under a name, or else the one that the name is an alias of. -/
def get? (c : Catalog) (name : String) : Option Definition :=
  (c.definitions.get? name) <|> c.byAlias? name

/-- What a look-up of a name has to report: the use of an alias. -/
def notice? (c : Catalog) (name : String) : Option AliasUse :=
  if c.definitions.contains name then none
  else (c.byAlias? name).map fun d => ⟨name, d.name, d.obsoleteMessage.getD ""⟩

def contains (c : Catalog) (name : String) : Bool :=
  c.definitions.contains name || c.aliases.contains name

def names (c : Catalog) : List String := c.definitions.keys

end Catalog

end EffectGraph
