/-!
# JSON documents

A document is a tree. Numbers keep their literal, because how a number is read depends on who reads
it. A string or a key is absent where its escapes spell half of a surrogate pair: such a string may
stand in a document but cannot be read.

Two printers write a document: `Json.compact` without any blanks and `Json.pretty` with one member
or element per line, indented by two blanks for each level. Both expect strings to be present.
-/

namespace EffectGraph

/-- A JSON document. -/
inductive Json where
  | null
  | bool (b : Bool)
  /-- A number by its literal. -/
  | number (literal : String)
  /-- A string, absent if its escapes spell half of a surrogate pair. -/
  | string (s : Option String)
  | array (items : List Json)
  | object (members : List (Option String × Json))

namespace Json

/-- The document of a text. -/
@[match_pattern] def text (s : String) : Json := string (some s)

/-- An object whose keys are given as texts. -/
def record (members : List (String × Json)) : Json :=
  object (members.map fun m => (some m.1, m.2))

def tagged (tag : String) (content : Json) : Json := record [(tag, content)]

/-! ## Strings -/

/-- A hexadecimal digit in lower case. -/
def hexDigit (n : Nat) : Char := Nat.digitChar n

/-- The characters that stand for one character of a string. Quotes, backslashes and control
characters are escaped, the latter by a short form where there is one. -/
def escape (c : Char) : List Char :=
  if c = '"' then ['\\', '"']
  else if c = '\\' then ['\\', '\\']
  else if c = '\x08' then ['\\', 'b']
  else if c = '\t' then ['\\', 't']
  else if c = '\n' then ['\\', 'n']
  else if c = '\x0c' then ['\\', 'f']
  else if c = '\r' then ['\\', 'r']
  else if c.toNat < 0x20 then
    ['\\', 'u', '0', '0', hexDigit (c.toNat / 16), hexDigit (c.toNat % 16)]
  else [c]

/-- A string between quotes. -/
def quoted (s : String) : String := "\"" ++ String.ofList (s.toList.flatMap escape) ++ "\""

/-- A string that may be absent between quotes. -/
def quotedKey (s : Option String) : String := quoted (s.getD "")

/-! ## Printing without blanks -/

mutual

/-- The text of a document without blanks. -/
def compact : Json → String
  | null => "null"
  | bool b => if b then "true" else "false"
  | number literal => literal
  | string s => quotedKey s
  | array items => "[" ++ ",".intercalate (compactItems items) ++ "]"
  | object members => "\x7b" ++ ",".intercalate (compactMembers members) ++ "\x7d"

def compactItems : List Json → List String
  | [] => []
  | v :: vs => v.compact :: compactItems vs

def compactMembers : List (Option String × Json) → List String
  | [] => []
  | (k, v) :: ms => (quotedKey k ++ ":" ++ v.compact) :: compactMembers ms

end

/-! ## Printing with indentation -/

/-- A new line, indented for a level. -/
def newLine (level : Nat) : String := "\n" ++ String.ofList (List.replicate (2 * level) ' ')

/-- Lines between brackets, separated by commas. Brackets around nothing stand on one line. -/
def block (level : Nat) (opening : String) (lines : List String) (closing : String) : String :=
  if lines.isEmpty then opening ++ closing
  else opening ++ ",".intercalate lines ++ newLine level ++ closing

mutual

/-- The text of a document at a level of indentation. -/
def prettyAt (level : Nat) : Json → String
  | null => "null"
  | bool b => if b then "true" else "false"
  | number literal => literal
  | string s => quotedKey s
  | array items => block level "[" (prettyItems (level + 1) items) "]"
  | object members => block level "\x7b" (prettyMembers (level + 1) members) "\x7d"

def prettyItems (level : Nat) : List Json → List String
  | [] => []
  | v :: vs => (newLine level ++ v.prettyAt level) :: prettyItems level vs

def prettyMembers (level : Nat) : List (Option String × Json) → List String
  | [] => []
  | (k, v) :: ms =>
    (newLine level ++ quotedKey k ++ ": " ++ v.prettyAt level) :: prettyMembers level ms

end

/-- The text of a document with indentation. -/
def pretty (v : Json) : String := v.prettyAt 0

end Json

end EffectGraph
