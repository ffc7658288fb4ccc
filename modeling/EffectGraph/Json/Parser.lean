import EffectGraph.Json.Basic
import EffectGraph.Number.Reading
/-!
# Reading JSON text

`Json.parse?` reads a whole text as one document. Every reader takes the characters that are left
and answers with what it read and the characters after it. Numbers are checked against the grammar
and kept as literals; the escapes of a string are resolved, pairs of surrogates included.

Elements and members are read at a bound on the remaining nesting and length, for which the length
of the text is always enough.
-/

namespace EffectGraph.Json

/-! ## Blanks and literals -/

/-- Whether a character is blank between the tokens of a document. -/
def isSpace (c : Char) : Bool := c = ' ' || c = '\n' || c = '\t' || c = '\r'

def skipSpace (cs : List Char) : List Char := cs.dropWhile isSpace

/-- Takes the digits in front; there has to be one. -/
def takeDigits? (cs : List Char) : Option (List Char × List Char) :=
  if (cs.takeWhile isDigit).isEmpty then none else some (cs.takeWhile isDigit, cs.dropWhile isDigit)

/-- Takes the digits of the whole part: a zero alone, or digits that do not start with zero. -/
def takeWhole? (cs : List Char) : Option (List Char × List Char) :=
  match cs with
  | '0' :: rest =>
    match rest with
    | c :: _ => if isDigit c then none else some (['0'], rest)
    | [] => some (['0'], [])
  | _ => takeDigits? cs

/-- Takes a point and the digits after it, if there is a point. -/
def takeFraction? (cs : List Char) : Option (List Char × List Char) :=
  match cs with
  | '.' :: rest => (takeDigits? rest).map fun p => ('.' :: p.1, p.2)
  | _ => some ([], cs)

/-- Takes an exponent, if there is one. -/
def takeExponent? (cs : List Char) : Option (List Char × List Char) :=
  match cs with
  | c :: rest =>
    if c = 'e' ∨ c = 'E' then
      match rest with
      | s :: digits =>
        if s = '+' ∨ s = '-' then (takeDigits? digits).map fun p => (c :: s :: p.1, p.2)
        else (takeDigits? rest).map fun p => (c :: p.1, p.2)
      | [] => none
    else some ([], cs)
  | [] => some ([], [])

/-- Takes the literal of a number. -/
def takeNumber? (cs : List Char) : Option (List Char × List Char) := do
  let (sign, rest) := match cs with
    | '-' :: rest => (['-'], rest)
    | rest => ([], rest)
  let (whole, rest) ← takeWhole? rest
  let (fraction, rest) ← takeFraction? rest
  let (exponent, rest) ← takeExponent? rest
  some (sign ++ whole ++ fraction ++ exponent, rest)

/-! ## Strings -/

/-- The value of a hexadecimal digit in either case. -/
def hexValue? (c : Char) : Option Nat :=
  if '0' ≤ c ∧ c ≤ '9' then some (c.toNat - '0'.toNat)
  else if 'a' ≤ c ∧ c ≤ 'f' then some (c.toNat - 'a'.toNat + 10)
  else if 'A' ≤ c ∧ c ≤ 'F' then some (c.toNat - 'A'.toNat + 10)
  else none

/-- The number of a four-digit escape. -/
def hexUnit? (a b c d : Char) : Option Nat := do
  some (((← hexValue? a) * 16 + (← hexValue? b)) * 256 + (← hexValue? c) * 16 + (← hexValue? d))

/-- The character of a two-character escape. -/
def shortEscape? (c : Char) : Option Char :=
  if c = '"' then some '"'
  else if c = '\\' then some '\\'
  else if c = '/' then some '/'
  else if c = 'b' then some '\x08'
  else if c = 'f' then some '\x0c'
  else if c = 'n' then some '\n'
  else if c = 'r' then some '\r'
  else if c = 't' then some '\t'
  else none

/-- Reads the inside of a string and the quote that ends it. The answer lists code points, with
surrogates for the escapes that spell them. Control characters have to be escaped. -/
def readUnits? : List Char → Option (List Nat × List Char)
  | [] => none
  | '"' :: rest => some ([], rest)
  | '\\' :: 'u' :: a :: b :: c :: d :: rest => do
    let u ← hexUnit? a b c d
    let (us, rest) ← readUnits? rest
    some (u :: us, rest)
  | '\\' :: c :: rest => do
    let u ← shortEscape? c
    let (us, rest) ← readUnits? rest
    some (u.toNat :: us, rest)
  | c :: rest =>
    if c.toNat < 0x20 ∨ c = '\\' then none
    else do
      let (us, rest) ← readUnits? rest
      some (c.toNat :: us, rest)

/-- Joins the surrogate pairs of a list of code points; nothing if a surrogate stands alone. -/
def joinSurrogates? : List Nat → Option (List Char)
  | [] => some []
  | [u] => if 0xd800 ≤ u ∧ u ≤ 0xdfff then none else some [Char.ofNat u]
  | u :: v :: rest =>
    if 0xd800 ≤ u ∧ u ≤ 0xdbff ∧ 0xdc00 ≤ v ∧ v ≤ 0xdfff then
      (joinSurrogates? rest).map
        (Char.ofNat (0x10000 + (u - 0xd800) * 0x400 + (v - 0xdc00)) :: ·)
    else if 0xd800 ≤ u ∧ u ≤ 0xdfff then none
    else (joinSurrogates? (v :: rest)).map (Char.ofNat u :: ·)

/-- Reads a string after its opening quote. -/
def readString? (cs : List Char) : Option (Option String × List Char) :=
  (readUnits? cs).map fun p => ((joinSurrogates? p.1).map String.ofList, p.2)

/-! ## Documents -/

mutual

/-- Reads a document with blanks in front. -/
def readValue? : Nat → List Char → Option (Json × List Char)
  | 0, _ => none
  | bound + 1, cs =>
    match skipSpace cs with
    | '"' :: rest => (readString? rest).map fun p => (string p.1, p.2)
    | '[' :: rest =>
      match skipSpace rest with
      | ']' :: rest => some (array [], rest)
      | rest => (readItems? bound rest).map fun p => (array p.1, p.2)
    | '\x7b' :: rest =>
      match skipSpace rest with
      | '\x7d' :: rest => some (object [], rest)
      | rest => (readMembers? bound rest).map fun p => (object p.1, p.2)
    | 'n' :: 'u' :: 'l' :: 'l' :: rest => some (null, rest)
    | 't' :: 'r' :: 'u' :: 'e' :: rest => some (bool true, rest)
    | 'f' :: 'a' :: 'l' :: 's' :: 'e' :: rest => some (bool false, rest)
    | rest => (takeNumber? rest).map fun p => (number (String.ofList p.1), p.2)

/-- Reads elements and the bracket after them; there has to be one element. -/
def readItems? : Nat → List Char → Option (List Json × List Char)
  | 0, _ => none
  | bound + 1, cs => do
    let (v, rest) ← readValue? bound cs
    match skipSpace rest with
    | ',' :: rest =>
      let (vs, rest) ← readItems? bound rest
      some (v :: vs, rest)
    | ']' :: rest => some ([v], rest)
    | _ => none

/-- Reads members and the brace after them; there has to be one member. -/
def readMembers? : Nat → List Char → Option (List (Option String × Json) × List Char)
  | 0, _ => none
  | bound + 1, cs => do
    match skipSpace cs with
    | '"' :: rest =>
      let (k, rest) ← readString? rest
      match skipSpace rest with
      | ':' :: rest =>
        let (v, rest) ← readValue? bound rest
        match skipSpace rest with
        | ',' :: rest =>
          let (ms, rest) ← readMembers? bound rest
          some ((k, v) :: ms, rest)
        | '\x7d' :: rest => some ([(k, v)], rest)
        | _ => none
      | _ => none
    | _ => none

end

/-- Reads a whole text as one document. -/
def parse? (s : String) : Option Json :=
  match readValue? (s.length + 1) s.toList with
  | some (v, rest) => if (skipSpace rest).isEmpty then some v else none
  | none => none

end EffectGraph.Json
