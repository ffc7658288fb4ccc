import EffectGraph.Number.Decimal
/-!
# Reading numerals

The numerals that stand in text: integers with an optional sign, slot indices, and floating-point
numerals with an optional fraction and exponent or one of the words for infinity and NaN. A numeral
is read as a whole or refused; blanks around it are the caller's concern.
-/

namespace EffectGraph

/-- Splits an optional sign off; the first part says whether it was a minus sign. -/
def splitSign : List Char → Bool × List Char
  | '-' :: cs => (true, cs)
  | '+' :: cs => (false, cs)
  | cs => (false, cs)

/-- Reads an integer: an optional sign and at least one digit. -/
def readInt? (cs : List Char) : Option Int :=
  let (negative, digits) := splitSign cs
  (natOfDigits? digits).map fun n => if negative then -(n : Int) else n

/-- Reads an integer of the signed 64-bit range. -/
def readInt64? (cs : List Char) : Option Int64 :=
  (readInt? cs).bind fun n =>
    if Int64.minValue.toInt ≤ n ∧ n ≤ Int64.maxValue.toInt then some (Int64.ofInt n) else none

/-- Reads a natural number below `bound`: an optional plus sign and at least one digit. -/
def readNatBelow? (bound : Nat) (cs : List Char) : Option Nat :=
  let digits := match cs with
    | '+' :: ds => ds
    | ds => ds
  (natOfDigits? digits).bind fun n => if n < bound then some n else none

/-- Whether a character is a decimal digit. -/
def isDigit (c : Char) : Bool := (digitValue? c).isSome

/-- Reads an exponent part: nothing at all, or `e` or `E` and an integer. -/
def readExponent? : List Char → Option Int
  | [] => some 0
  | c :: cs => if c = 'e' ∨ c = 'E' then readInt? cs else none

/-- An unsigned numeral in its parts: the digits before and after the point and the exponent. -/
structure Numeral where
  whole : List Char
  fraction : List Char
  /-- The exponent as written, zero if there is none. -/
  exponent : Int

/-- Reads digits with an optional point among or around them and an optional exponent. -/
def readNumeral? (cs : List Char) : Option Numeral :=
  let whole := cs.takeWhile isDigit
  let rest := cs.dropWhile isDigit
  let (fraction, rest) := match rest with
    | '.' :: ds => (ds.takeWhile isDigit, ds.dropWhile isDigit)
    | _ => ([], rest)
  (readExponent? rest).map fun e => ⟨whole, fraction, e⟩

/-- The number that a numeral stands for; it needs at least one digit before the exponent. -/
def Numeral.decimal? (n : Numeral) : Option Decimal :=
  (natOfDigits? (n.whole ++ n.fraction)).map fun d => ⟨d, n.exponent - n.fraction.length⟩

/-- Reads a numeral as the number that it stands for. -/
def readDecimal? (cs : List Char) : Option Decimal := (readNumeral? cs).bind Numeral.decimal?

/-- Lower case of an ASCII letter; every other character is unchanged. The words of floating-point
numerals are ASCII. -/
def lowerAscii (c : Char) : Char := c.toLower

/-- Reads a 64-bit floating-point numeral: an optional sign, then `inf`, `infinity` or `nan` in any
case, or a decimal. -/
def readBinary64? (cs : List Char) : Option Binary64 :=
  let (negative, body) := splitSign cs
  let f := BinaryFormat.double
  let word := String.ofList (body.map lowerAscii)
  if word = "inf" ∨ word = "infinity" then some ⟨(f.withSign negative f.infinityBits).toUInt64⟩
  else if word = "nan" then some ⟨(f.withSign negative f.nanBits).toUInt64⟩
  else (readDecimal? body).map fun d => d.toBinary64 negative

end EffectGraph
