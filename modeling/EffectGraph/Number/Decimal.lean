import EffectGraph.Number.Binary
/-!
# Decimal numbers and their digits

`Decimal` is the number `digits · 10 ^ exponent`, the common form of a numeral that has been read
and of the digits chosen for printing a floating-point number. `Decimal.round` is the nearest number
of a binary format.
-/

namespace EffectGraph

/-- The non-negative number `digits · 10 ^ exponent`. -/
structure Decimal where
  digits : Nat
  /-- The power of ten that they count. -/
  exponent : Int
  deriving DecidableEq

/-- How many decimal digits a natural number has; zero has one. -/
def digitCount (n : Nat) : Nat := (Nat.toDigits 10 n).length

/-- The decimal text of a natural number. -/
def natText (n : Nat) : String := String.ofList (Nat.toDigits 10 n)

/-- The decimal text of an integer, a minus sign in front of a negative one. -/
def intText (n : Int) : String :=
  if n < 0 then "-" ++ natText n.natAbs else natText n.natAbs

/-- The value of a decimal digit. -/
def digitValue? (c : Char) : Option Nat :=
  if '0' ≤ c ∧ c ≤ '9' then some (c.toNat - '0'.toNat) else none

/-- The number that a list of decimal digits spells, the first digit highest, continuing `acc`;
nothing if another character occurs. -/
def digitsValue? (acc : Nat) : List Char → Option Nat
  | [] => some acc
  | c :: cs => (digitValue? c).bind fun d => digitsValue? (acc * 10 + d) cs

/-- The number that a non-empty list of decimal digits spells. -/
def natOfDigits? (cs : List Char) : Option Nat :=
  if cs.isEmpty then none else digitsValue? 0 cs

namespace Decimal

/-- A number with this many digits or more before the point is above every finite number of the
formats used, and one with this many zeros after the point rounds to zero. -/
def magnitudeLimit : Int := 400

/-- The pattern of the given format nearest to `± d`. Numbers far outside the format's range are
settled by their magnitude, so that a numeral with a huge exponent costs nothing. -/
def round (f : BinaryFormat) (negative : Bool) (d : Decimal) : Nat :=
  let magnitude : Int := digitCount d.digits + d.exponent
  if d.digits = 0 ∨ magnitude < -magnitudeLimit then f.withSign negative 0
  else if magnitudeLimit < magnitude then f.withSign negative f.infinityBits
  else f.round negative (d.digits * Nat.pow 10 d.exponent.toNat) (Nat.pow 10 (-d.exponent).toNat)

/-- The 64-bit number nearest to `± d`. -/
def toBinary64 (negative : Bool) (d : Decimal) : Binary64 :=
  ⟨(d.round .double negative).toUInt64⟩

end Decimal

end EffectGraph
