import EffectGraph.Number.Reading
/-!
# Reading a numeral by scaling

A numeral in a document is not read to the nearest floating-point number. Its digits are taken as
one natural number as far as 64 bits hold them, that number is rounded, and the result is multiplied
or divided by a power of ten that is rounded as well. Three roundings may miss the nearest number by
a few units in the last place; numerals with few digits and a small exponent are read exactly.

`takeFitting` says which digits are taken, `BinaryFormat.times` and `BinaryFormat.dividedBy` are the
two rounded operations, and `Numeral.scaled?` puts them together.
-/

namespace EffectGraph

/-! ## The digits that are taken -/

/-- Continues the number `acc` by digits from the front as long as it stays below `bound`; the
second part counts the digits that are left. Characters that are no digits count as zero. -/
def takeFitting (bound acc : Nat) : List Char → Nat × Nat
  | [] => (acc, 0)
  | c :: cs =>
    let next := acc * 10 + (digitValue? c).getD 0
    if next < bound then takeFitting bound next cs else (acc, cs.length + 1)

/-- The digits of a numeral that 64 bits hold, first those before the point, then those after it.
Each digit that is dropped before the point and each one that is taken after it shifts the exponent.
-/
def Numeral.significant (n : Numeral) : Decimal :=
  let (whole, dropped) := takeFitting UInt64.size 0 n.whole
  let (digits, unread) := takeFitting UInt64.size whole n.fraction
  ⟨digits, n.exponent + dropped - (n.fraction.length - unread : Nat)⟩

/-! ## Rounded operations on magnitudes -/

namespace BinaryFormat

variable (f : BinaryFormat)

/-- The magnitude of a finite pattern as a quotient of natural numbers. -/
def magnitude (bits : Nat) : Nat × Nat :=
  match f.decode bits with
  | .finite _ mantissa exponent =>
    (mantissa * Nat.pow 2 exponent.toNat, Nat.pow 2 (-exponent).toNat)
  | _ => (0, 1)

/-- The product of two magnitudes, rounded. -/
def times (x y : Nat) : Nat :=
  f.round false ((f.magnitude x).1 * (f.magnitude y).1) ((f.magnitude x).2 * (f.magnitude y).2)

/-- The quotient of a magnitude by a positive one, rounded. -/
def dividedBy (x y : Nat) : Nat :=
  f.round false ((f.magnitude x).1 * (f.magnitude y).2) ((f.magnitude x).2 * (f.magnitude y).1)

/-- A power of ten, rounded. -/
def powerOfTen (n : Nat) : Nat := f.round false (Nat.pow 10 n) 1

end BinaryFormat

/-- The largest power of ten below the infinities of the 64-bit format. -/
def largestPower : Nat := 308

/-- The number that `d` is read as, or nothing if it is too large. -/
def Decimal.scaled? (negative : Bool) (d : Decimal) : Option Binary64 :=
  let f := BinaryFormat.double
  let start := f.round false d.digits 1
  let bits :=
    if 0 ≤ d.exponent then
      if d.exponent ≤ largestPower then f.times start (f.powerOfTen d.exponent.toNat)
      else if d.digits = 0 then 0
      else f.infinityBits
    else
      let e := (-d.exponent).toNat
      -- Beyond the largest power a second division is needed, and beyond twice that no digit of a
      -- 64-bit number is left.
      if e ≤ largestPower then f.dividedBy start (f.powerOfTen e)
      else if e ≤ 2 * largestPower then
        f.dividedBy (f.dividedBy start (f.powerOfTen largestPower))
          (f.powerOfTen (e - largestPower))
      else 0
  if bits = f.infinityBits then none else some ⟨(f.withSign negative bits).toUInt64⟩

/-- The number that a numeral is read as, or nothing if it is too large. -/
def Numeral.scaled? (negative : Bool) (n : Numeral) : Option Binary64 :=
  n.significant.scaled? negative

end EffectGraph
