/-!
# Binary floating-point numbers

Values and editor positions are binary floating-point numbers of 64 and 32 bits. They are kept as
bit patterns, so that every NaN and both zeros are told apart, and all arithmetic on them is done on
the exact value `± mantissa · 2 ^ exponent` in natural numbers and integers.

One descriptor, `BinaryFormat`, serves both widths. `BinaryFormat.decode` reads a pattern,
`BinaryFormat.round` writes the pattern nearest to a given quotient, ties to the even pattern.
-/

namespace EffectGraph

/-- A binary interchange format: one sign bit, an exponent field and a fraction field. -/
structure BinaryFormat where
  fractionBits : Nat
  exponentBits : Nat
  deriving DecidableEq

def BinaryFormat.double : BinaryFormat := ⟨52, 11⟩

def BinaryFormat.single : BinaryFormat := ⟨23, 8⟩

/-- What a bit pattern stands for. -/
inductive BinaryReading where
  | nan
  /-- An infinity and its sign. -/
  | infinity (negative : Bool)
  /-- The number `± mantissa · 2 ^ exponent`; zero keeps its sign. -/
  | finite (negative : Bool) (mantissa : Nat) (exponent : Int)
  deriving DecidableEq

namespace BinaryFormat

variable (f : BinaryFormat)

/-- The exponent field that marks infinities and NaNs. -/
def specialField : Nat := Nat.pow 2 f.exponentBits - 1

/-- The exponent of one unit of a subnormal mantissa. -/
def leastExponent : Int := 2 - (Nat.pow 2 (f.exponentBits - 1) : Nat) - f.fractionBits

/-- The pattern of the sign bit alone. -/
def signBit : Nat := Nat.pow 2 (f.fractionBits + f.exponentBits)

/-- The pattern of positive infinity. -/
def infinityBits : Nat := f.specialField * Nat.pow 2 f.fractionBits

/-- The pattern of the standard NaN: the highest fraction bit alone is set. -/
def nanBits : Nat := f.infinityBits + Nat.pow 2 (f.fractionBits - 1)

/-- Puts a sign on the pattern of a magnitude. -/
def withSign (negative : Bool) (bits : Nat) : Nat :=
  if negative then f.signBit + bits else bits

/-- The number that a pattern stands for. -/
def decode (bits : Nat) : BinaryReading :=
  let negative := bits / f.signBit % 2 = 1
  let field := bits / Nat.pow 2 f.fractionBits % Nat.pow 2 f.exponentBits
  let fraction := bits % Nat.pow 2 f.fractionBits
  if field = f.specialField then
    if fraction = 0 then .infinity negative else .nan
  else if field = 0 then
    .finite negative fraction f.leastExponent
  else
    .finite negative (Nat.pow 2 f.fractionBits + fraction) (f.leastExponent + (field - 1 : Nat))

end BinaryFormat

/-- The natural number nearest to `num / den`; a half goes to the even neighbour. -/
def divNearestEven (num den : Nat) : Nat :=
  let q := num / den
  let r := num % den
  if 2 * r < den then q
  else if den < 2 * r then q + 1
  else q + q % 2

/-- The integer `e` with `2 ^ e ≤ num / den < 2 ^ (e + 1)`, for positive `num` and `den`. -/
def binaryExponent (num den : Nat) : Int :=
  let e : Int := (num.log2 : Int) - den.log2
  if den * Nat.pow 2 e.toNat ≤ num * Nat.pow 2 (-e).toNat then e else e - 1

namespace BinaryFormat

variable (f : BinaryFormat)

/-- The pattern nearest to `± num / den`, ties to even; beyond the largest finite number it is an
infinity. -/
def round (negative : Bool) (num den : Nat) : Nat :=
  if num = 0 then f.withSign negative 0
  else
    let unit := max (binaryExponent num den - f.fractionBits) f.leastExponent
    let mantissa := divNearestEven (num * Nat.pow 2 (-unit).toNat) (den * Nat.pow 2 unit.toNat)
    -- A mantissa that rounds up to the next power of two carries into the exponent field by itself.
    let bits := (unit - f.leastExponent).toNat * Nat.pow 2 f.fractionBits + mantissa
    f.withSign negative (min bits f.infinityBits)

/-- The pattern nearest to an integer. -/
def ofInt (n : Int) : Nat :=
  f.round (n < 0) n.natAbs 1

end BinaryFormat

/-! ## The two widths -/

/-- A 64-bit floating-point number, told apart by its bits. -/
structure Binary64 where
  bits : UInt64
  deriving DecidableEq

/-- A 32-bit floating-point number, told apart by its bits. -/
structure Binary32 where
  bits : UInt32
  deriving DecidableEq

/-- Equality of numbers rather than of patterns: NaN differs from itself and the zeros are equal. -/
def BinaryReading.same : BinaryReading → BinaryReading → Bool
  | .nan, _ => false
  | _, .nan => false
  | .infinity s, .infinity t => s == t
  | .finite s m e, .finite t n d => (m == 0 && n == 0) || (s == t && m == n && e == d)
  | _, _ => false

namespace Binary64

/-- The number that the pattern stands for. -/
def reading (x : Binary64) : BinaryReading :=
  BinaryFormat.double.decode x.bits.toNat

def zero : Binary64 := ⟨0⟩

/-- The number nearest to an integer. -/
def ofInt (n : Int) : Binary64 :=
  ⟨(BinaryFormat.double.ofInt n).toUInt64⟩

/-- Equality of numbers: NaN differs from itself and the zeros are equal. -/
def same (x y : Binary64) : Bool :=
  x.reading.same y.reading

def isFinite (x : Binary64) : Bool :=
  match x.reading with
  | .finite .. => true
  | _ => false

/-- Cuts a number toward zero and clamps it to the 64-bit integers; NaN becomes zero. -/
def toInt64 (x : Binary64) : Int64 :=
  match x.reading with
  | .nan => 0
  | .infinity negative => if negative then Int64.minValue else Int64.maxValue
  | .finite negative mantissa exponent =>
    -- The quotient cuts the fraction off whatever the sign.
    let magnitude := mantissa * Nat.pow 2 exponent.toNat / Nat.pow 2 (-exponent).toNat
    let value : Int := if negative then -magnitude else magnitude
    if value < Int64.minValue.toInt then Int64.minValue
    else if Int64.maxValue.toInt < value then Int64.maxValue
    else Int64.ofInt value

end Binary64

namespace Binary32

def reading (x : Binary32) : BinaryReading :=
  BinaryFormat.single.decode x.bits.toNat

def zero : Binary32 := ⟨0⟩

def ofInt (n : Int) : Binary32 :=
  ⟨(BinaryFormat.single.ofInt n).toUInt32⟩

def same (x y : Binary32) : Bool :=
  x.reading.same y.reading

def isFinite (x : Binary32) : Bool :=
  match x.reading with
  | .finite .. => true
  | _ => false

end Binary32

/-- The 32-bit number nearest to a 64-bit one; too large a magnitude becomes an infinity and NaN the
standard NaN of its sign. -/
def Binary64.toBinary32 (x : Binary64) : Binary32 :=
  let f := BinaryFormat.single
  let bits := match x.reading with
    | .nan => f.withSign (x.bits.toNat / BinaryFormat.double.signBit = 1) f.nanBits
    | .infinity negative => f.withSign negative f.infinityBits
    | .finite negative mantissa exponent =>
      f.round negative (mantissa * Nat.pow 2 exponent.toNat) (Nat.pow 2 (-exponent).toNat)
  ⟨bits.toUInt32⟩

end EffectGraph
