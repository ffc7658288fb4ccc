/-!
# Binary encodings

The binary form of numbers, strings and sequences. Unsigned integers have one byte below 251 and
otherwise a marker and two, four or eight bytes, lowest first; signed ones are folded to unsigned
ones first, so that small magnitudes stay short. Strings and sequences start with their length.

A writer makes a list of bytes. A reader takes the bytes that are left and answers with what it read
and the bytes after it. Bytes after a complete encoding do not matter.
-/

namespace EffectGraph

abbrev Bytes := List UInt8

abbrev ByteReader (α : Type) := Bytes → Option (α × Bytes)

namespace Bytes

/-! ## Writing -/

/-- The lowest bytes of a number, lowest first. -/
def ofNat : Nat → Nat → Bytes
  | 0, _ => []
  | width + 1, n => (n % 256).toUInt8 :: ofNat width (n / 256)

/-- An unsigned integer below `2 ^ 64`, as short as it can be. -/
def writeNat (n : Nat) : Bytes :=
  if n < 251 then [n.toUInt8]
  else if n < UInt16.size then 251 :: ofNat 2 n
  else if n < UInt32.size then 252 :: ofNat 4 n
  else 253 :: ofNat 8 n

/-- Folds an integer to a natural number: `0, -1, 1, -2, …` become `0, 1, 2, 3, …`. -/
def fold (n : Int) : Nat := if n < 0 then 2 * n.natAbs - 1 else 2 * n.natAbs

/-- Unfolds a natural number to the integer that folds to it. -/
def unfold (n : Nat) : Int := if n % 2 = 1 then -((n / 2 : Nat) : Int) - 1 else (n / 2 : Nat)

def writeInt (n : Int) : Bytes := writeNat (fold n)

def writeBool (b : Bool) : Bytes := [if b then 1 else 0]

/-- A string: its length in bytes and its bytes. -/
def writeString (s : String) : Bytes :=
  writeNat s.toByteArray.toList.length ++ s.toByteArray.toList

/-- A sequence: its length and its elements. -/
def writeList {α : Type} (write : α → Bytes) (xs : List α) : Bytes :=
  writeNat xs.length ++ xs.flatMap write

/-- What may be missing: a byte that tells, and the content. -/
def writeOption {α : Type} (write : α → Bytes) : Option α → Bytes
  | none => [0]
  | some a => 1 :: write a

end Bytes

namespace ByteReader

def take? : Nat → ByteReader Bytes
  | 0, bs => some ([], bs)
  | _ + 1, [] => none
  | n + 1, b :: bs => (take? n bs).map fun p => (b :: p.1, p.2)

/-- The number that bytes spell, lowest first. -/
def toNat : Bytes → Nat
  | [] => 0
  | b :: bs => b.toNat + 256 * toNat bs

def fixed (width : Nat) : ByteReader Nat := fun bs => (take? width bs).map fun p => (toNat p.1, p.2)

/-- Reads an unsigned integer of at most the given width in bytes. A marker for a larger width is
refused; a larger width than needed is not. -/
def nat (width : Nat) : ByteReader Nat
  | [] => none
  | b :: bs =>
    if b < 251 then some (b.toNat, bs)
    else if b = 251 ∧ 2 ≤ width then fixed 2 bs
    else if b = 252 ∧ 4 ≤ width then fixed 4 bs
    else if b = 253 ∧ 8 ≤ width then fixed 8 bs
    else none

def uint32 : ByteReader UInt32 := fun bs => (nat 4 bs).map fun p => (p.1.toUInt32, p.2)

def uint64 : ByteReader UInt64 := fun bs => (nat 8 bs).map fun p => (p.1.toUInt64, p.2)

def int64 : ByteReader Int64 := fun bs =>
  (nat 8 bs).map fun p => (Int64.ofInt (Bytes.unfold p.1), p.2)

def bool : ByteReader Bool
  | b :: bs => if b = 0 then some (false, bs) else if b = 1 then some (true, bs) else none
  | [] => none

/-- Reads a string, whose bytes have to be valid UTF-8. -/
def string : ByteReader String := fun bs => do
  let (length, bs) ← nat 8 bs
  let (content, bs) ← take? length bs
  let s ← String.fromUTF8? content.toByteArray
  some (s, bs)

def times {α : Type} (reader : ByteReader α) : Nat → ByteReader (List α)
  | 0, bs => some ([], bs)
  | n + 1, bs => do
    let (a, bs) ← reader bs
    let (as, bs) ← times reader n bs
    some (a :: as, bs)

def list {α : Type} (reader : ByteReader α) : ByteReader (List α) := fun bs => do
  let (length, bs) ← nat 8 bs
  times reader length bs

/-- Reads what may be missing. -/
def optional {α : Type} (reader : ByteReader α) : ByteReader (Option α)
  | b :: bs =>
    if b = 0 then some (none, bs)
    else if b = 1 then (reader bs).map fun p => (some p.1, p.2)
    else none
  | [] => none

end ByteReader

end EffectGraph
