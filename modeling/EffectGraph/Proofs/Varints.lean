import EffectGraph.Bytes.Basic
import Mathlib.Tactic.IntervalCases
import Mathlib.Tactic.Ring

/-!
# Reading back numbers, strings and sequences

A reader undoes a writer if it takes exactly the written bytes, whatever bytes come after them. That
is shown for numbers at each of their widths, for strings, sequences and what may be missing, so
that a record is read back field by field.

`Varint` says which bytes stand for a natural number without mention of the writer: one byte, or a
marker and the fewest of two, four or eight bytes that hold the number, lowest first.
-/

namespace EffectGraph

open ByteReader

/-! ## Bytes of fixed number -/

namespace Bytes

theorem toNat_toUInt8 {n : Nat} (h : n < 256) : n.toUInt8.toNat = n := by
  rw [UInt8.toNat_ofNat', Nat.mod_eq_of_lt h]

@[simp] theorem length_ofNat (width n : Nat) : (ofNat width n).length = width := by
  induction width generalizing n with
  | zero => rfl
  | succ width ih => simp [ofNat, ih]

theorem toNat_ofNat (width n : Nat) : toNat (ofNat width n) = n % 256 ^ width := by
  induction width generalizing n with
  | zero => simp [ofNat, ByteReader.toNat, Nat.mod_one]
  | succ width ih =>
    have hbyte : (n % 256).toUInt8.toNat = n % 256 := toNat_toUInt8 (Nat.mod_lt _ (by decide))
    rw [ofNat, ByteReader.toNat, ih, hbyte, pow_succ, mul_comm (256 ^ width), Nat.mod_mul]

theorem toNat_ofNat_of_lt {width n : Nat} (h : n < 256 ^ width) : toNat (ofNat width n) = n := by
  rw [toNat_ofNat, Nat.mod_eq_of_lt h]

end Bytes

namespace ByteReader

open Bytes

theorem take?_append (bs rest : Bytes) : take? bs.length (bs ++ rest) = some (bs, rest) := by
  induction bs with
  | nil => cases rest <;> rfl
  | cons b bs ih => simp [take?, ih]

theorem fixed_ofNat {width n : Nat} (h : n < 256 ^ width) (rest : Bytes) :
    fixed width (ofNat width n ++ rest) = some (n, rest) := by
  have htake := take?_append (ofNat width n) rest
  rw [length_ofNat] at htake
  rw [fixed, htake, Option.map_some, toNat_ofNat_of_lt h]

/-! ## Unsigned integers -/

/-- Each form of a number is read by the reader of every width that admits its marker. -/
theorem nat_writeNat {width n : Nat} (hwidth : width = 4 ∨ width = 8) (h : n < 256 ^ width)
    (rest : Bytes) : nat width (writeNat n ++ rest) = some (n, rest) := by
  rw [writeNat]
  split
  next hshort =>
    have hbyte : n.toUInt8.toNat = n := toNat_toUInt8 (by omega)
    have hlt : n.toUInt8 < 251 := by
      rw [UInt8.lt_iff_toNat_lt, hbyte]
      exact hshort
    rw [List.singleton_append, nat, if_pos hlt, hbyte]
  next =>
  split
  next htwo =>
    have hadmits : 2 ≤ width := by omega
    simp [nat, hadmits, fixed_ofNat (show n < 256 ^ 2 from htwo)]
  next =>
  split
  next hfour =>
    have hadmits : 4 ≤ width := by omega
    simp [nat, hadmits, fixed_ofNat (show n < 256 ^ 4 from hfour)]
  next height =>
    obtain rfl : width = 8 := by
      rcases hwidth with rfl | rfl
      · exact absurd h height
      · rfl
    simp [nat, fixed_ofNat h]

theorem nat4_writeNat {n : Nat} (h : n < UInt32.size) (rest : Bytes) :
    nat 4 (writeNat n ++ rest) = some (n, rest) :=
  nat_writeNat (.inl rfl) h rest

theorem nat8_writeNat {n : Nat} (h : n < UInt64.size) (rest : Bytes) :
    nat 8 (writeNat n ++ rest) = some (n, rest) :=
  nat_writeNat (.inr rfl) h rest

theorem uint32_writeNat (n : UInt32) (rest : Bytes) :
    uint32 (writeNat n.toNat ++ rest) = some (n, rest) := by
  simp [uint32, nat4_writeNat n.toNat_lt_size]

theorem uint64_writeNat (n : UInt64) (rest : Bytes) :
    uint64 (writeNat n.toNat ++ rest) = some (n, rest) := by
  simp [uint64, nat8_writeNat n.toNat_lt_size]

/-! ## Signed integers -/

theorem unfold_fold (n : Int) : Bytes.unfold (Bytes.fold n) = n := by
  grind [Bytes.unfold, Bytes.fold]

theorem fold_lt_size (i : Int64) : fold i.toInt < UInt64.size := by
  have hlower : -(2 : Int) ^ 63 ≤ i.toInt := i.le_toInt
  have hupper : i.toInt < (2 : Int) ^ 63 := i.toInt_lt
  simp only [fold, UInt64.size]
  split <;> omega

theorem int64_writeInt (i : Int64) (rest : Bytes) :
    int64 (writeInt i.toInt ++ rest) = some (i, rest) := by
  simp [int64, writeInt, nat8_writeNat (fold_lt_size i), unfold_fold]

/-! ## Flags, strings and sequences -/

theorem bool_writeBool (b : Bool) (rest : Bytes) :
    bool (writeBool b ++ rest) = some (b, rest) := by
  cases b <;> rfl

theorem toList_loop (content : ByteArray) (i : Nat) (read : Bytes) :
    ByteArray.toList.loop content i read = read.reverse ++ content.data.toList.drop i := by
  fun_induction ByteArray.toList.loop content i read with
  | case1 i read h ih =>
    have hsize : i < content.data.toList.length := h
    rw [ih, List.reverse_cons, List.append_assoc, List.drop_eq_getElem_cons hsize,
      List.singleton_append]
    simp [ByteArray.get!, getElem!_pos content.data i h]
  | case2 i read h =>
    have hsize : content.data.toList.length ≤ i := Nat.le_of_not_lt h
    rw [List.drop_eq_nil_of_le hsize, List.append_nil]

theorem toByteArray_toList (content : ByteArray) : content.toList.toByteArray = content := by
  apply ByteArray.ext
  rw [List.data_toByteArray, ByteArray.toList, toList_loop]
  simp

theorem string_writeString {s : String} (h : (writeString s).length < UInt64.size)
    (rest : Bytes) : string (writeString s ++ rest) = some (s, rest) := by
  have hlength : s.toByteArray.toList.length < UInt64.size := by
    rw [writeString, List.length_append] at h
    omega
  have hutf8 : String.fromUTF8? s.toByteArray = some s := by
    simp [String.fromUTF8?, s.isValidUTF8, String.fromUTF8]
  simp [string, writeString, nat8_writeNat hlength, take?_append, toByteArray_toList, hutf8]

theorem times_flatMap {α : Type} {write : α → Bytes} {read : ByteReader α} {xs : List α}
    (h : ∀ x ∈ xs, ∀ rest, read (write x ++ rest) = some (x, rest)) (rest : Bytes) :
    times read xs.length (xs.flatMap write ++ rest) = some (xs, rest) := by
  induction xs with
  | nil => rfl
  | cons x xs ih =>
    have hhead := h x List.mem_cons_self
    have htail := ih fun y hy => h y (List.mem_cons_of_mem _ hy)
    simp [times, hhead, htail]

/-- A sequence is read back once its elements are, one after another. -/
theorem list_of_times {α : Type} {read : ByteReader α} {xs : List α} {content : Bytes}
    (hlength : xs.length < UInt64.size)
    (h : ∀ rest, times read xs.length (content ++ rest) = some (xs, rest)) (rest : Bytes) :
    list read (writeNat xs.length ++ (content ++ rest)) = some (xs, rest) := by
  simp [list, nat8_writeNat hlength, h]

theorem optional_writeOption {α : Type} {write : α → Bytes} {read : ByteReader α} {o : Option α}
    (h : ∀ x ∈ o, ∀ rest, read (write x ++ rest) = some (x, rest)) (rest : Bytes) :
    optional read (writeOption write o ++ rest) = some (o, rest) := by
  cases o with
  | none => rfl
  | some x => simp [optional, writeOption, h x rfl]

end ByteReader

/-! ## The form of a number -/

/-- The bytes that stand for a natural number. -/
inductive Varint : Bytes → Nat → Prop where
  /-- A small number is its own byte. -/
  | short {b : UInt8} (small : b < 251) : Varint [b] b.toNat
  | two {bs : Bytes} (length : bs.length = 2) (large : 251 ≤ toNat bs) :
      Varint (251 :: bs) (toNat bs)
  | four {bs : Bytes} (length : bs.length = 4) (large : UInt16.size ≤ toNat bs) :
      Varint (252 :: bs) (toNat bs)
  | eight {bs : Bytes} (length : bs.length = 8) (large : UInt32.size ≤ toNat bs) :
      Varint (253 :: bs) (toNat bs)

namespace Bytes

theorem toNat_lt (bs : Bytes) : toNat bs < 256 ^ bs.length := by
  induction bs with
  | nil => exact Nat.one_pos
  | cons b bs ih =>
    have hbyte : b.toNat < 256 := b.toNat_lt
    rw [ByteReader.toNat, List.length_cons, pow_succ]
    omega

theorem ofNat_toNat (bs : Bytes) : ofNat bs.length (toNat bs) = bs := by
  induction bs with
  | nil => rfl
  | cons b bs ih =>
    have hbyte : b.toNat < 256 := b.toNat_lt
    have hlow : (b.toNat + 256 * toNat bs) % 256 = b.toNat := by omega
    have hhigh : (b.toNat + 256 * toNat bs) / 256 = toNat bs := by omega
    rw [ByteReader.toNat, List.length_cons, ofNat, hlow, hhigh, ih]
    simp

/-- A number below `2 ^ 64` has one form, the one that is written. -/
theorem varint_iff {bs : Bytes} {n : Nat} : Varint bs n ↔ n < UInt64.size ∧ bs = writeNat n := by
  constructor
  · rintro (@⟨b, hsmall⟩ | @⟨bs, hlength, hlarge⟩ | @⟨bs, hlength, hlarge⟩ | @⟨bs, hlength, hlarge⟩)
    · have hlt : b.toNat < 251 := UInt8.lt_iff_toNat_lt.1 hsmall
      exact ⟨Nat.lt_trans hlt (by decide), by simp [writeNat, hlt]⟩
    all_goals
      have hbound := hlength ▸ toNat_lt bs
      have hbytes := hlength ▸ ofNat_toNat bs
      simp only [writeNat, UInt16.size, UInt32.size, UInt64.size] at hlarge ⊢
      refine ⟨by omega, ?_⟩
    · rw [if_neg (by omega), if_pos (by omega), hbytes]
    · rw [if_neg (by omega), if_neg (by omega), if_pos (by omega), hbytes]
    · rw [if_neg (by omega), if_neg (by omega), if_neg (by omega), hbytes]
  · rintro ⟨h, rfl⟩
    rw [writeNat]
    split_ifs with hshort htwo hfour
    · have hbyte : n.toUInt8.toNat = n := toNat_toUInt8 (by omega)
      have := Varint.short (UInt8.lt_iff_toNat_lt.2 (hbyte.symm ▸ hshort))
      rwa [hbyte] at this
    · have := Varint.two (length_ofNat 2 n)
      rw [toNat_ofNat_of_lt htwo] at this
      exact this (by omega)
    · have := Varint.four (length_ofNat 4 n)
      rw [toNat_ofNat_of_lt hfour] at this
      exact this (by omega)
    · have := Varint.eight (length_ofNat 8 n)
      rw [toNat_ofNat_of_lt h] at this
      exact this (by omega)

/-- Signed numbers are folded by turns: `0, -1, 1, -2, …`. -/
theorem fold_eq (n : Int) : (fold n : Int) = if n < 0 then -2 * n - 1 else 2 * n := by
  grind [fold]

end Bytes

/-! ## Lengths -/

namespace Bytes

theorem length_writeNat_pos (n : Nat) : 0 < (writeNat n).length := by
  rw [writeNat]
  split_ifs <;> simp

theorem length_writeString_pos (s : String) : 0 < (writeString s).length := by
  rw [writeString, List.length_append]
  exact Nat.add_pos_left (length_writeNat_pos _) _

/-- Where every element takes a byte, a sequence has no more elements than bytes. -/
theorem length_le_length_flatMap {α : Type} {write : α → Bytes} (hpos : ∀ x, 0 < (write x).length)
    (xs : List α) : xs.length ≤ (xs.flatMap write).length := by
  induction xs with
  | nil => exact Nat.le_refl _
  | cons x xs ih =>
    have := hpos x
    rw [List.flatMap_cons, List.length_append, List.length_cons]
    omega

theorem length_le_of_mem_flatMap {α : Type} {f : α → Bytes} {x : α} {xs : List α}
    (hx : x ∈ xs) : (f x).length ≤ (xs.flatMap f).length := by
  obtain ⟨before, after, rfl⟩ := List.append_of_mem hx
  simp only [List.flatMap_append, List.flatMap_cons, List.length_append]
  omega

/-- A sequence that is written within `2 ^ 64` bytes is read back, if its elements are. -/
theorem list_writeList {α : Type} {write : α → Bytes} {read : ByteReader α} {xs : List α}
    (hpos : ∀ x, 0 < (write x).length) (hsize : (writeList write xs).length < UInt64.size)
    (h : ∀ x, (write x).length < UInt64.size → ∀ rest, read (write x ++ rest) = some (x, rest))
    (rest : Bytes) : list read (writeList write xs ++ rest) = some (xs, rest) := by
  rw [writeList, List.length_append] at hsize
  have hcount := length_le_length_flatMap hpos xs
  have hread : ∀ x ∈ xs, ∀ rest, read (write x ++ rest) = some (x, rest) := fun x hx => by
    have := length_le_of_mem_flatMap (f := write) hx
    exact h x (by omega)
  rw [writeList, List.append_assoc]
  exact list_of_times (by omega) (times_flatMap hread) rest

end Bytes

end EffectGraph
