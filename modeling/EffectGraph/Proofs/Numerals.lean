import EffectGraph.Proofs.Coercion
import EffectGraph.Proofs.Literals
import Mathlib.Data.List.TakeWhile

/-!
# Integers in texts

An integer is written in one form only (`isDecimalForm_iff`) and read in many: with either sign,
with zeros in front, and between blanks (`ShowsInt`). What is read is exactly what a text shows,
within 64 bits (`readInt64?_trimBlank_iff`). The written form shows the integer that it was written
for (`IsDecimalForm.showsInt`), so it is read back.

On the way between ports, a value may be wrapped in arrays of one element and taken out of them
again, which does not show in the end (`Value.convert_nested`). So an integer that goes through a
port of strings, or of arrays of them, is the same afterwards (`Value.integers_survive_strings`).
-/

namespace EffectGraph

/-! ## Texts that show integers -/

/-- The digits of a natural number; there may be zeros in front. -/
structure SpellsNat (cs : List Char) (n : Nat) : Prop where
  ne_nil : cs ≠ []
  digits : AllDigits cs
  value : Nat.ofDigitChars 10 cs 0 = n

/-- The digits of an integer behind an optional sign. -/
inductive SpellsInt : List Char → Int → Prop
  | unsigned {cs : List Char} {n : Nat} (h : SpellsNat cs n) : SpellsInt cs n
  | plus {cs : List Char} {n : Nat} (h : SpellsNat cs n) : SpellsInt ('+' :: cs) n
  | minus {cs : List Char} {n : Nat} (h : SpellsNat cs n) : SpellsInt ('-' :: cs) (-n)

/-- A text with the digits of an integer behind an optional sign, and nothing but blanks around
them. -/
def ShowsInt (s : String) (n : Int) : Prop :=
  ∃ before cs after, s.toList = before ++ (cs ++ after) ∧ SpellsInt cs n ∧
    (∀ c ∈ before, isBlank c = true) ∧ ∀ c ∈ after, isBlank c = true

/-- The decimal form of an integer: a minus sign if it is negative, and then its digits, which do
not start with zero unless they are a zero alone. -/
def IsDecimalForm (s : String) (n : Int) : Prop :=
  ∃ ds, IsWhole ds ∧ Nat.ofDigitChars 10 ds 0 = n.natAbs ∧
    s.toList = if n < 0 then '-' :: ds else ds

/-! ## Reading -/

theorem exists_digitChar {c : Char} (h : isDigit c = true) : ∃ d < 10, c = d.digitChar := by
  have hc : '0' ≤ c ∧ c ≤ '9' := by
    unfold isDigit digitValue? at h
    split at h
    next hc => exact hc
    next => simp at h
  have hlow : 48 ≤ c.toNat := hc.1
  have hhigh : c.toNat ≤ 57 := hc.2
  refine ⟨c.toNat - 48, by omega, Char.toNat_inj.1 ?_⟩
  rw [Nat.toNat_digitChar_of_lt_ten (by omega)]
  omega

theorem AllDigits.isDigit {cs : List Char} (h : AllDigits cs) : ∀ c ∈ cs, c.isDigit = true := by
  intro c hc
  obtain ⟨d, hd, rfl⟩ := exists_digitChar (h c hc)
  simpa [Nat.isDigit_digitChar] using hd

theorem allDigits_of_digitsValue? {cs : List Char} {acc n : Nat}
    (h : digitsValue? acc cs = some n) : AllDigits cs := by
  induction cs generalizing acc with
  | nil => exact fun c hc => absurd hc List.not_mem_nil
  | cons c cs ih =>
    obtain ⟨d, hd, hrest⟩ := Option.bind_eq_some_iff.1 h
    have hc : isDigit c = true := by rw [isDigit, hd, Option.isSome_some]
    exact List.forall_mem_cons.2 ⟨hc, ih hrest⟩

theorem natOfDigits?_iff {cs : List Char} {n : Nat} :
    natOfDigits? cs = some n ↔ SpellsNat cs n := by
  unfold natOfDigits?
  constructor
  · intro h
    split at h
    next => simp at h
    next hne =>
      have hdigits := allDigits_of_digitsValue? h
      rw [digitsValue?_of_isDigit hdigits.isDigit] at h
      exact ⟨by simpa using hne, hdigits, Option.some.inj h⟩
  · rintro ⟨hne, hdigits, hvalue⟩
    rw [if_neg (by simpa using hne), digitsValue?_of_isDigit hdigits.isDigit, hvalue]

/-- An integer is read as a natural number behind its sign. -/
theorem readInt?_eq (cs : List Char) : readInt? cs =
    (natOfDigits? (splitSign cs).2).map fun n : Nat =>
      if (splitSign cs).1 then -(n : Int) else n := by
  cases h : natOfDigits? (splitSign cs).2 <;> simp [readInt?, h]

theorem readInt?_iff {cs : List Char} {n : Int} : readInt? cs = some n ↔ SpellsInt cs n := by
  simp only [readInt?_eq, Option.map_eq_some_iff, natOfDigits?_iff]
  constructor
  · rintro ⟨m, hm, rfl⟩
    revert hm
    fun_cases splitSign cs with
    | case1 ds => exact .minus
    | case2 ds => exact .plus
    | case3 => exact .unsigned
  · intro h
    cases h with
    | unsigned h =>
      -- No digit is a sign, so nothing is split off.
      have hsplit : splitSign cs = (false, cs) := by
        unfold splitSign
        split
        next => exact absurd (h.digits '-' List.mem_cons_self) (by decide)
        next => exact absurd (h.digits '+' List.mem_cons_self) (by decide)
        next => rfl
      exact ⟨_, by rwa [hsplit], by simp [hsplit]⟩
    | plus h => exact ⟨_, h, rfl⟩
    | minus h => exact ⟨_, h, rfl⟩

theorem readInt64?_iff {cs : List Char} {i : Int64} :
    readInt64? cs = some i ↔ SpellsInt cs i.toInt := by
  rw [← readInt?_iff]
  constructor
  · intro h
    obtain ⟨n, hn, hrange⟩ := Option.bind_eq_some_iff.1 h
    split at hrange
    next hfits =>
      obtain rfl := Option.some.inj hrange
      have hlow : -9223372036854775808 ≤ n := hfits.1
      have hhigh : n ≤ 9223372036854775807 := hfits.2
      rw [hn, Int64.toInt_ofInt_of_le (by omega) (by omega)]
    next => simp at hrange
  · intro h
    have hfits := And.intro (Int64.minValue_le_toInt i) (Int64.toInt_le i)
    rw [readInt64?, h, Option.bind_some, if_pos hfits, Int64.ofInt_toInt]

/-! ## Blanks -/

theorem dropWhile_blanks_append {blanks cs rest : List Char}
    (hblanks : ∀ c ∈ blanks, isBlank c = true) (hne : cs ≠ [])
    (hcs : ∀ c ∈ cs, isBlank c = false) :
    (blanks ++ (cs ++ rest)).dropWhile isBlank = cs ++ rest := by
  rw [List.dropWhile_append_of_pos hblanks]
  cases cs with
  | nil => exact absurd rfl hne
  | cons c cs => simp [hcs c List.mem_cons_self]

theorem trimBlank_append {before cs after : List Char} (hbefore : ∀ c ∈ before, isBlank c = true)
    (hafter : ∀ c ∈ after, isBlank c = true) (hne : cs ≠ [])
    (hcs : ∀ c ∈ cs, isBlank c = false) : trimBlank (before ++ (cs ++ after)) = cs := by
  have hback : (after.reverse ++ (cs.reverse ++ [])).dropWhile isBlank = cs.reverse ++ [] :=
    dropWhile_blanks_append (by simpa using hafter) (by simpa using hne) (by simpa using hcs)
  rw [List.append_nil] at hback
  rw [trimBlank, dropWhile_blanks_append hbefore hne hcs, List.reverse_append, hback,
    List.reverse_reverse]

theorem exists_trimBlank (cs : List Char) : ∃ before after, cs = before ++ (trimBlank cs ++ after) ∧
    (∀ c ∈ before, isBlank c = true) ∧ ∀ c ∈ after, isBlank c = true := by
  refine ⟨cs.takeWhile isBlank, (((cs.dropWhile isBlank).reverse).takeWhile isBlank).reverse, ?_,
    fun c hc => List.mem_takeWhile_imp hc,
    fun c hc => List.mem_takeWhile_imp (List.mem_reverse.1 hc)⟩
  rw [trimBlank, ← List.reverse_append, List.takeWhile_append_dropWhile, List.reverse_reverse,
    List.takeWhile_append_dropWhile]

theorem isBlank_of_isDigit {c : Char} (h : isDigit c = true) : isBlank c = false := by
  have hall : ∀ d < 10, isBlank d.digitChar = false := by decide
  obtain ⟨d, hd, rfl⟩ := exists_digitChar h
  exact hall d hd

theorem SpellsInt.not_blank {cs : List Char} {n : Int} (h : SpellsInt cs n) :
    cs ≠ [] ∧ ∀ c ∈ cs, isBlank c = false := by
  cases h with
  | unsigned h => exact ⟨h.ne_nil, fun c hc => isBlank_of_isDigit (h.digits c hc)⟩
  | plus h | minus h =>
    exact ⟨List.cons_ne_nil _ _, List.forall_mem_cons.2
      ⟨by decide, fun c hc => isBlank_of_isDigit (h.digits c hc)⟩⟩

/-- An integer of 64 bits is read from exactly the texts that show it. -/
theorem readInt64?_trimBlank_iff {s : String} {i : Int64} :
    readInt64? (trimBlank s.toList) = some i ↔ ShowsInt s i.toInt := by
  rw [readInt64?_iff]
  constructor
  · intro h
    obtain ⟨before, after, hs, hbefore, hafter⟩ := exists_trimBlank s.toList
    exact ⟨before, _, after, hs, h, hbefore, hafter⟩
  · rintro ⟨before, cs, after, hs, hcs, hbefore, hafter⟩
    obtain ⟨hne, hblank⟩ := hcs.not_blank
    rwa [hs, trimBlank_append hbefore hafter hne hblank]

/-! ## Decimal forms -/

/-- Digits behind those of a positive number are the digits of the number that they continue to. -/
theorem toDigits_append {cs : List Char} (hcs : AllDigits cs) {n : Nat} (hn : 0 < n) :
    Nat.toDigits 10 n ++ cs = Nat.toDigits 10 (Nat.ofDigitChars 10 cs n) := by
  induction cs generalizing n with
  | nil => simp
  | cons c cs ih =>
    obtain ⟨hc, hrest⟩ := List.forall_mem_cons.1 hcs
    obtain ⟨d, hd, rfl⟩ := exists_digitChar hc
    calc Nat.toDigits 10 n ++ d.digitChar :: cs
        = Nat.toDigits 10 n ++ Nat.toDigits 10 d ++ cs := by
          rw [Nat.toDigits_of_lt_base hd, List.append_assoc, List.singleton_append]
      _ = Nat.toDigits 10 (10 * n + d) ++ cs := by
          rw [Nat.toDigits_append_toDigits (by decide) hn hd]
      _ = Nat.toDigits 10 (Nat.ofDigitChars 10 (d.digitChar :: cs) n) := by
          rw [ih hrest (by omega), Nat.ofDigitChars_cons_digitChar_of_lt_ten hd]

/-- Digits that do not start with zero are those that the number is written with. -/
theorem toDigits_ofDigitChars {ds : List Char} (h : IsWhole ds) :
    Nat.toDigits 10 (Nat.ofDigitChars 10 ds 0) = ds := by
  rcases h with rfl | ⟨c, cs, rfl, hc, hdigits⟩
  · decide
  · obtain ⟨hfirst, hrest⟩ := List.forall_mem_cons.1 hdigits
    obtain ⟨d, hd, rfl⟩ := exists_digitChar hfirst
    have hpos : 0 < d := Nat.pos_of_ne_zero fun hzero => hc (Nat.digitChar_eq_zero.2 hzero)
    rw [Nat.ofDigitChars_cons_digitChar_of_lt_ten hd, Nat.mul_zero, Nat.zero_add,
      ← toDigits_append hrest hpos, Nat.toDigits_of_lt_base hd, List.singleton_append]

theorem isDecimalForm_iff {s : String} {n : Int} : IsDecimalForm s n ↔ s = intText n := by
  have htext : (intText n).toList =
      if n < 0 then '-' :: Nat.toDigits 10 n.natAbs else Nat.toDigits 10 n.natAbs := by
    unfold intText
    split <;> simp [natText]
  rw [← String.toList_inj, htext]
  constructor
  · rintro ⟨ds, hds, hvalue, hs⟩
    rw [hs, ← hvalue, toDigits_ofDigitChars hds]
  · intro hs
    exact ⟨_, isWhole_toDigits _, Nat.ofDigitChars_ten_toDigits, hs⟩

theorem IsWhole.spellsNat {ds : List Char} (h : IsWhole ds) :
    SpellsNat ds (Nat.ofDigitChars 10 ds 0) := by
  rcases h with rfl | ⟨c, cs, rfl, -, hdigits⟩
  · exact ⟨List.cons_ne_nil _ _, allDigits_replicate 1, rfl⟩
  · exact ⟨List.cons_ne_nil c cs, hdigits, rfl⟩

theorem IsDecimalForm.showsInt {s : String} {n : Int} (h : IsDecimalForm s n) : ShowsInt s n := by
  obtain ⟨ds, hds, hvalue, hs⟩ := h
  have hspells := hds.spellsNat
  rw [hvalue] at hspells
  refine ⟨[], s.toList, [], by simp, ?_, by simp, by simp⟩
  rw [hs]
  split
  next hneg =>
    have hn : -(n.natAbs : Int) = n := by omega
    exact hn ▸ .minus hspells
  next hpos =>
    have hn : (n.natAbs : Int) = n := by omega
    exact hn ▸ .unsigned hspells

/-! ## Arrays on the way -/

/-- The type of arrays of arrays, so many levels deep, of a type. -/
def ValueType.nested (t : ValueType) : Nat → ValueType
  | 0 => t
  | depth + 1 => .array (t.nested depth)

/-- The value wrapped so many times in arrays of one element. -/
def Value.nested (v : Value) : Nat → Value
  | 0 => v
  | depth + 1 => .array [v.nested depth]

namespace Value

/-- A value that is no array and not `null` is converted under all levels of arrays around it, which
are put on or taken off where the target has more or fewer of them. -/
theorem convert_nested {hook : ConversionHook} (h : hook.Elementary) {t : ValueType} {v : Value}
    (ht : t.isArray = false) (hany : t ≠ .any) (hnull : v ≠ null) (hv : v.asArray? = none)
    (depth depth' : Nat) :
    (v.nested depth).convert hook (t.nested depth') = (v.convert hook t).nested depth' := by
  induction depth' generalizing depth with
  | zero =>
    induction depth with
    | zero => rfl
    | succ depth ih =>
      have hfirst := convert_first h [v.nested depth] ht hany
      exact hfirst.trans ih
  | succ depth' ih =>
    cases depth with
    | zero =>
      have hwrapped := convert_wrapped h hnull hv (t.nested depth')
      exact hwrapped.trans (congrArg (fun w => array [w]) (ih 0))
    | succ depth =>
      have hitems := convert_items h [v.nested depth] (t.nested depth')
      exact hitems.trans (congrArg (fun w => array [w]) (ih depth))

theorem convert_int_string (i : Int64) :
    (int i).convert .standard .string = string (intText i.toInt) := rfl

theorem convert_string_int {s : String} {i : Int64} (h : ShowsInt s i.toInt) :
    (string s).convert .standard .int = int i := by
  have hread : (string s).convertDirectly? .standard .int = some (int i) := by
    show (readInt64? (trimBlank s.toList)).map int = some (int i)
    rw [readInt64?_trimBlank_iff.2 h, Option.map_some]
  rw [convert_eq_scalar rfl]
  simp [convertScalar, hread]

/-- An integer that is written for a port of strings, in arrays of whatever depth, is written in its
decimal form, and it is read back from there, in arrays of whatever depth. An integer that is read
from a text that shows it is the same after it was written and read once more. -/
theorem integers_survive_strings :
    (∀ (i : Int64) (depth depth' : Nat),
      (int i).convert .standard (ValueType.string.nested depth) =
        (string (intText i.toInt)).nested depth ∧
      IsDecimalForm (intText i.toInt) i.toInt ∧
      ((int i).convert .standard (ValueType.string.nested depth)).convert .standard
        (ValueType.int.nested depth') = (int i).nested depth') ∧
    ∀ (s : String) (i : Int64), ShowsInt s i.toInt →
      (string s).convert .standard .int = int i ∧
      (((string s).convert .standard .int).convert .standard .string).convert .standard .int =
        int i := by
  have hback (i : Int64) : (string (intText i.toInt)).convert .standard .int = int i :=
    convert_string_int (isDecimalForm_iff.2 rfl).showsInt
  refine ⟨fun i depth depth' => ?_, fun s i hs => ?_⟩
  · have hthere : (int i).convert .standard (ValueType.string.nested depth) =
        (string (intText i.toInt)).nested depth :=
      convert_nested ConversionHook.elementary_standard rfl (by decide) (by simp) rfl 0 depth
    refine ⟨hthere, isDecimalForm_iff.2 rfl, ?_⟩
    rw [hthere, convert_nested ConversionHook.elementary_standard rfl (by decide) (by simp) rfl,
      hback]
  · rw [convert_string_int hs, convert_int_string, hback]
    exact ⟨rfl, rfl⟩

/-- The least integer, whose magnitude is no integer of 64 bits, through arrays of arrays, and from
a text with zeros in front and blanks of several kinds around it. -/
theorem integers_survive_strings_least :
    (int Int64.minValue).convert .standard (.array (.array .string)) =
      array [array [string "-9223372036854775808"]] ∧
    (array [array [string "-9223372036854775808"]]).convert .standard (.array .int) =
      array [int Int64.minValue] ∧
    ShowsInt "\u3000 -009223372036854775808\n" Int64.minValue.toInt ∧
    (string "\u3000 -009223372036854775808\n").convert .standard .int = int Int64.minValue ∧
    (((string "\u3000 -009223372036854775808\n").convert .standard .int).convert .standard
      .string).convert .standard .int = int Int64.minValue := by
  have htext : intText Int64.minValue.toInt = "-9223372036854775808" := by decide +kernel
  have hspells : SpellsNat (List.replicate 2 '0' ++ Nat.toDigits 10 9223372036854775808)
      9223372036854775808 :=
    ⟨by simp, (allDigits_replicate 2).append (allDigits_toDigits _), by
      rw [Nat.ofDigitChars_append, Nat.ofDigitChars_replicate_zero, Nat.mul_zero,
        Nat.ofDigitChars_ten_toDigits]⟩
  have hshows : ShowsInt "\u3000 -009223372036854775808\n" Int64.minValue.toInt :=
    ⟨['\u3000', ' '], _, ['\n'], by decide +kernel, .minus hspells, List.all_eq_true.1 rfl,
      List.all_eq_true.1 rfl⟩
  obtain ⟨hthrough, hread⟩ := integers_survive_strings
  obtain ⟨hthere, -, hback⟩ := hthrough Int64.minValue 2 1
  rw [hthere, htext] at hback
  rw [htext] at hthere
  exact ⟨hthere, hback, hshows, hread _ _ hshows⟩

end Value

end EffectGraph
