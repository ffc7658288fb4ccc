import EffectGraph.Json.Parser
import EffectGraph.Json.Values
import EffectGraph.Proofs.Keys

/-!
# The literals of numbers

The printers write every number as a literal of the grammar of documents (`IsLiteral`): whole
numbers, and floating-point numbers in any of their layouts. A reader takes such a literal whole and
leaves whatever follows it, unless that could be more of the number (`takeNumber?_append`).
-/

namespace EffectGraph

open Json

/-! ## The grammar -/

/-- A text of decimal digits. -/
def AllDigits (cs : List Char) : Prop := ∀ c ∈ cs, isDigit c = true

/-- The whole part of a literal: a zero alone, or digits that do not start with zero. -/
def IsWhole (cs : List Char) : Prop :=
  cs = ['0'] ∨ ∃ c ds, cs = c :: ds ∧ c ≠ '0' ∧ AllDigits cs

/-- The fraction of a literal: nothing, or a point and digits. -/
def IsFraction (cs : List Char) : Prop := cs = [] ∨ ∃ ds, cs = '.' :: ds ∧ ds ≠ [] ∧ AllDigits ds

/-- The exponent of a literal: nothing, or its mark, a sign and digits. -/
def IsExponent (cs : List Char) : Prop :=
  cs = [] ∨ ∃ s ds, cs = 'e' :: s :: ds ∧ (s = '+' ∨ s = '-') ∧ ds ≠ [] ∧ AllDigits ds

/-- A literal without sign. -/
def IsMagnitude (cs : List Char) : Prop :=
  ∃ whole fraction exponent, IsWhole whole ∧ IsFraction fraction ∧ IsExponent exponent ∧
    cs = whole ++ (fraction ++ exponent)

/-- The literals that the printers write. -/
def IsLiteral (cs : List Char) : Prop := IsMagnitude cs ∨ ∃ ds, cs = '-' :: ds ∧ IsMagnitude ds

/-- What may follow a number: nothing that could be more of it. -/
def EndsNumber (rest : List Char) : Prop :=
  ∀ c ∈ rest.head?, isDigit c = false ∧ c ≠ '.' ∧ c ≠ 'e' ∧ c ≠ 'E'

theorem AllDigits.append {cs ds : List Char} (hcs : AllDigits cs) (hds : AllDigits ds) :
    AllDigits (cs ++ ds) := by
  intro c hc
  exact (List.mem_append.1 hc).elim (hcs c) (hds c)

theorem allDigits_replicate (n : Nat) : AllDigits (List.replicate n '0') := by
  intro c hc
  rw [List.eq_of_mem_replicate hc]
  decide

theorem isDigit_of_isDigit {c : Char} (h : c.isDigit = true) : isDigit c = true := by
  rw [isDigit, digitValue?_of_isDigit h, Option.isSome_some]

/-! ## Taking a literal -/

theorem takeWhile_digits_append {ds rest : List Char} (hds : AllDigits ds)
    (hrest : ∀ c ∈ rest.head?, isDigit c = false) : (ds ++ rest).takeWhile isDigit = ds := by
  rw [List.takeWhile_append_of_pos hds]
  cases rest with
  | nil => simp
  | cons c rest => simp [hrest c rfl]

theorem dropWhile_digits_append {ds rest : List Char} (hds : AllDigits ds)
    (hrest : ∀ c ∈ rest.head?, isDigit c = false) : (ds ++ rest).dropWhile isDigit = rest := by
  rw [List.dropWhile_append_of_pos hds]
  cases rest with
  | nil => rfl
  | cons c rest => simp [hrest c rfl]

theorem takeDigits?_append {ds rest : List Char} (hne : ds ≠ []) (hds : AllDigits ds)
    (hrest : ∀ c ∈ rest.head?, isDigit c = false) : takeDigits? (ds ++ rest) = some (ds, rest) := by
  rw [takeDigits?, takeWhile_digits_append hds hrest, dropWhile_digits_append hds hrest]
  simp [hne]

theorem takeWhole?_append {whole rest : List Char} (hwhole : IsWhole whole)
    (hrest : ∀ c ∈ rest.head?, isDigit c = false) :
    takeWhole? (whole ++ rest) = some (whole, rest) := by
  rcases hwhole with rfl | ⟨c, ds, rfl, hc, hds⟩
  · cases rest with
    | nil => rfl
    | cons c rest => simp [takeWhole?, hrest c rfl]
  · have hdigits := takeDigits?_append (List.cons_ne_nil c ds) hds hrest
    rw [List.cons_append] at hdigits ⊢
    unfold takeWhole?
    split
    next heq => exact absurd (List.cons.inj heq).1 hc
    next => exact hdigits

theorem takeFraction?_append {fraction rest : List Char} (hfraction : IsFraction fraction)
    (hrest : ∀ c ∈ rest.head?, isDigit c = false ∧ c ≠ '.') :
    takeFraction? (fraction ++ rest) = some (fraction, rest) := by
  rcases hfraction with rfl | ⟨ds, rfl, hne, hds⟩
  · unfold takeFraction?
    split
    next rest' heq =>
      rw [List.nil_append] at heq
      exact absurd rfl (hrest '.' (by rw [heq]; rfl)).2
    next => rfl
  · simp [takeFraction?, takeDigits?_append hne hds fun c hc => (hrest c hc).1]

theorem takeExponent?_append {exponent rest : List Char} (hexponent : IsExponent exponent)
    (hrest : EndsNumber rest) : takeExponent? (exponent ++ rest) = some (exponent, rest) := by
  rcases hexponent with rfl | ⟨s, ds, rfl, hs, hne, hds⟩
  · cases rest with
    | nil => rfl
    | cons c rest =>
      obtain ⟨-, -, he, hE⟩ := hrest c rfl
      simp [takeExponent?, he, hE]
  · simp [takeExponent?, hs, takeDigits?_append hne hds fun c hc => (hrest c hc).1]

/-- The first character of a part of a literal with a given rest is no digit if the part is there
only with a mark of its own in front. -/
theorem head?_append_of_marked {part rest : List Char} {P : Char → Prop}
    (hpart : ∀ c ∈ part.head?, P c) (hrest : part = [] → ∀ c ∈ rest.head?, P c) :
    ∀ c ∈ (part ++ rest).head?, P c := by
  cases part with
  | nil => exact hrest rfl
  | cons d part => exact hpart

/-- The first character of a magnitude is a digit. -/
theorem IsMagnitude.head {cs : List Char} (hcs : IsMagnitude cs) :
    ∃ c ds, cs = c :: ds ∧ isDigit c = true := by
  obtain ⟨whole, fraction, exponent, hwhole, -, -, rfl⟩ := hcs
  rcases hwhole with rfl | ⟨c, ds, rfl, -, hds⟩
  · exact ⟨'0', _, rfl, by decide⟩
  · exact ⟨c, _, rfl, hds c List.mem_cons_self⟩

/-- The parts of a magnitude are taken one after another. -/
theorem IsMagnitude.takes {cs rest : List Char} (hcs : IsMagnitude cs) (hrest : EndsNumber rest) :
    ∃ whole fraction exponent, cs = whole ++ (fraction ++ exponent) ∧
      takeWhole? (whole ++ (fraction ++ (exponent ++ rest))) =
        some (whole, fraction ++ (exponent ++ rest)) ∧
      takeFraction? (fraction ++ (exponent ++ rest)) = some (fraction, exponent ++ rest) ∧
      takeExponent? (exponent ++ rest) = some (exponent, rest) := by
  obtain ⟨whole, fraction, exponent, hwhole, hfraction, hexponent, rfl⟩ := hcs
  -- What follows each part starts with the mark of a later part or with the end of the number.
  have hafterFraction : ∀ c ∈ (exponent ++ rest).head?, isDigit c = false ∧ c ≠ '.' := by
    refine head?_append_of_marked (P := fun c => isDigit c = false ∧ c ≠ '.') ?_
      fun _ c hc => ⟨(hrest c hc).1, (hrest c hc).2.1⟩
    rcases hexponent with rfl | ⟨s, ds, rfl, -⟩ <;> simp
    decide
  have hafterWhole : ∀ c ∈ (fraction ++ (exponent ++ rest)).head?, isDigit c = false := by
    refine head?_append_of_marked (P := fun c => isDigit c = false) ?_
      fun _ c hc => (hafterFraction c hc).1
    rcases hfraction with rfl | ⟨ds, rfl, -⟩ <;> simp
    decide
  exact ⟨whole, fraction, exponent, rfl, takeWhole?_append hwhole hafterWhole,
    takeFraction?_append hfraction hafterFraction, takeExponent?_append hexponent hrest⟩

theorem takeNumber?_append {cs rest : List Char} (hcs : IsLiteral cs) (hrest : EndsNumber rest) :
    takeNumber? (cs ++ rest) = some (cs, rest) := by
  rcases hcs with hcs | ⟨ds, rfl, hds⟩
  · obtain ⟨c, ds, hhead, hdigit⟩ := hcs.head
    -- The first character is a digit, so no sign is taken.
    have hminus : ∀ ds, cs ++ rest ≠ '-' :: ds := by
      rintro ds heq
      rw [hhead, List.cons_append] at heq
      obtain rfl : c = '-' := (List.cons.inj heq).1
      exact absurd hdigit (by decide)
    obtain ⟨whole, fraction, exponent, rfl, hw, hf, he⟩ := hcs.takes hrest
    simp only [List.append_assoc] at hminus ⊢
    simp [takeNumber?, hw, hf, he]
  · obtain ⟨whole, fraction, exponent, rfl, hw, hf, he⟩ := hds.takes hrest
    simp [takeNumber?, hw, hf, he]

/-! ## Whole numbers -/

theorem allDigits_toDigits (n : Nat) : AllDigits (Nat.toDigits 10 n) :=
  fun _ hc => isDigit_of_isDigit (isDigit_of_mem_digits hc)

/-- The digits of a positive number do not start with zero. -/
theorem toDigits_head {n : Nat} (hn : n ≠ 0) :
    ∃ c ds, Nat.toDigits 10 n = c :: ds ∧ c ≠ '0' := by
  induction n using Nat.strongRecOn with
  | ind n ih =>
    by_cases hlt : n < 10
    · have hdigit : ∀ d < 10, d ≠ 0 → d.digitChar ≠ '0' := by decide
      exact ⟨n.digitChar, [], Nat.toDigits_of_lt_base hlt, hdigit n hlt hn⟩
    · obtain ⟨c, ds, hcs, hc⟩ := ih (n / 10) (by omega) (by omega)
      rw [Nat.toDigits_of_base_le (by decide) (by omega), hcs]
      exact ⟨c, ds ++ [(n % 10).digitChar], rfl, hc⟩

theorem isWhole_toDigits (n : Nat) : IsWhole (Nat.toDigits 10 n) := by
  by_cases hn : n = 0
  · exact .inl (hn ▸ Nat.toDigits_zero 10)
  · obtain ⟨c, ds, hcs, hc⟩ := toDigits_head hn
    exact .inr ⟨c, ds, hcs, hc, allDigits_toDigits n⟩

theorem isMagnitude_toDigits (n : Nat) : IsMagnitude (Nat.toDigits 10 n) :=
  ⟨_, [], [], isWhole_toDigits n, .inl rfl, .inl rfl, by simp⟩

theorem isLiteral_natText (n : Nat) : IsLiteral (natText n).toList := by
  rw [natText, String.toList_ofList]
  exact .inl (isMagnitude_toDigits n)

theorem isLiteral_intText (n : Int) : IsLiteral (intText n).toList := by
  unfold intText
  split
  · exact .inr ⟨Nat.toDigits 10 n.natAbs, by simp [natText], isMagnitude_toDigits _⟩
  · exact isLiteral_natText _

/-! ## Floating-point numbers -/

namespace RoundingInterval

variable {i : RoundingInterval} {tie : Tie}

/-- Zero is no candidate if it lies below the interval. -/
theorem onGrid_ne_zero (hbelow : i.below < 4 * i.count) {drop k : Nat}
    (h : i.onGrid tie drop = some k) : k ≠ 0 := by
  rintro rfl
  simp only [onGrid] at h
  split at h
  next hfits =>
    rw [Option.some.inj h] at hfits
    have hreach := hfits.1
    simp only [within, Nat.zero_mul, Nat.sub_zero] at hreach
    split at hreach <;> simp at hreach <;> omega
  next =>
    split at h <;> simp at h

theorem search_ne_zero (hbelow : i.below < 4 * i.count) (drop : Nat) :
    (i.search tie drop).digits ≠ 0 := by
  induction drop with
  | zero =>
    simp only [search]
    omega
  | succ drop ih =>
    simp only [search]
    split
    next k hk => exact onGrid_ne_zero hbelow hk
    next => exact ih

end RoundingInterval

theorem Decimal.stripZeros_ne_zero {fuel : Nat} {d : Decimal} (hd : d.digits ≠ 0) :
    (stripZeros fuel d).digits ≠ 0 := by
  induction fuel generalizing d with
  | zero => exact hd
  | succ fuel ih =>
    rw [stripZeros]
    split
    next hzero => exact ih (by simp only; omega)
    next => exact hd

/-- The shortest decimal of a positive number is positive, and that of zero has no exponent. -/
theorem exponent_shortestDecimal (f : BinaryFormat) (tie : Tie) (mantissa : Nat) (exponent : Int)
    (h : (shortestDecimal f tie mantissa exponent).digits = 0) :
    (shortestDecimal f tie mantissa exponent).exponent = 0 := by
  unfold shortestDecimal at h ⊢
  split at h
  next hzero => rw [if_pos hzero]
  next hpos =>
    refine absurd h (Decimal.stripZeros_ne_zero (RoundingInterval.search_ne_zero ?_ _))
    -- The interval reaches down by half a unit at most, and the number is a unit at least.
    have hulp : 0 < Nat.pow 2 exponent.toNat * Nat.pow 5 (-exponent).toNat :=
      Nat.mul_pos (Nat.pow_pos (by decide)) (Nat.pow_pos (by decide))
    have hcount := Nat.le_mul_of_pos_left
      (Nat.pow 2 exponent.toNat * Nat.pow 5 (-exponent).toNat) (Nat.pos_of_ne_zero hpos)
    simp only [RoundingInterval.ofBinary]
    split <;> omega

namespace NumberStyle

variable {style : NumberStyle}

theorem isFraction_point {ds : List Char} (hne : ds ≠ []) (hds : AllDigits ds) :
    IsFraction ('.' :: ds) := .inr ⟨ds, rfl, hne, hds⟩

theorem isMagnitude_scientific (n : Nat) (exponent : Int) :
    IsMagnitude (scientific (Nat.toDigits 10 n) exponent).toList := by
  have hexponent : IsExponent
      ('e' :: (if exponent < 0 then '-' else '+') :: Nat.toDigits 10 exponent.natAbs) := by
    refine .inr ⟨_, _, rfl, ?_, Nat.toDigits_ne_nil, allDigits_toDigits _⟩
    split <;> simp
  have hfirst : ∀ c ds, Nat.toDigits 10 n = c :: ds → IsWhole [c] := by
    intro c ds hcs
    by_cases hn : n = 0
    · rw [hn, Nat.toDigits_zero] at hcs
      exact .inl (by rw [(List.cons.inj hcs).1])
    · obtain ⟨c', ds', hcs', hc⟩ := toDigits_head hn
      obtain ⟨rfl, -⟩ := List.cons.inj (hcs.symm.trans hcs')
      refine .inr ⟨c, [], rfl, hc, fun d hd => ?_⟩
      exact allDigits_toDigits n d (hcs ▸ List.mem_singleton.1 hd ▸ List.mem_cons_self)
  cases hcs : Nat.toDigits 10 n with
  | nil => exact absurd hcs Nat.toDigits_ne_nil
  | cons c ds =>
    cases ds with
    | nil =>
      refine ⟨[c], [], _, hfirst c [] hcs, .inl rfl, hexponent, ?_⟩
      by_cases hneg : exponent < 0 <;> simp [scientific, natText, hneg]
    | cons d ds =>
      have hdigits : AllDigits (d :: ds) := fun e he =>
        allDigits_toDigits n e (hcs ▸ List.mem_cons_of_mem c he)
      refine ⟨[c], '.' :: d :: ds, _, hfirst c _ hcs,
        isFraction_point (List.cons_ne_nil d ds) hdigits, hexponent, ?_⟩
      by_cases hneg : exponent < 0 <;> simp [scientific, natText, hneg]

/-- Every layout of a decimal is a literal without sign, if what ends a whole number is a fraction.
-/
theorem isMagnitude_decimalText (hend : IsFraction style.wholeEnd.toList) {d : Decimal}
    (hd : d.digits = 0 → d.exponent = 0) : IsMagnitude (style.decimalText d).toList := by
  have hdigits := allDigits_toDigits d.digits
  unfold decimalText
  extract_lets digits point fits
  -- Whether there is an exponent does not matter, so the test for it is left as it is.
  clear_value fits
  cases fits
  · exact isMagnitude_scientific d.digits (point - 1)
  rw [if_neg (by decide)]
  split
  · -- A whole number: its digits and zeros.
    rename_i hexponent
    refine ⟨Nat.toDigits 10 d.digits ++ List.replicate d.exponent.toNat '0', _, [], ?_, hend,
      .inl rfl, by simp [digits]⟩
    by_cases hzero : d.digits = 0
    · exact .inl (by simp [hzero, hd hzero])
    · obtain ⟨c, ds, hcs, hc⟩ := toDigits_head hzero
      exact .inr ⟨c, ds ++ List.replicate d.exponent.toNat '0', by rw [hcs, List.cons_append], hc,
        hdigits.append (allDigits_replicate _)⟩
  have hzero : d.digits ≠ 0 := fun hzero => by
    have := hd hzero
    omega
  obtain ⟨c, ds, hcs, hc⟩ := toDigits_head hzero
  split
  · -- The point stands among the digits.
    rename_i hpoint
    obtain ⟨k, hk⟩ : ∃ k, point.toNat = k + 1 := ⟨point.toNat - 1, by omega⟩
    have hlt : k + 1 < digits.length := by
      simp only [point] at hk
      omega
    refine ⟨digits.take (k + 1), '.' :: digits.drop (k + 1), [], .inr ⟨c, ds.take k, ?_, hc, ?_⟩,
      isFraction_point ?_ ?_, .inl rfl, by simp [hk]⟩
    · simp only [digits]
      rw [hcs, List.take_succ_cons]
    · exact fun e he => hdigits e (List.mem_of_mem_take he)
    · rw [Ne, List.drop_eq_nil_iff]
      omega
    · exact fun e he => hdigits e (List.mem_of_mem_drop he)
  · refine ⟨['0'], _, [], .inl rfl,
      isFraction_point ?_ ((allDigits_replicate (-point).toNat).append hdigits),
      .inl rfl, ?_⟩
    · simp
    · simp [digits]

theorem isLiteral_text (hend : IsFraction style.wholeEnd.toList) (f : BinaryFormat)
    (negative : Bool) (mantissa : Nat) (exponent : Int) :
    IsLiteral (style.text f (.finite negative mantissa exponent)).toList := by
  have hmagnitude := isMagnitude_decimalText hend
    (exponent_shortestDecimal f style.tie mantissa exponent)
  cases negative with
  | true => exact .inr ⟨_, by simp [text], hmagnitude⟩
  | false => exact .inl hmagnitude

end NumberStyle

end EffectGraph
