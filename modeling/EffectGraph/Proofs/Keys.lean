import EffectGraph.Proofs.Tables
import EffectGraph.Port
import Mathlib.Data.List.Basic

/-!
# Slot keys and their texts

A slot key in the range of stored indices can be read back from its text exactly if the brackets of
its name cannot be taken for those of an index (`SlotKey.ofText?_text_iff`). Every slot key that is
read from a text is of this kind (`SlotKey.legible_of_ofText?`).
-/

namespace EffectGraph

/-! ## Decimal texts -/

theorem digitValue?_of_isDigit {c : Char} (h : c.isDigit = true) :
    digitValue? c = some (c.toNat - '0'.toNat) := by
  have hc : '0' ≤ c ∧ c ≤ '9' := by
    simp only [Char.isDigit, Bool.and_eq_true, decide_eq_true_eq] at h
    exact h
  simp [digitValue?, hc]

theorem digitsValue?_of_isDigit {cs : List Char} (h : ∀ c ∈ cs, c.isDigit = true) (acc : Nat) :
    digitsValue? acc cs = some (Nat.ofDigitChars 10 cs acc) := by
  induction cs generalizing acc with
  | nil => rfl
  | cons c cs ih =>
    have hc := digitValue?_of_isDigit (h c List.mem_cons_self)
    rw [digitsValue?, hc, Option.bind_some, ih fun c hc => h c (List.mem_cons_of_mem _ hc),
      Nat.ofDigitChars_cons, Nat.mul_comm]

theorem isDigit_of_mem_digits {n : Nat} {c : Char} (h : c ∈ Nat.toDigits 10 n) :
    c.isDigit = true := Nat.isDigit_of_mem_toDigits (by decide) (by decide) h

theorem natOfDigits?_toDigits (n : Nat) : natOfDigits? (Nat.toDigits 10 n) = some n := by
  have hne : (Nat.toDigits 10 n).isEmpty = false := by
    simp
  rw [natOfDigits?, hne, if_neg Bool.false_ne_true,
    digitsValue?_of_isDigit fun _ hc => isDigit_of_mem_digits hc, Nat.ofDigitChars_ten_toDigits]

theorem readNatBelow?_toDigits {bound n : Nat} (h : n < bound) :
    readNatBelow? bound (Nat.toDigits 10 n) = some n := by
  -- No digit is a sign, so the text is read as digits alone.
  have hplus : ∀ ds, Nat.toDigits 10 n ≠ '+' :: ds := by
    intro ds he
    have := isDigit_of_mem_digits (n := n) (c := '+') (he ▸ List.mem_cons_self)
    exact absurd this (by decide)
  simp only [readNatBelow?, natOfDigits?_toDigits, Option.bind_some, if_pos h]

theorem readNatBelow?_lt {bound i : Nat} {cs : List Char} (h : readNatBelow? bound cs = some i) :
    i < bound := by
  obtain ⟨n, -, hn⟩ := Option.bind_eq_some_iff.1 h
  split at hn
  next hlt => exact Option.some.inj hn ▸ hlt
  next => simp at hn

/-! ## Slot keys -/

namespace SlotKey

theorem splitBracket?_eq_none {cs : List Char} (h : '[' ∉ cs) : splitBracket? cs = none := by
  induction cs with
  | nil => rfl
  | cons c cs ih =>
    simp only [List.mem_cons, not_or] at h
    rw [splitBracket?, if_neg (Ne.symm h.1), ih h.2, Option.map_none]

theorem splitBracket?_append {cs : List Char} (h : '[' ∉ cs) (ds : List Char) :
    splitBracket? (cs ++ '[' :: ds) = some (cs, ds) := by
  induction cs with
  | nil => simp [splitBracket?]
  | cons c cs ih =>
    simp only [List.mem_cons, not_or] at h
    rw [List.cons_append, splitBracket?, if_neg (Ne.symm h.1), ih h.2, Option.map_some]

theorem beforeClosing?_append (cs : List Char) : beforeClosing? (cs ++ [']']) = some cs := by
  simp [beforeClosing?]

/-- A slot key whose text stands for no other one: an opening bracket in its name must not be taken
for that of an index, so the name is that of a single input and does not end in a closing bracket.
-/
def Legible (k : SlotKey) : Prop :=
  '[' ∈ k.name.toList → k.index = none ∧ k.name.toList.getLast? ≠ some ']'

instance (k : SlotKey) : Decidable k.Legible := inferInstanceAs (Decidable (_ → _))

theorem Legible.of_not_mem {k : SlotKey} (h : '[' ∉ k.name.toList) : k.Legible :=
  fun hmem => absurd hmem h

/-- A slot key is read back from its text. -/
theorem Legible.ofText?_text {k : SlotKey} (h : k.Legible)
    (hindex : ∀ i, k.index = some i → i < indexBound) : ofText? k.text = some k := by
  obtain ⟨name, index⟩ := k
  cases index with
  | none =>
    -- A name may end in a closing bracket, but without an opening one it is no slot.
    have hsplit : (beforeClosing? name.toList).bind splitBracket? = none := by
      cases hb : beforeClosing? name.toList with
      | none => rfl
      | some cs =>
        unfold beforeClosing? at hb
        split at hb
        next hlast =>
          obtain rfl := Option.some.inj hb
          exact splitBracket?_eq_none fun hmem =>
            (h ((List.dropLast_sublist _).subset hmem)).2 hlast
        next => simp at hb
    simp only [text, ofText?, hsplit]
  | some i =>
    have hname : '[' ∉ name.toList := fun hmem => nomatch (h hmem).1
    have hlist : (text ⟨name, some i⟩).toList =
        (name.toList ++ '[' :: Nat.toDigits 10 i) ++ [']'] := by
      simp [text, natText, String.toList_append]
    have hread := readNatBelow?_toDigits (hindex i rfl)
    simp only [ofText?, hlist, beforeClosing?_append, Option.bind_some, splitBracket?_append hname,
      hread, Option.map_some, String.ofList_toList]

theorem splitBracket?_eq_some {cs name index : List Char}
    (h : splitBracket? cs = some (name, index)) : '[' ∉ name := by
  induction cs generalizing name with
  | nil => simp [splitBracket?] at h
  | cons c cs ih =>
    rw [splitBracket?] at h
    split at h
    next =>
      obtain ⟨rfl, -⟩ : [] = name ∧ _ := by simpa using h
      exact List.not_mem_nil
    next hc =>
      obtain ⟨⟨name', index'⟩, hsplit, he⟩ := Option.map_eq_some_iff.1 h
      obtain ⟨rfl, rfl⟩ := Prod.mk.inj he
      exact fun hmem => (List.mem_cons.1 hmem).elim (fun he => hc he.symm) (ih hsplit)

/-- A slot key that is read from a text is legible, and its index is in range. -/
theorem legible_of_ofText? {t : String} {k : SlotKey} (h : ofText? t = some k) :
    k.Legible ∧ ∀ i, k.index = some i → i < indexBound := by
  unfold ofText? at h
  split at h
  next name index hsplit =>
    obtain ⟨i, hi, rfl⟩ := Option.map_eq_some_iff.1 h
    obtain ⟨cs, -, hcs⟩ := Option.bind_eq_some_iff.1 hsplit
    refine ⟨.of_not_mem (by simpa using splitBracket?_eq_some hcs), fun j hj => ?_⟩
    obtain rfl := Option.some.inj hj
    exact readNatBelow?_lt hi
  next hsplit =>
    obtain rfl := Option.some.inj h
    refine ⟨fun hmem => ⟨rfl, fun hlast => ?_⟩, nofun⟩
    -- The text would be cut at its first opening bracket.
    have hclosed : beforeClosing? t.toList = some t.toList.dropLast := if_pos hlast
    rw [← List.dropLast_append_getLast? _ hlast, List.mem_append] at hmem
    obtain ⟨cs, ds, hcut, hcs⟩ := List.eq_append_cons_of_mem (hmem.resolve_right (by decide))
    rw [hclosed, Option.bind_some, hcut, splitBracket?_append hcs] at hsplit
    exact nomatch hsplit

/-- Exactly the legible slot keys are read back from their texts. -/
theorem ofText?_text_iff {k : SlotKey} (hindex : ∀ i, k.index = some i → i < indexBound) :
    ofText? k.text = some k ↔ k.Legible :=
  ⟨fun h => (legible_of_ofText? h).1, fun h => h.ofText?_text hindex⟩

/-- The text of a slot key that was read from a text is read as the same key. -/
theorem ofText?_text_of_ofText? {t : String} {k : SlotKey} (h : ofText? t = some k) :
    ofText? k.text = some k :=
  let ⟨hlegible, hindex⟩ := legible_of_ofText? h
  hlegible.ofText?_text hindex

end SlotKey

end EffectGraph
