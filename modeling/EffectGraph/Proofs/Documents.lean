import EffectGraph.Proofs.Literals
import Mathlib.Data.List.DropRight

/-!
# Documents are read back from their texts

A document is printable (`Json.Printable`) if its strings and keys are there and its numbers are
literals. The indented text of a printable document is read as that document (`parse?_pretty`).

The reading of a value is stated at any bound that is no less than the length of its text: every
element and every member takes a character of its own, as does every pair of brackets. What follows
the value may be anything that is no more of a number.
-/

namespace EffectGraph

namespace Json

/-- The documents that the printers write and the reader takes back. -/
inductive Printable : Json → Prop
  | null : Printable null
  | bool (b : Bool) : Printable (bool b)
  | number {literal : String} (h : IsLiteral literal.toList) : Printable (number literal)
  | text (s : String) : Printable (text s)
  | array {items : List Json} (h : ∀ v ∈ items, Printable v) : Printable (array items)
  | object {members : List (Option String × Json)} (hkeys : ∀ m ∈ members, m.1.isSome = true)
    (h : ∀ m ∈ members, Printable m.2) : Printable (object members)

/-! ## Strings -/

theorem hexValue?_hexDigit {n : Nat} (h : n < 16) : hexValue? (hexDigit n) = some n := by
  have hall : ∀ n < 16, hexValue? (hexDigit n) = some n := by decide
  exact hall n h

/-- The characters that stand for a character in a string are read as its code point. -/
theorem readUnits?_escape (c : Char) (cs : List Char) :
    readUnits? (escape c ++ cs) = (readUnits? cs).map fun p => (c.toNat :: p.1, p.2) := by
  have hbind : ∀ (x : Option (List Nat × List Char)) (n : Nat),
      (x.bind fun p => some (n :: p.1, p.2)) = x.map fun p => (n :: p.1, p.2) := by
    rintro (_ | p) n <;> rfl
  unfold escape
  by_cases hshort : c = '"' ∨ c = '\\' ∨ c = '\x08' ∨ c = '\t' ∨ c = '\n' ∨ c = '\x0c' ∨ c = '\r'
  · rcases hshort with rfl | rfl | rfl | rfl | rfl | rfl | rfl <;>
      simp [readUnits?, shortEscape?, ← hbind]
  · simp only [not_or] at hshort
    obtain ⟨h₁, h₂, h₃, h₄, h₅, h₆, h₇⟩ := hshort
    simp only [h₁, h₂, h₃, h₄, h₅, h₆, h₇, if_false]
    split
    next hcontrol =>
      have hunit : hexUnit? '0' '0' (hexDigit (c.toNat / 16)) (hexDigit (c.toNat % 16)) =
          some c.toNat := by
        have hzero : hexValue? '0' = some 0 := by decide
        simp only [hexUnit?, hzero, hexValue?_hexDigit (show c.toNat / 16 < 16 by omega),
          hexValue?_hexDigit (show c.toNat % 16 < 16 by omega), Option.bind_eq_bind,
          Option.bind_some, Option.some.injEq]
        omega
      simp [readUnits?, hunit, ← hbind]
    next hcontrol =>
      rw [List.singleton_append, readUnits?.eq_def]
      split <;> simp_all [Nat.not_lt.2]

theorem readUnits?_flatMap_escape (cs rest : List Char) :
    readUnits? (cs.flatMap escape ++ '"' :: rest) = some (cs.map Char.toNat, rest) := by
  induction cs with
  | nil => rfl
  | cons c cs ih =>
    rw [List.flatMap_cons, List.append_assoc, readUnits?_escape, ih]
    rfl

/-- The code points of characters hold no surrogates, so each stands for itself. -/
theorem joinSurrogates?_map_toNat (cs : List Char) :
    joinSurrogates? (cs.map Char.toNat) = some cs := by
  have hscalar : ∀ c : Char, ¬(0xd800 ≤ c.toNat ∧ c.toNat ≤ 0xdfff) := by
    intro c h
    rcases c.valid with hv | ⟨hv, -⟩
    · have : c.toNat < 0xd800 := hv
      omega
    · have : 0xdfff < c.toNat := hv
      omega
  induction cs with
  | nil => rfl
  | cons c cs ih =>
    cases cs with
    | nil => simp [joinSurrogates?, hscalar c]
    | cons d cs =>
      simp only [List.map_cons] at ih ⊢
      rw [joinSurrogates?, if_neg fun h => hscalar c ⟨h.1, by omega⟩, if_neg (hscalar c), ih,
        Option.map_some, Char.ofNat_toNat]

theorem toList_quoted (s : String) :
    (quoted s).toList = '"' :: (s.toList.flatMap escape ++ ['"']) := by
  simp [quoted]

theorem readString?_quoted (s : String) (rest : List Char) :
    readString? (s.toList.flatMap escape ++ '"' :: rest) = some (some s, rest) := by
  rw [readString?, readUnits?_flatMap_escape, Option.map_some, joinSurrogates?_map_toNat,
    Option.map_some, String.ofList_toList]

/-! ## Blanks -/

theorem skipSpace_of_head {c : Char} (cs : List Char) (hc : isSpace c = false) :
    skipSpace (c :: cs) = c :: cs := by
  simp [skipSpace, hc]

theorem skipSpace_newLine (level : Nat) (cs : List Char) :
    skipSpace ((newLine level).toList ++ cs) = skipSpace cs := by
  have hblank : ∀ c ∈ (newLine level).toList, isSpace c = true := by
    intro c hc
    simp only [newLine, String.toList_append, String.toList_ofList, List.mem_append] at hc
    rcases hc with hc | hc
    · obtain rfl : c = '\n' := by simpa using hc
      decide
    · obtain rfl := List.eq_of_mem_replicate hc
      decide
  exact List.dropWhile_append_of_pos hblank

theorem skipSpace_skipSpace (cs : List Char) : skipSpace (skipSpace cs) = skipSpace cs :=
  List.dropWhile_idempotent isSpace cs

theorem length_newLine_pos (level : Nat) : 0 < (newLine level).toList.length := by
  simp [newLine]

/-! ## Beginnings of texts -/

/-- The first character of a text is no blank and no closing bracket. -/
def Opens (cs : List Char) : Prop :=
  ∃ c ds, cs = c :: ds ∧ isSpace c = false ∧ c ≠ ']' ∧ c ≠ '\x7d'

theorem Opens.skipSpace_append {cs : List Char} (h : Opens cs) (rest : List Char) :
    skipSpace (cs ++ rest) = cs ++ rest := by
  obtain ⟨c, ds, rfl, hc, -⟩ := h
  exact skipSpace_of_head _ hc

theorem Opens.length_pos {cs : List Char} (h : Opens cs) : 0 < cs.length := by
  obtain ⟨c, ds, rfl, -⟩ := h
  exact Nat.succ_pos _

theorem opens_of_head {c : Char} {ds : List Char} (hc : isSpace c = false ∧ c ≠ ']' ∧ c ≠ '\x7d') :
    Opens (c :: ds) := ⟨c, ds, rfl, hc⟩

theorem IsLiteral.head {cs : List Char} (h : IsLiteral cs) :
    ∃ c ds, cs = c :: ds ∧ (c = '-' ∨ isDigit c = true) := by
  rcases h with h | ⟨ds, rfl, -⟩
  · obtain ⟨c, ds, rfl, hc⟩ := h.head
    exact ⟨c, ds, rfl, .inr hc⟩
  · exact ⟨'-', ds, rfl, .inl rfl⟩

theorem opens_literal {cs : List Char} (h : IsLiteral cs) : Opens cs := by
  obtain ⟨c, ds, rfl, hc⟩ := IsLiteral.head h
  refine opens_of_head ?_
  rcases hc with rfl | hc
  · decide
  · refine ⟨?_, ?_, ?_⟩
    · cases hs : isSpace c with
      | false => rfl
      | true =>
        simp only [isSpace, Bool.or_eq_true, decide_eq_true_eq] at hs
        rcases hs with ((rfl | rfl) | rfl) | rfl <;> exact absurd hc (by decide)
    · rintro rfl
      exact absurd hc (by decide)
    · rintro rfl
      exact absurd hc (by decide)

theorem opens_block (level : Nat) {opening closing : String} {lines : List String}
    (h : ∃ c, opening.toList = [c] ∧ isSpace c = false ∧ c ≠ ']' ∧ c ≠ '\x7d') :
    Opens (block level opening lines closing).toList := by
  obtain ⟨c, hopening, hc⟩ := h
  unfold block
  split <;> exact ⟨c, _, by simp [hopening]; rfl, hc⟩

theorem Printable.opens {v : Json} (h : v.Printable) (level : Nat) :
    Opens (v.prettyAt level).toList := by
  cases h with
  | null => exact ⟨'n', "ull".toList, by simp [prettyAt], by decide⟩
  | bool b =>
    cases b with
    | false => exact ⟨'f', "alse".toList, by simp [prettyAt], by decide⟩
    | true => exact ⟨'t', "rue".toList, by simp [prettyAt], by decide⟩
  | number h => exact opens_literal h
  | text s =>
    simp only [prettyAt, quotedKey, Option.getD_some, toList_quoted]
    exact ⟨'"', _, rfl, by decide⟩
  | array h => exact opens_block level ⟨'[', by decide⟩
  | object hkeys h => exact opens_block level ⟨'\x7b', by decide⟩

/-! ## Documents -/

theorem readValue?_of_skipSpace {cs ds : List Char} (h : skipSpace cs = skipSpace ds)
    (bound : Nat) : readValue? bound cs = readValue? bound ds := by
  cases bound with
  | zero => simp only [readValue?]
  | succ bound => simp only [readValue?, h]

theorem readItems?_of_skipSpace {cs ds : List Char} (h : skipSpace cs = skipSpace ds)
    (bound : Nat) : readItems? bound cs = readItems? bound ds := by
  cases bound with
  | zero => simp only [readItems?]
  | succ bound => simp only [readItems?, readValue?_of_skipSpace h]

theorem readMembers?_of_skipSpace {cs ds : List Char} (h : skipSpace cs = skipSpace ds)
    (bound : Nat) : readMembers? bound cs = readMembers? bound ds := by
  cases bound with
  | zero => simp only [readMembers?]
  | succ bound => simp only [readMembers?, h]

theorem readValue?_literal {cs rest : List Char} (hcs : IsLiteral cs) (hrest : EndsNumber rest)
    (bound : Nat) :
    readValue? (bound + 1) (cs ++ rest) = some (number (String.ofList cs), rest) := by
  have htake := takeNumber?_append hcs hrest
  obtain ⟨c, ds, rfl, hc⟩ := IsLiteral.head hcs
  have hskip := (opens_literal hcs).skipSpace_append rest
  rw [List.cons_append] at hskip htake ⊢
  have hother : c ≠ '"' ∧ c ≠ '[' ∧ c ≠ '\x7b' ∧ c ≠ 'n' ∧ c ≠ 't' ∧ c ≠ 'f' := by
    rcases hc with rfl | hc
    · decide
    · refine ⟨?_, ?_, ?_, ?_, ?_, ?_⟩ <;> rintro rfl <;> exact absurd hc (by decide)
  rw [readValue?.eq_def]
  simp only [hskip]
  split <;> simp_all

/-- What is known of the parts of a document when it is read: each of them is read from its text,
at any bound that is no less than the length of the text. -/
def Recovered (v : Json) : Prop :=
  ∀ level bound rest, (v.prettyAt level).toList.length ≤ bound → EndsNumber rest →
    readValue? bound ((v.prettyAt level).toList ++ rest) = some (v, rest)

theorem endsNumber_newLine (level : Nat) (rest : List Char) :
    EndsNumber ((newLine level).toList ++ rest) := by
  intro c hc
  obtain rfl : '\n' = c := by simpa [newLine] using hc
  decide

theorem endsNumber_comma (rest : List Char) : EndsNumber (',' :: rest) := by
  intro c hc
  obtain rfl : ',' = c := by simpa using hc
  decide

/-- The text of lines that follow one another, separated by commas. -/
theorem toList_intercalate_cons (line : String) {lines : List String} (hne : lines ≠ []) :
    (",".intercalate (line :: lines)).toList =
      line.toList ++ ',' :: (",".intercalate lines).toList := by
  rw [String.intercalate_cons_of_ne_nil hne]
  simp

theorem readItems?_prettyItems {items : List Json} (hne : items ≠ [])
    (hread : ∀ v ∈ items, Recovered v) (level outer bound : Nat) (rest : List Char)
    (hbound : (",".intercalate (prettyItems level items)).toList.length ≤ bound) :
    readItems? bound ((",".intercalate (prettyItems level items)).toList ++
      ((newLine outer).toList ++ ']' :: rest)) = some (items, rest) := by
  induction items generalizing bound with
  | nil => exact absurd rfl hne
  | cons v vs ih =>
    have hline := length_newLine_pos level
    have hv := hread v List.mem_cons_self level
    by_cases hvs : vs = []
    · subst hvs
      simp only [prettyItems, String.intercalate_singleton, String.toList_append,
        List.length_append] at hbound ⊢
      obtain ⟨bound, rfl⟩ := Nat.exists_eq_add_one_of_ne_zero (show bound ≠ 0 by omega)
      rw [List.append_assoc, readItems?, readValue?_of_skipSpace (skipSpace_newLine level _),
        hv bound _ (by omega) (endsNumber_newLine outer _)]
      simp [skipSpace_newLine, skipSpace_of_head _ (show isSpace ']' = false by decide)]
    · have hlines : prettyItems level vs ≠ [] := by
        cases vs with
        | nil => exact absurd rfl hvs
        | cons w ws => simp [prettyItems]
      simp only [prettyItems, toList_intercalate_cons _ hlines, String.toList_append,
        List.length_append, List.length_cons] at hbound ⊢
      obtain ⟨bound, rfl⟩ := Nat.exists_eq_add_one_of_ne_zero (show bound ≠ 0 by omega)
      have hcomma := fun cs => skipSpace_of_head cs (c := ',') (by decide)
      have hrest := ih hvs (fun w hw => hread w (List.mem_cons_of_mem v hw)) bound (by omega)
      rw [List.append_assoc, List.append_assoc, List.cons_append, readItems?,
        readValue?_of_skipSpace (skipSpace_newLine level _),
        hv bound _ (by omega) (endsNumber_comma _)]
      simp only [Option.bind_eq_bind, Option.bind_some, hcomma]
      rw [hrest]
      rfl

theorem readMembers?_prettyMembers {members : List (Option String × Json)} (hne : members ≠ [])
    (hkeys : ∀ m ∈ members, m.1.isSome = true) (hread : ∀ m ∈ members, Recovered m.2)
    (level outer bound : Nat) (rest : List Char)
    (hbound : (",".intercalate (prettyMembers level members)).toList.length ≤ bound) :
    readMembers? bound ((",".intercalate (prettyMembers level members)).toList ++
      ((newLine outer).toList ++ '\x7d' :: rest)) = some (members, rest) := by
  induction members generalizing bound with
  | nil => exact absurd rfl hne
  | cons m ms ih =>
    obtain ⟨key, v⟩ := m
    obtain ⟨k, rfl⟩ := Option.isSome_iff_exists.1 (hkeys _ List.mem_cons_self)
    have hquote := fun cs => skipSpace_of_head cs (c := '"') (by decide)
    have hcolon := fun cs => skipSpace_of_head cs (c := ':') (by decide)
    have hblank : ∀ cs, skipSpace (' ' :: cs) = skipSpace cs := fun cs => by
      simp [skipSpace, isSpace]
    have hline := length_newLine_pos level
    have hv : Recovered v := hread _ List.mem_cons_self
    by_cases hms : ms = []
    · subst hms
      simp only [prettyMembers, String.intercalate_singleton, String.toList_append,
        List.length_append] at hbound ⊢
      obtain ⟨bound, rfl⟩ := Nat.exists_eq_add_one_of_ne_zero (show bound ≠ 0 by omega)
      have hvalue := hv level bound _ (by omega) (endsNumber_newLine outer ('\x7d' :: rest))
      have hclose := fun cs => skipSpace_of_head cs (c := '\x7d') (by decide)
      simp [readMembers?, skipSpace_newLine, quotedKey, toList_quoted, hquote, hcolon,
        readString?_quoted, readValue?_of_skipSpace (hblank _), hvalue, hclose]
    · have hlines : prettyMembers level ms ≠ [] := by
        cases ms with
        | nil => exact absurd rfl hms
        | cons w ws => simp [prettyMembers]
      simp only [prettyMembers, toList_intercalate_cons _ hlines, String.toList_append,
        List.length_append, List.length_cons] at hbound ⊢
      obtain ⟨bound, rfl⟩ := Nat.exists_eq_add_one_of_ne_zero (show bound ≠ 0 by omega)
      have hcomma := fun cs => skipSpace_of_head cs (c := ',') (by decide)
      have hvalue := fun cs => hv level bound _ (by omega) (endsNumber_comma cs)
      have hrest := ih hms (fun w hw => hkeys w (List.mem_cons_of_mem _ hw))
        (fun w hw => hread w (List.mem_cons_of_mem _ hw)) bound (by omega)
      generalize (",".intercalate (prettyMembers level ms)).toList = lines at hrest ⊢
      simp [readMembers?, skipSpace_newLine, quotedKey, toList_quoted, hquote, hcolon,
        readString?_quoted, readValue?_of_skipSpace (hblank _), hvalue, hcomma, hrest]

/-- Lines in brackets as a text: the opening bracket, the lines, and the closing bracket on a line
of its own. -/
theorem toList_block {level : Nat} {lines : List String} (hne : lines ≠ [])
    (opening closing : String) :
    (block level opening lines closing).toList = opening.toList ++
      ((",".intercalate lines).toList ++ ((newLine level).toList ++ closing.toList)) := by
  simp [block, hne]

/-- What stands in brackets starts, after the blanks in front, with the text of its first line. -/
theorem opens_skipSpace_intercalate (level : Nat) {line : String} (lines : List String)
    (hline : Opens line.toList) (rest : List Char) :
    Opens (skipSpace ((",".intercalate ((newLine level ++ line) :: lines)).toList ++ rest)) := by
  obtain ⟨c, ds, hcs, hc⟩ := hline
  have hfirst : ∀ after, Opens (skipSpace ((newLine level ++ line).toList ++ after)) := by
    intro after
    rw [String.toList_append, List.append_assoc, skipSpace_newLine, hcs, List.cons_append,
      skipSpace_of_head _ hc.1]
    exact ⟨c, _, rfl, hc⟩
  by_cases hlines : lines = []
  · rw [hlines, String.intercalate_singleton]
    exact hfirst rest
  · rw [toList_intercalate_cons _ hlines, List.append_assoc]
    exact hfirst _

theorem readValue?_array {cs rest : List Char} {items : List Json} {bound : Nat}
    (hopens : Opens (skipSpace cs)) (hread : readItems? bound cs = some (items, rest)) :
    readValue? (bound + 1) ('[' :: cs) = some (array items, rest) := by
  obtain ⟨c, ds, hcs, -, hc, -⟩ := hopens
  have hskip : readItems? bound (c :: ds) = some (items, rest) := by
    rw [← hread, ← hcs]
    exact readItems?_of_skipSpace (skipSpace_skipSpace cs) bound
  rw [readValue?.eq_def]
  simp only [skipSpace_of_head cs (c := '[') (by decide), hcs]
  split
  next heq => exact absurd (List.cons.inj heq).1 hc
  next => rw [hskip, Option.map_some]

theorem readValue?_object {cs rest : List Char} {members : List (Option String × Json)}
    {bound : Nat} (hopens : Opens (skipSpace cs))
    (hread : readMembers? bound cs = some (members, rest)) :
    readValue? (bound + 1) ('\x7b' :: cs) = some (object members, rest) := by
  obtain ⟨c, ds, hcs, -, -, hc⟩ := hopens
  have hskip : readMembers? bound (c :: ds) = some (members, rest) := by
    rw [← hread, ← hcs]
    exact readMembers?_of_skipSpace (skipSpace_skipSpace cs) bound
  rw [readValue?.eq_def]
  simp only [skipSpace_of_head cs (c := '\x7b') (by decide), hcs]
  split
  next heq => exact absurd (List.cons.inj heq).1 hc
  next => rw [hskip, Option.map_some]

/-- A text has a character, so a bound that is no less than its length is not zero. -/
theorem recovered_of_succ {v : Json} (hopens : ∀ level, Opens (v.prettyAt level).toList)
    (h : ∀ level bound rest, (v.prettyAt level).toList.length ≤ bound + 1 → EndsNumber rest →
      readValue? (bound + 1) ((v.prettyAt level).toList ++ rest) = some (v, rest)) :
    Recovered v := by
  intro level bound rest hbound hrest
  have hpos := (hopens level).length_pos
  obtain ⟨bound, rfl⟩ := Nat.exists_eq_add_one_of_ne_zero (show bound ≠ 0 by omega)
  exact h level bound rest hbound hrest

theorem recovered_array {items : List Json} (hitems : ∀ v ∈ items, v.Printable)
    (hread : ∀ v ∈ items, Recovered v) : Recovered (array items) := by
  refine recovered_of_succ (Printable.array hitems).opens fun level bound rest hbound _ => ?_
  cases items with
  | nil => simp [prettyAt, prettyItems, block, readValue?, skipSpace, isSpace]
  | cons v vs =>
    have hlines : prettyItems (level + 1) (v :: vs) ≠ [] := by simp [prettyItems]
    simp only [prettyAt, toList_block hlines, List.length_append, List.append_assoc] at hbound ⊢
    have hopening : "[".toList = ['['] := rfl
    rw [hopening, List.length_singleton] at hbound
    rw [hopening, List.singleton_append]
    have hopens := (hitems v List.mem_cons_self).opens
    exact readValue?_array (opens_skipSpace_intercalate _ _ (hopens _) _)
      (readItems?_prettyItems (List.cons_ne_nil v vs) hread (level + 1) level bound rest (by omega))

theorem recovered_object {members : List (Option String × Json)}
    (hkeys : ∀ m ∈ members, m.1.isSome = true) (hmembers : ∀ m ∈ members, m.2.Printable)
    (hread : ∀ m ∈ members, Recovered m.2) : Recovered (object members) := by
  have hopens := (Printable.object hkeys hmembers).opens
  refine recovered_of_succ hopens fun level bound rest hbound _ => ?_
  cases members with
  | nil => simp [prettyAt, prettyMembers, block, readValue?, skipSpace, isSpace]
  | cons m ms =>
    have hlines : prettyMembers (level + 1) (m :: ms) ≠ [] := by simp [prettyMembers]
    simp only [prettyAt, toList_block hlines, List.length_append, List.append_assoc] at hbound ⊢
    have hopening : "\x7b".toList = ['\x7b'] := rfl
    rw [hopening, List.length_singleton] at hbound
    rw [hopening, List.singleton_append]
    refine readValue?_object ?_ (readMembers?_prettyMembers (List.cons_ne_nil m ms) hkeys hread
      (level + 1) level bound rest (by omega))
    have hquote : Opens (quotedKey m.1 ++ ": " ++ m.2.prettyAt (level + 1)).toList :=
      ⟨'"', _, by simp [quotedKey, toList_quoted]; rfl, by decide⟩
    have hopens := opens_skipSpace_intercalate (level + 1) (prettyMembers (level + 1) ms) hquote
    simpa only [prettyMembers, String.append_assoc] using hopens _

/-- A printable document is read from its text. -/
theorem Printable.recovered {v : Json} (h : v.Printable) : Recovered v := by
  induction h with
  | null =>
    refine recovered_of_succ Printable.null.opens fun level bound rest _ _ => ?_
    simp [prettyAt, readValue?, skipSpace, isSpace]
  | bool b =>
    refine recovered_of_succ (Printable.bool b).opens fun level bound rest _ _ => ?_
    cases b <;> simp [prettyAt, readValue?, skipSpace, isSpace]
  | number h =>
    refine recovered_of_succ (Printable.number h).opens fun level bound rest _ hrest => ?_
    have hread := readValue?_literal h hrest bound
    rwa [String.ofList_toList] at hread
  | text s =>
    refine recovered_of_succ (Printable.text s).opens fun level bound rest _ _ => ?_
    simp [Json.text, prettyAt, quotedKey, toList_quoted, readValue?, skipSpace, isSpace,
      readString?_quoted]
  | array h ih => exact recovered_array h ih
  | object hkeys h ih => exact recovered_object hkeys h ih

/-- The indented text of a printable document is read as that document. -/
theorem parse?_pretty {v : Json} (h : v.Printable) : parse? v.pretty = some v := by
  have hread := h.recovered 0 ((v.prettyAt 0).length + 1) [] (Nat.le_succ _) (by simp [EndsNumber])
  rw [List.append_nil] at hread
  rw [parse?, pretty, hread]
  rfl

end Json

end EffectGraph
