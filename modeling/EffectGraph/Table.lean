/-!
# Tables

A `Table` maps keys to values. It is kept as the list of its entries in ascending order of the keys,
so two tables with the same entries are equal, and its listing is the sorted one that snapshots
show.

* `Table.get?_insert`, `Table.get?_erase` say what the operations do to a look-up;
* `Table.ext_get?` says that a table is determined by its look-ups.
-/

namespace EffectGraph

/-- A decidable strict total order on keys. -/
class KeyOrder (κ : Type) where
  /-- Whether the first key comes before the second. -/
  before : κ → κ → Bool
  /-- No key comes before itself. -/
  before_irrefl : ∀ a, before a a = false
  /-- The order is transitive. -/
  before_trans : ∀ {a b c}, before a b = true → before b c = true → before a c = true
  /-- Different keys are comparable. -/
  before_total : ∀ {a b}, before a b = false → before b a = false → a = b

open KeyOrder

instance : KeyOrder String where
  before a b := decide (a < b)
  before_irrefl a := by simp
  before_trans h₁ h₂ := by
    simp only [decide_eq_true_eq] at *
    exact String.lt_trans h₁ h₂
  before_total h₁ h₂ := by
    simp only [decide_eq_false_iff_not, String.not_lt] at *
    exact String.le_antisymm h₂ h₁

instance : KeyOrder Nat where
  before a b := decide (a < b)
  before_irrefl a := by simp
  before_trans h₁ h₂ := by simp only [decide_eq_true_eq] at *; omega
  before_total h₁ h₂ := by simp only [decide_eq_false_iff_not] at *; omega

variable {κ α : Type} [DecidableEq κ] [KeyOrder κ]

/-- Puts an entry at its place, in the stead of an entry with the same key. -/
def insertEntry (k : κ) (v : α) : List (κ × α) → List (κ × α)
  | [] => [(k, v)]
  | e :: es =>
    if e.1 = k then (k, v) :: es
    else if before e.1 k then e :: insertEntry k v es
    else (k, v) :: e :: es

/-- The value of the first entry with the given key. -/
def lookupEntry (k : κ) : List (κ × α) → Option α
  | [] => none
  | e :: es => if e.1 = k then some e.2 else lookupEntry k es

/-- The order of entries, by their keys. -/
abbrev EntryBefore (a b : κ × α) : Prop := before a.1 b.1 = true

omit [DecidableEq κ] in
theorem before_asymm {a b : κ} (h : before a b = true) : before b a = false := by
  cases h' : before b a with
  | false => rfl
  | true =>
    have := before_irrefl a
    rw [before_trans h h'] at this
    exact absurd this (by decide)

theorem mem_insertEntry {k : κ} {v : α} {es : List (κ × α)} {x : κ × α}
    (h : x ∈ insertEntry k v es) : x = (k, v) ∨ x ∈ es := by
  induction es with
  | nil => simpa [insertEntry] using h
  | cons e es ih =>
    simp only [insertEntry] at h
    split at h
    · rcases List.mem_cons.1 h with h | h
      · exact .inl h
      · exact .inr (List.mem_cons_of_mem _ h)
    · split at h
      · rcases List.mem_cons.1 h with h | h
        · exact .inr (h ▸ List.mem_cons_self)
        · exact (ih h).imp id (List.mem_cons_of_mem _)
      · rcases List.mem_cons.1 h with h | h
        · exact .inl h
        · exact .inr h

theorem insertEntry_sorted (k : κ) (v : α) {es : List (κ × α)} (h : es.Pairwise EntryBefore) :
    (insertEntry k v es).Pairwise EntryBefore := by
  induction es with
  | nil => simp [insertEntry]
  | cons e es ih =>
    obtain ⟨hd, tl⟩ := List.pairwise_cons.1 h
    simp only [insertEntry]
    split
    next heq => exact List.pairwise_cons.2 ⟨fun x hx => heq ▸ hd x hx, tl⟩
    next hne =>
      split
      next hb =>
        refine List.pairwise_cons.2 ⟨fun x hx => ?_, ih tl⟩
        rcases mem_insertEntry hx with hx | hx
        · exact hx ▸ hb
        · exact hd x hx
      next hb =>
        have hke : before k e.1 = true := by
          cases hk : before k e.1 with
          | true => rfl
          | false => exact absurd (before_total (by simpa using hb) hk) hne
        refine List.pairwise_cons.2 ⟨fun x hx => ?_, h⟩
        rcases List.mem_cons.1 hx with hx | hx
        · exact hx ▸ hke
        · exact before_trans hke (hd x hx)

/-- A finite map from keys to values, listed in ascending order of the keys. -/
structure Table (κ α : Type) [KeyOrder κ] where
  entries : List (κ × α)
  /-- No key occurs twice and the keys ascend. -/
  sorted : entries.Pairwise EntryBefore

namespace Table

instance [DecidableEq α] : DecidableEq (Table κ α) := fun s t =>
  match s, t with
  | ⟨es, _⟩, ⟨fs, _⟩ =>
    if h : es = fs then .isTrue (by cases h; rfl) else .isFalse (fun e => h (by cases e; rfl))

omit [DecidableEq κ] in
@[ext] theorem ext {s t : Table κ α} (h : s.entries = t.entries) : s = t := by
  cases s; cases t; cases h; rfl

def empty : Table κ α := ⟨[], .nil⟩

instance : Inhabited (Table κ α) := ⟨empty⟩

def get? (t : Table κ α) (k : κ) : Option α := lookupEntry k t.entries

def contains (t : Table κ α) (k : κ) : Bool := (t.get? k).isSome

/-- Gives a key a value, in the stead of any value it had. -/
def insert (t : Table κ α) (k : κ) (v : α) : Table κ α :=
  ⟨insertEntry k v t.entries, insertEntry_sorted k v t.sorted⟩

/-- Keeps the entries whose key and value pass a test. -/
def filter (t : Table κ α) (p : κ → α → Bool) : Table κ α :=
  ⟨t.entries.filter fun e => p e.1 e.2, t.sorted.sublist List.filter_sublist⟩

/-- Removes a key. -/
def erase (t : Table κ α) (k : κ) : Table κ α :=
  t.filter fun j _ => j ≠ k

/-- The table of a list of entries; of two entries with one key the later counts. -/
def ofList (es : List (κ × α)) : Table κ α :=
  es.foldl (fun t e => t.insert e.1 e.2) empty

/-! ## Look-ups -/

@[simp] theorem get?_empty (j : κ) : (empty : Table κ α).get? j = none := rfl

theorem lookupEntry_insertEntry (k j : κ) (v : α) (es : List (κ × α)) :
    lookupEntry j (insertEntry k v es) = if j = k then some v else lookupEntry j es := by
  induction es with
  | nil => simp [insertEntry, lookupEntry, eq_comm]
  | cons e es ih => grind [insertEntry, lookupEntry]

@[simp] theorem get?_insert (t : Table κ α) (k j : κ) (v : α) :
    (t.insert k v).get? j = if j = k then some v else t.get? j :=
  lookupEntry_insertEntry k j v t.entries

omit [KeyOrder κ] in
theorem lookupEntry_filter_key (p : κ → Bool) (j : κ) (es : List (κ × α)) :
    lookupEntry j (es.filter fun e => p e.1) = if p j then lookupEntry j es else none := by
  induction es with
  | nil => simp [lookupEntry]
  | cons e es ih =>
    by_cases h : e.1 = j
    · by_cases hp : p j <;> simp [lookupEntry, h, hp, ih]
    · by_cases hp : p e.1 <;> simp [lookupEntry, h, hp, ih]

@[simp] theorem get?_erase (t : Table κ α) (k j : κ) :
    (t.erase k).get? j = if j = k then none else t.get? j := by
  have := lookupEntry_filter_key (fun i => decide (i ≠ k)) j t.entries
  by_cases h : j = k <;> simpa [get?, erase, filter, h] using this

omit [KeyOrder κ] in
theorem lookupEntry_eq_none {j : κ} {es : List (κ × α)} (h : ∀ e ∈ es, e.1 ≠ j) :
    lookupEntry j es = none := by
  induction es with
  | nil => rfl
  | cons e es ih =>
    rw [lookupEntry, if_neg (h e List.mem_cons_self)]
    exact ih fun x hx => h x (List.mem_cons_of_mem _ hx)

omit [DecidableEq κ] in
theorem ne_of_before {a b : κ} (h : before a b = true) : a ≠ b := by
  rintro rfl
  rw [before_irrefl] at h
  exact absurd h (by decide)

omit [KeyOrder κ] in
theorem lookupEntry_cons_self (e : κ × α) (es : List (κ × α)) :
    lookupEntry e.1 (e :: es) = some e.2 := by
  simp [lookupEntry]

/-- A key that comes before the first entry's key of a sorted list has no value there. -/
theorem lookupEntry_of_before {j : κ} {e : κ × α} {es : List (κ × α)}
    (hs : (e :: es).Pairwise EntryBefore) (h : before j e.1 = true) :
    lookupEntry j (e :: es) = none := by
  obtain ⟨hd, -⟩ := List.pairwise_cons.1 hs
  refine lookupEntry_eq_none fun x hx => ?_
  rcases List.mem_cons.1 hx with hx | hx
  · exact hx ▸ (ne_of_before h).symm
  · exact (ne_of_before (before_trans h (hd x hx))).symm

theorem eq_of_lookupEntry_eq {es fs : List (κ × α)} (hs : es.Pairwise EntryBefore)
    (ht : fs.Pairwise EntryBefore) (h : ∀ j, lookupEntry j es = lookupEntry j fs) : es = fs := by
  induction es generalizing fs with
  | nil =>
    cases fs with
    | nil => rfl
    | cons f fs =>
      have := h f.1
      rw [lookupEntry_cons_self] at this
      exact absurd this (by simp [lookupEntry])
  | cons e es ih =>
    cases fs with
    | nil =>
      have := h e.1
      rw [lookupEntry_cons_self] at this
      exact absurd this (by simp [lookupEntry])
    | cons f fs =>
      have keyEq : e.1 = f.1 := by
        refine before_total ?_ ?_
        · cases hb : before e.1 f.1 with
          | false => rfl
          | true =>
            have := h e.1
            rw [lookupEntry_cons_self, lookupEntry_of_before ht hb] at this
            exact absurd this (by simp)
        · cases hb : before f.1 e.1 with
          | false => rfl
          | true =>
            have := h f.1
            rw [lookupEntry_cons_self, lookupEntry_of_before hs hb] at this
            exact absurd this (by simp)
      have valueEq : e.2 = f.2 := by
        have := h e.1
        rw [lookupEntry_cons_self, keyEq, lookupEntry_cons_self] at this
        exact Option.some.inj this
      obtain ⟨hd, tl⟩ := List.pairwise_cons.1 hs
      obtain ⟨hd', tl'⟩ := List.pairwise_cons.1 ht
      have restEq : es = fs := by
        refine ih tl tl' fun j => ?_
        by_cases hj : e.1 = j
        · subst hj
          rw [lookupEntry_eq_none fun x hx => (ne_of_before (hd x hx)).symm,
            lookupEntry_eq_none fun x hx => keyEq ▸ (ne_of_before (hd' x hx)).symm]
        · have := h j
          rwa [lookupEntry, lookupEntry, if_neg hj, if_neg (keyEq ▸ hj)] at this
      rw [restEq, Prod.ext keyEq valueEq]

/-- A table is determined by its look-ups. -/
theorem ext_get? {s t : Table κ α} (h : ∀ j, s.get? j = t.get? j) : s = t :=
  ext (eq_of_lookupEntry_eq s.sorted t.sorted h)

/-- The keys in ascending order. -/
def keys (t : Table κ α) : List κ := t.entries.map (·.1)

def size (t : Table κ α) : Nat := t.entries.length

def isEmpty (t : Table κ α) : Bool := t.entries.isEmpty

end Table

end EffectGraph
