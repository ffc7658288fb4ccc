import EffectGraph.Graph.Shape
import Mathlib.Data.List.Basic

/-!
# Keys of tables

Which keys a table has after an operation, and what follows for lists of node ids.
-/

namespace EffectGraph

open KeyOrder

variable {κ α : Type} [DecidableEq κ] [KeyOrder κ]

omit [KeyOrder κ] in
theorem lookupEntry_isSome {k : κ} {es : List (κ × α)} :
    (lookupEntry k es).isSome = true ↔ ∃ e ∈ es, e.1 = k := by
  induction es with
  | nil => simp [lookupEntry]
  | cons e es ih => by_cases h : e.1 = k <;> simp [lookupEntry, h, ih]

namespace Table

theorem mem_keys_iff {t : Table κ α} {k : κ} : k ∈ t.keys ↔ (t.get? k).isSome = true := by
  simp [keys, get?, lookupEntry_isSome]

theorem mem_keys_insert {t : Table κ α} {k j : κ} {v : α} :
    j ∈ (t.insert k v).keys ↔ j = k ∨ j ∈ t.keys := by
  rw [mem_keys_iff, mem_keys_iff, get?_insert]
  by_cases h : j = k <;> simp [h]

theorem mem_keys_erase {t : Table κ α} {k j : κ} :
    j ∈ (t.erase k).keys ↔ j ≠ k ∧ j ∈ t.keys := by
  rw [mem_keys_iff, mem_keys_iff, get?_erase]
  by_cases h : j = k <;> simp [h]

omit [DecidableEq κ] in
theorem mem_keys_filter {t : Table κ α} {p : κ → Bool} {j : κ} :
    j ∈ (t.filter fun k _ => p k).keys ↔ j ∈ t.keys ∧ p j = true := by
  simp only [keys, filter, List.mem_map, List.mem_filter]
  constructor
  · rintro ⟨e, ⟨he, hp⟩, rfl⟩
    exact ⟨⟨e, he, rfl⟩, hp⟩
  · rintro ⟨⟨e, he, rfl⟩, hp⟩
    exact ⟨e, ⟨he, hp⟩, rfl⟩

omit [DecidableEq κ] in
theorem filter_eq_self {t : Table κ α} {p : κ → Bool} (h : ∀ k ∈ t.keys, p k = true) :
    (t.filter fun k _ => p k) = t :=
  ext (List.filter_eq_self.2 fun _ he => h _ (List.mem_map_of_mem he))

omit [DecidableEq κ] in
@[simp] theorem not_mem_keys_empty {j : κ} : j ∉ (empty : Table κ α).keys := by
  simp [keys, empty]

theorem mem_keys_foldl_insert {es : List (κ × α)} {t : Table κ α} {j : κ} :
    j ∈ (es.foldl (fun t e => t.insert e.1 e.2) t).keys ↔ j ∈ t.keys ∨ ∃ e ∈ es, e.1 = j := by
  induction es generalizing t with
  | nil => simp
  | cons e es ih =>
    rw [List.foldl_cons, ih, mem_keys_insert]
    simp only [List.mem_cons, exists_eq_or_imp, eq_comm (a := j)]
    tauto

/-! ## Entries in any order -/

theorem perm_insertEntry {k : κ} {v : α} {es : List (κ × α)} (h : ∀ e ∈ es, e.1 ≠ k) :
    (insertEntry k v es).Perm ((k, v) :: es) := by
  induction es with
  | nil => exact .refl _
  | cons e es ih =>
    rw [insertEntry, if_neg (h e List.mem_cons_self)]
    split
    · exact ((ih fun e he => h e (List.mem_cons_of_mem _ he)).cons e).trans (.swap _ _ _)
    · exact .refl _

theorem perm_entries_foldl_insert {es : List (κ × α)} {t : Table κ α}
    (hnodup : (es.map (·.1)).Nodup) (hnew : ∀ e ∈ es, e.1 ∉ t.keys) :
    (es.foldl (fun t e => t.insert e.1 e.2) t).entries.Perm (es ++ t.entries) := by
  induction es generalizing t with
  | nil => exact .refl _
  | cons e es ih =>
    obtain ⟨hhead, htail⟩ := List.nodup_cons.1 hnodup
    -- The first key is new to the table, so its entry is added and none is replaced.
    have hinsert : (t.insert e.1 e.2).entries.Perm (e :: t.entries) :=
      perm_insertEntry fun x hx he =>
        hnew e List.mem_cons_self (he ▸ List.mem_map_of_mem hx)
    refine (ih htail fun x hx hmem => ?_).trans ((hinsert.append_left es).trans List.perm_middle)
    rcases mem_keys_insert.1 hmem with he | hmem
    · exact hhead (List.mem_map.2 ⟨x, hx, he⟩)
    · exact hnew x (List.mem_cons_of_mem _ hx) hmem

/-- The table of a list of entries with different keys holds exactly these entries. -/
theorem perm_entries_ofList {es : List (κ × α)} (hnodup : (es.map (·.1)).Nodup) :
    (ofList es).entries.Perm es := by
  have := perm_entries_foldl_insert (t := empty) hnodup fun _ _ => not_mem_keys_empty
  rwa [show (empty : Table κ α).entries = [] from rfl, List.append_nil] at this

omit [DecidableEq κ] in
theorem nodup_keys (t : Table κ α) : t.keys.Nodup :=
  List.pairwise_map.2 (t.sorted.imp fun h => ne_of_before h)

/-- A table is the table of its entries in whatever order. -/
theorem ofList_of_perm {es : List (κ × α)} {t : Table κ α} (h : es.Perm t.entries) :
    ofList es = t := by
  have hnodup : (es.map (·.1)).Nodup := (h.map _).nodup_iff.2 t.nodup_keys
  refine ext (((perm_entries_ofList hnodup).trans h).eq_of_pairwise ?_ (ofList es).sorted t.sorted)
  intro a b _ _ hab hba
  have := before_asymm hab
  rw [show before b.1 a.1 = true from hba] at this
  exact Bool.noConfusion this

end Table

@[simp] theorem mem_sortIds {ns : List NodeId} {n : NodeId} : n ∈ sortIds ns ↔ n ∈ ns := by
  rw [sortIds, Table.ofList, Table.mem_keys_foldl_insert]
  simp

@[simp] theorem sortIds_nil : sortIds [] = [] := rfl

end EffectGraph
