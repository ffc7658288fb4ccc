import EffectGraph.Proofs.Nesting

/-!
# When a snapshot is read back

The document of a snapshot is read as that snapshot exactly if all its numbers are read back from
their texts and the levels suffice for its nesting (`Snapshot.reads_iff`). A document that is read
as the snapshot is so field by field, so that each number in it was read from its own text.
-/

namespace EffectGraph

open Json JsonReader

/-! ## Numbers -/

theorem Binary64.ofText?_pretty_toJson (levels : Nat) (x : Binary64) :
    binary64.ofText? x.toJson.pretty = binary64 levels x.toJson := by
  rw [ofText?, parse?_pretty x.printable_toJson, Option.bind_some, toJson]
  split <;> rfl

/-- A number is read back if its text is read as that number: what is not finite has no text but
`null`. -/
theorem Binary64.readsBack_iff {x : Binary64} :
    x.ReadsBack ↔ binary64.ofText? x.toJson.pretty = some x := by
  refine ⟨fun h => h.read, fun h => ⟨?_, h⟩⟩
  by_contra hfinite
  rw [ofText?_pretty_toJson levels, toJson, if_neg hfinite] at h
  simp [binary64] at h

theorem Binary64.readsBack_of_reads {levels : Nat} {x : Binary64}
    (h : binary64 levels x.toJson = some x) : x.ReadsBack :=
  readsBack_iff.2 ((ofText?_pretty_toJson levels x).trans h)

theorem Binary32.ofText?_pretty_toJson (levels : Nat) (x : Binary32) :
    binary32.ofText? x.toJson.pretty = binary32 levels x.toJson := by
  rw [ofText?, parse?_pretty x.printable_toJson, Option.bind_some, toJson]
  split <;> rfl

theorem Binary32.readsBack_iff {x : Binary32} :
    x.ReadsBack ↔ binary32.ofText? x.toJson.pretty = some x := by
  refine ⟨fun h => h.read, fun h => ⟨?_, h⟩⟩
  by_contra hfinite
  rw [ofText?_pretty_toJson levels, toJson, if_neg hfinite] at h
  simp [binary32] at h

theorem Binary32.readsBack_of_reads {levels : Nat} {x : Binary32}
    (h : binary32 levels x.toJson = some x) : x.ReadsBack :=
  readsBack_iff.2 ((ofText?_pretty_toJson levels x).trans h)

/-! ## Containers -/

namespace JsonReader

/-- A record that is read from an object with exactly its fields is read from the documents of these
fields. -/
theorem record_record_eq_some {α : Type} {members : List (String × Json)} {names : List String}
    {read? : Nat → Fields → Option α} {levels : Nat} {a : α} (hnames : members.map (·.1) = names)
    (hnodup : names.Nodup)
    (h : JsonReader.record names read? levels (Json.record members) = some a) :
    ∃ n, read? n ⟨true, members.map fun m => some m.2⟩ = some a := by
  cases hn : enter? levels with
  | none => simp [Json.record, JsonReader.record, hn] at h
  | some n =>
    rw [record_record hnames hnodup hn] at h
    exact ⟨n, h⟩

/-- What is written one by one and read one after another is each read from its own document. -/
theorem own_of_each {α : Type} {write? : α → Option Json} {read? : Json → Option α} {as : List α}
    {js : List Json} (hwrite : as.mapM write? = some js) (hread : each read? js = some as) :
    ∀ a ∈ as, ∃ j, write? a = some j ∧ read? j = some a := by
  induction as generalizing js with
  | nil => simp
  | cons a as ih =>
    simp only [List.mapM_cons, Option.bind_eq_bind, Option.bind_eq_some_iff, Option.pure_def,
      Option.some.injEq] at hwrite
    obtain ⟨j, hj, js, hjs, rfl⟩ := hwrite
    simp only [each, Option.bind_eq_bind, Option.bind_eq_some_iff, Option.some.injEq,
      List.cons.injEq] at hread
    obtain ⟨a', ha, as', has, rfl, rfl⟩ := hread
    exact List.forall_mem_cons.2 ⟨⟨j, hj, ha⟩, ih hjs has⟩

/-- A table is read as the entries of its keys with the values read for them. -/
theorem entries_zip_eq_some {α : Type} {read? : Json → Option α} {ks : List String}
    {js : List Json} (hlength : js.length = ks.length) {t₀ t : Table String α}
    (h : entries read? ((ks.zip js).map fun m => (some m.1, m.2)) t₀ = some t) :
    ∃ as, each read? js = some as ∧ t = (ks.zip as).foldl (fun t e => t.insert e.1 e.2) t₀ := by
  induction ks generalizing js t₀ with
  | nil =>
    obtain rfl := List.eq_nil_of_length_eq_zero hlength
    exact ⟨[], rfl, (Option.some.inj h).symm⟩
  | cons k ks ih =>
    obtain ⟨j, js, rfl⟩ := List.exists_cons_of_length_eq_add_one hlength
    simp only [List.zip_cons_cons, List.map_cons, entries, Option.bind_eq_bind,
      Option.bind_eq_some_iff] at h
    obtain ⟨a, ha, h⟩ := h
    obtain ⟨as, has, rfl⟩ := ih (Nat.succ.inj hlength) h
    exact ⟨a :: as, by simp [each, ha, has], rfl⟩

theorem length_of_each {α : Type} {read? : Json → Option α} {js : List Json} {as : List α}
    (h : each read? js = some as) : as.length = js.length := by
  induction js generalizing as with
  | nil =>
    obtain rfl := Option.some.inj h
    rfl
  | cons j js ih =>
    simp only [each, Option.bind_eq_bind, Option.bind_eq_some_iff, Option.some.injEq] at h
    obtain ⟨a, -, rest, hrest, rfl⟩ := h
    simp [ih hrest]

end JsonReader

/-- Entries whose keys are those of a table are in order. -/
theorem Table.ofList_zip_keys {α β : Type} (t : Table String α) {vs : List β}
    (hlength : vs.length = t.keys.length) : (ofList (t.keys.zip vs)).entries = t.keys.zip vs := by
  have hkeys : (t.keys.zip vs).map (·.1) = t.keys := List.map_fst_zip (Nat.le_of_eq hlength.symm)
  have hsorted : (t.keys.zip vs).Pairwise EntryBefore := by
    have hpairwise :
        ((t.keys.zip vs).map (·.1)).Pairwise fun a b => KeyOrder.before a b = true := by
      rw [hkeys, keys, List.pairwise_map]
      exact t.sorted
    rwa [List.pairwise_map] at hpairwise
  rw [ofList_of_perm (t := ⟨t.keys.zip vs, hsorted⟩) (.refl _)]

/-! ## Values -/

theorem Value.readsBack_of_ofJson? {x : Binary64} {v : Value} (hx : v.HasFloat x) {levels : Nat}
    {j : Json} (hwrite : v.toJson? = some j) (hread : ofJson? levels j = some v) :
    x.ReadsBack := by
  induction hx generalizing levels j with
  | float =>
    obtain rfl := Option.some.inj hwrite
    have hnumber : ∃ n, enter? levels = some n ∧ binary64 n x.toJson = some x := by
      simpa [tagged, Json.record, ofJson?, Option.bind_eq_some_iff] using hread
    obtain ⟨n, -, hnumber⟩ := hnumber
    exact Binary64.readsBack_of_reads hnumber
  | @item items v hv _ ih =>
    obtain ⟨js, hjs, rfl⟩ := Option.map_eq_some_iff.1 hwrite
    have hitems : ∃ n, enter? levels = some n ∧
        ∃ m, enter? n = some m ∧ allOfJson? m js = some items := by
      simpa [tagged, Json.record, ofJson?, arrayOfJson?, Option.bind_eq_some_iff] using hread
    obtain ⟨n, -, m, -, hitems⟩ := hitems
    rw [allToJson?_eq_mapM] at hjs
    rw [allOfJson?_eq_each] at hitems
    obtain ⟨j, hj, hown⟩ := own_of_each hjs hitems v hv
    exact ih hj hown

theorem readsBack_of_table {t : Table String Value} {levels : Nat} {j : Json}
    (hwrite : valuesToJson? t = some j) (hread : table Value.ofJson? levels j = some t) :
    ∀ e ∈ t.entries, ∀ x, e.2.HasFloat x → x.ReadsBack := by
  obtain ⟨js, hjs, rfl⟩ := valuesToJson?_eq_some hwrite
  obtain ⟨n, -, hread⟩ := Option.bind_eq_some_iff.1 hread
  have hlength : js.length = t.keys.length := by
    rw [Value.length_allToJson? hjs, Table.keys, List.length_map, List.length_map]
  obtain ⟨vs, hvs, ht⟩ := entries_zip_eq_some hlength hread
  have hvslength : vs.length = t.keys.length := (length_of_each hvs).trans hlength
  have hentries : t.entries = t.keys.zip vs :=
    (congrArg Table.entries ht).trans (t.ofList_zip_keys hvslength)
  have hvalues : t.entries.map (·.2) = vs := by
    rw [hentries]
    exact List.map_snd_zip (Nat.le_of_eq hvslength)
  rw [Value.allToJson?_eq_mapM, hvalues] at hjs
  intro e he x hx
  obtain ⟨j, hj, hown⟩ :=
    own_of_each hjs hvs e.2 (hvalues ▸ List.mem_map.2 ⟨e, he, rfl⟩)
  exact Value.readsBack_of_ofJson? hx hj hown

/-! ## Snapshots -/

theorem NodeRecord.numbersReadBack_of_ofJson? {r : NodeRecord} {levels : Nat} {j : Json}
    (hwrite : r.toJson? = some j) (hread : ofJson? levels j = some r) : r.NumbersReadBack := by
  obtain ⟨consts, defaults, hconsts, hdefaults, rfl⟩ := toJson?_eq_some hwrite
  obtain ⟨n, hread⟩ := record_record_eq_some (by rfl) (by decide) hread
  obtain ⟨id, ⟨x, y⟩, kind, cs, ds⟩ := r
  have hfields : uint32 n (natJson id.toNat) = some id ∧
      Position.ofJson? n (.record [("x", x.toJson), ("y", y.toJson)]) = some ⟨x, y⟩ ∧
      StoredKind.ofJson? n kind.toJson = some kind ∧ table Value.ofJson? n consts = some cs ∧
      table Value.ofJson? n defaults = some ds := by
    simpa [Fields.require, Fields.get?, Option.bind_eq_some_iff] using hread
  obtain ⟨-, hposition, -, hcs, hds⟩ := hfields
  obtain ⟨m, hposition⟩ := record_record_eq_some (by rfl) (by decide) hposition
  have hcoordinates : binary32 m x.toJson = some x ∧ binary32 m y.toJson = some y := by
    simpa [Fields.require, Fields.get?, Option.bind_eq_some_iff] using hposition
  exact
    { x := Binary32.readsBack_of_reads hcoordinates.1
      y := Binary32.readsBack_of_reads hcoordinates.2
      float := fun e he x hx => he.elim (readsBack_of_table hconsts hcs e · x hx)
        (readsBack_of_table hdefaults hds e · x hx) }

/-- The document of a snapshot is read as that snapshot exactly if it does not nest too deeply and
all numbers in it are read back. -/
theorem Snapshot.reads_iff {s : Snapshot} {levels : Nat} (hlevels : 0 < levels) {j : Json}
    (hwrite : s.toJson? = some j) :
    ofJson? levels j = some s ↔ j.depth < levels ∧ s.NumbersReadBack := by
  refine ⟨fun hread => ⟨?_, fun r hr => ?_⟩, fun h => reads_toJson? hwrite h.2 levels h.1⟩
  · obtain ⟨j', hj', hdepth⟩ := writable_ofJson? hlevels hread
    obtain rfl := Option.some.inj (hwrite.symm.trans hj')
    exact hdepth
  · obtain ⟨nodes, hnodes, rfl⟩ := toJson?_eq_some hwrite
    obtain ⟨n, hread⟩ := record_record_eq_some (by rfl) (by decide) hread
    obtain ⟨rs, cs⟩ := s
    have hlists : list NodeRecord.ofJson? n (array nodes) = some rs ∧
        list ConnectionRecord.ofJson? n (array (cs.map (·.toJson))) = some cs := by
      simpa [Fields.require, Fields.get?, Option.bind_eq_some_iff] using hread
    obtain ⟨m, -, heach⟩ := Option.bind_eq_some_iff.1 hlists.1
    obtain ⟨j, hj, hown⟩ := own_of_each hnodes heach r hr
    exact NodeRecord.numbersReadBack_of_ofJson? hj hown

end EffectGraph
