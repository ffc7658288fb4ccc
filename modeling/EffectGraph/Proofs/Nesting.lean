import EffectGraph.Proofs.TextForms

/-!
# What is read can be written

Whatever is read from a document, however it was spelled there, can be written as a document again,
and the new document nests containers no more deeply than the one that was read could have
(`JsonReader.Writable`): a reader spends a level for every container of the document that the writer
makes, whether the document had a record as an object or as an array, members that are no fields, or
a key twice. So the text of a snapshot that was read from a text nests containers to 127 levels at
most (`Snapshot.writable_of_ofJsonText`). A snapshot that was read from bytes can be written too
(`Snapshot.not_holdsForeign_of_decode`), but it may nest its values to any depth.
-/

namespace EffectGraph

open JsonReader

/-! ## Depth -/

namespace Json

theorem itemsDepth_lt {items : List Json} {levels : Nat} (hlevels : 0 < levels)
    (h : ∀ v ∈ items, v.depth < levels) : itemsDepth items < levels := by
  induction items with
  | nil => exact hlevels
  | cons v items ih =>
    obtain ⟨hv, hitems⟩ := List.forall_mem_cons.1 h
    exact Nat.max_lt.2 ⟨hv, ih hitems⟩

theorem depth_record_lt {members : List (String × Json)} {levels : Nat} (hlevels : 0 < levels)
    (h : ∀ m ∈ members, m.2.depth < levels) : (record members).depth < levels + 1 := by
  have hmembers : membersDepth (members.map fun m => (some m.1, m.2)) < levels := by
    induction members with
    | nil => exact hlevels
    | cons m members ih =>
      obtain ⟨hm, hmembers⟩ := List.forall_mem_cons.1 h
      exact Nat.max_lt.2 ⟨hm, ih hmembers⟩
  exact Nat.succ_lt_succ hmembers

@[simp] theorem depth_natJson (n : Nat) : (natJson n).depth = 0 := rfl

end Json

open Json

@[simp] theorem Binary64.depth_toJson (x : Binary64) : x.toJson.depth = 0 := by
  unfold toJson
  split <;> rfl

@[simp] theorem Binary32.depth_toJson (x : Binary32) : x.toJson.depth = 0 := by
  unfold toJson
  split <;> rfl

/-! ## Readers -/

namespace JsonReader

/-- Whether what is read can be written again within the levels it was read with. -/
def Writable {α : Type} (reader : JsonReader α) (write? : α → Option Json) : Prop :=
  ∀ {levels : Nat} {j : Json} {a : α}, 0 < levels → reader levels j = some a →
    ∃ j', write? a = some j' ∧ j'.depth < levels

theorem enter?_eq_some {levels n : Nat} (h : enter? levels = some n) :
    levels = n + 1 ∧ 0 < n := by
  unfold enter? at h
  split at h
  next m =>
    obtain rfl := Option.some.inj h
    exact ⟨rfl, Nat.succ_pos m⟩
  next => simp at h

theorem record_eq_some {α : Type} {names : List String} {read? : Nat → Fields → Option α}
    {levels : Nat} {j : Json} {a : α} (h : JsonReader.record names read? levels j = some a) :
    ∃ n f, levels = n + 1 ∧ 0 < n ∧ read? n f = some a := by
  cases j with
  | object members =>
    obtain ⟨n, hn, h⟩ := Option.bind_eq_some_iff.1 h
    split at h
    · exact ⟨n, _, (enter?_eq_some hn).1, (enter?_eq_some hn).2, h⟩
    · simp at h
  | array items =>
    obtain ⟨n, hn, h⟩ := Option.bind_eq_some_iff.1 h
    split at h
    · exact ⟨n, _, (enter?_eq_some hn).1, (enter?_eq_some hn).2, h⟩
    · simp at h
  | _ => simp [JsonReader.record] at h

theorem require_eq_some {α : Type} {f : Fields} {i : Nat} {read? : Json → Option α} {a : α}
    (h : f.require i read? = some a) : ∃ j, read? j = some a := by
  obtain ⟨j, -, h⟩ := Option.bind_eq_some_iff.1 h
  exact ⟨j, h⟩

theorem read_of_mem_each {α : Type} {read? : Json → Option α} {js : List Json} {as : List α}
    (h : each read? js = some as) : ∀ a ∈ as, ∃ j, read? j = some a := by
  induction js generalizing as with
  | nil =>
    obtain rfl := Option.some.inj h
    simp
  | cons j js ih =>
    simp only [each, Option.bind_eq_bind, Option.bind_eq_some_iff, Option.some.injEq] at h
    obtain ⟨a, ha, rest, hrest, rfl⟩ := h
    exact List.forall_mem_cons.2 ⟨⟨j, ha⟩, ih hrest⟩

theorem list_eq_some {α : Type} {reader : JsonReader α} {levels : Nat} {j : Json} {as : List α}
    (h : list reader levels j = some as) :
    ∃ n, levels = n + 1 ∧ 0 < n ∧ ∀ a ∈ as, ∃ j, reader n j = some a := by
  cases j with
  | array items =>
    obtain ⟨n, hn, h⟩ := Option.bind_eq_some_iff.1 h
    exact ⟨n, (enter?_eq_some hn).1, (enter?_eq_some hn).2, read_of_mem_each h⟩
  | _ => simp [JsonReader.list] at h

/-- The values of a table that was read have been read one by one. -/
theorem entries_eq_some {α : Type} {read? : Json → Option α} {P : α → Prop}
    (hread : ∀ j a, read? j = some a → P a) {members : List (Option String × Json)}
    {t₀ t : Table String α} (ht₀ : ∀ e ∈ t₀.entries, P e.2)
    (h : entries read? members t₀ = some t) : ∀ e ∈ t.entries, P e.2 := by
  induction members generalizing t₀ with
  | nil =>
    obtain rfl := Option.some.inj h
    exact ht₀
  | cons m members ih =>
    obtain ⟨_ | k, j⟩ := m
    · simp [entries] at h
    · simp only [entries, Option.bind_eq_bind, Option.bind_eq_some_iff] at h
      obtain ⟨a, ha, h⟩ := h
      refine ih (fun e he => ?_) h
      rcases mem_insertEntry he with rfl | he
      · exact hread j a ha
      · exact ht₀ e he

theorem table_eq_some {α : Type} {reader : JsonReader α} {levels : Nat} {j : Json}
    {t : Table String α} (h : table reader levels j = some t) :
    ∃ n, levels = n + 1 ∧ 0 < n ∧ ∀ e ∈ t.entries, ∃ j, reader n j = some e.2 := by
  cases j with
  | object members =>
    obtain ⟨n, hn, h⟩ := Option.bind_eq_some_iff.1 h
    exact ⟨n, (enter?_eq_some hn).1, (enter?_eq_some hn).2,
      entries_eq_some (P := fun a => ∃ j, reader n j = some a) (fun j a ha => ⟨j, ha⟩)
        (by simp [Table.empty]) h⟩
  | _ => simp [JsonReader.table] at h

/-- What can be written one by one can be written one after another. -/
theorem mapM_eq_some {α : Type} {write? : α → Option Json} {levels : Nat} {as : List α}
    (h : ∀ a ∈ as, ∃ j, write? a = some j ∧ j.depth < levels) :
    ∃ js, as.mapM write? = some js ∧ ∀ j ∈ js, j.depth < levels := by
  induction as with
  | nil => exact ⟨[], rfl, by simp⟩
  | cons a as ih =>
    obtain ⟨⟨j, hj, hdepth⟩, has⟩ := List.forall_mem_cons.1 h
    obtain ⟨js, hjs, hdepths⟩ := ih has
    exact ⟨j :: js, by simp [hj, hjs], List.forall_mem_cons.2 ⟨hdepth, hdepths⟩⟩

end JsonReader

/-! ## Values -/

namespace Value

theorem allToJson?_eq_mapM (vs : List Value) : allToJson? vs = vs.mapM toJson? := by
  induction vs with
  | nil => rfl
  | cons v vs ih => simp [allToJson?, ih]

theorem allOfJson?_eq_each (levels : Nat) (js : List Json) :
    allOfJson? levels js = each (ofJson? levels) js := by
  induction js with
  | nil => rfl
  | cons j js ih => simp [allOfJson?, each, ih]

theorem arrayOfJson?_eq_some {levels : Nat} {j : Json} {items : List Value}
    (h : arrayOfJson? levels j = some items) :
    ∃ n, levels = n + 1 ∧ 0 < n ∧ ∀ v ∈ items, ∃ j, ofJson? n j = some v := by
  cases j with
  | array js =>
    obtain ⟨n, hn, h⟩ := Option.bind_eq_some_iff.1 h
    rw [allOfJson?_eq_each] at h
    exact ⟨n, (enter?_eq_some hn).1, (enter?_eq_some hn).2, read_of_mem_each h⟩
  | _ => simp [arrayOfJson?] at h

/-- A value other than `null` has cost a level, and an array another one. -/
theorem ofJson?_cases {levels : Nat} {j : Json} {v : Value} (h : ofJson? levels j = some v) :
    v = .null ∨ ∃ n, levels = n + 1 ∧ 0 < n ∧
      ((∃ tag content, content.depth = 0 ∧ v.toJson? = some (.tagged tag content)) ∨
        ∃ items content, v = .array items ∧ arrayOfJson? n content = some items) := by
  unfold ofJson? at h
  split at h
  next tag =>
    split at h <;> simp at h
    exact .inl h.symm
  next tag content =>
    obtain ⟨n, hn, h⟩ := Option.bind_eq_some_iff.1 h
    obtain ⟨hlevels, hpos⟩ := enter?_eq_some hn
    by_cases hnull : tag = "Null"
    · rw [if_pos hnull] at h
      split at h <;> simp at h
      exact .inl h.symm
    · rw [if_neg hnull] at h
      refine .inr ⟨n, hlevels, hpos, ?_⟩
      split at h
      · obtain ⟨b, -, rfl⟩ := Option.map_eq_some_iff.1 h
        exact .inl ⟨_, _, rfl, rfl⟩
      split at h
      · obtain ⟨i, -, rfl⟩ := Option.map_eq_some_iff.1 h
        exact .inl ⟨_, _, rfl, rfl⟩
      split at h
      · obtain ⟨x, -, rfl⟩ := Option.map_eq_some_iff.1 h
        exact .inl ⟨_, _, x.depth_toJson, rfl⟩
      split at h
      · obtain ⟨s, -, rfl⟩ := Option.map_eq_some_iff.1 h
        exact .inl ⟨_, _, rfl, rfl⟩
      iterate 3
        split at h
        · obtain ⟨id, -, rfl⟩ := Option.map_eq_some_iff.1 h
          exact .inl ⟨_, _, rfl, rfl⟩
      split at h
      · obtain ⟨items, hitems, rfl⟩ := Option.map_eq_some_iff.1 h
        exact .inr ⟨items, content, rfl, hitems⟩
      · simp at h
  next => simp at h

theorem writable_ofJson? : Writable ofJson? toJson? := by
  intro levels
  -- The items of an array were read with fewer levels than the array.
  induction levels using Nat.strong_induction_on with
  | _ levels ih =>
    intro j v hlevels h
    rcases ofJson?_cases h with rfl | ⟨n, rfl, hn, hv⟩
    · exact ⟨_, rfl, hlevels⟩
    rcases hv with ⟨tag, content, hcontent, hwrite⟩ | ⟨items, content, rfl, hitems⟩
    · exact ⟨_, hwrite, by rw [depth_tagged]; omega⟩
    · obtain ⟨m, rfl, hm, hitems⟩ := arrayOfJson?_eq_some hitems
      have hwrite : ∀ v ∈ items, ∃ j', v.toJson? = some j' ∧ j'.depth < m := by
        intro v hv
        obtain ⟨j, hj⟩ := hitems v hv
        exact ih m (by omega) hm hj
      obtain ⟨js, hjs, hdepth⟩ := mapM_eq_some hwrite
      refine ⟨.tagged "Array" (.array js), by rw [toJson?, allToJson?_eq_mapM, hjs]; rfl, ?_⟩
      rw [depth_tagged, depth]
      have := itemsDepth_lt hm hdepth
      omega

end Value

theorem writable_table : Writable (table Value.ofJson?) valuesToJson? := by
  intro levels j t _ h
  obtain ⟨n, rfl, hn, hvalues⟩ := table_eq_some h
  have hwrite : ∀ v ∈ t.entries.map (·.2), ∃ j', v.toJson? = some j' ∧ j'.depth < n := by
    refine List.forall_mem_map.2 fun e he => ?_
    obtain ⟨j, hj⟩ := hvalues e he
    exact Value.writable_ofJson? hn hj
  obtain ⟨js, hjs, hdepth⟩ := mapM_eq_some hwrite
  refine ⟨.record (t.keys.zip js), by simp [valuesToJson?, Value.allToJson?_eq_mapM, hjs], ?_⟩
  exact depth_record_lt hn fun m hm => hdepth _ (List.of_mem_zip hm).2

/-! ## Records -/

theorem StoredKind.writable_ofJson? : Writable ofJson? (fun k => some k.toJson) := by
  intro levels j k hlevels h
  obtain ⟨c, hc, h⟩ := Option.bind_eq_some_iff.1 h
  refine ⟨_, rfl, ?_⟩
  split at h
  · obtain ⟨define, hread, rfl⟩ := Option.map_eq_some_iff.1 h
    obtain ⟨content, hcontent, hread⟩ := Option.bind_eq_some_iff.1 hread
    obtain ⟨n, f, hn, hpos, -⟩ := record_eq_some hread
    have hlevels : levels = c.levels + 1 := by
      unfold choice? at hc
      split at hc
      · obtain rfl := Option.some.inj hc
        simp at hcontent
      · obtain ⟨m, hm, rfl⟩ := Option.map_eq_some_iff.1 hc
        exact (enter?_eq_some hm).1
      · simp at hc
    rw [toJson, depth_tagged]
    have hrecord : (Json.record [("define", .text define)]).depth < n + 1 :=
      depth_record_lt hpos (by simp [hpos])
    omega
  · split at h
    · obtain rfl := Option.some.inj h
      exact hlevels
    · split at h <;> simp at h
      subst h
      exact hlevels

theorem ConnectionKind.depth_toJson (k : ConnectionKind) : k.toJson.depth = 0 := by
  cases k <;> rfl

theorem NodeRecord.writable_ofJson? : Writable ofJson? toJson? := by
  intro levels j r _ h
  obtain ⟨n, f, rfl, hn, h⟩ := record_eq_some h
  simp only [Option.bind_eq_bind, Option.bind_eq_some_iff, Option.some.injEq] at h
  obtain ⟨id, -, position, hposition, kind, hkind, consts, hconsts, defaults, hdefaults, rfl⟩ := h
  obtain ⟨_, hposition⟩ := require_eq_some hposition
  obtain ⟨m, -, rfl, hm, -⟩ := record_eq_some hposition
  obtain ⟨_, hkind⟩ := require_eq_some hkind
  obtain ⟨_, hkind, hkindDepth⟩ := StoredKind.writable_ofJson? hn hkind
  obtain rfl := Option.some.inj hkind
  obtain ⟨_, hconsts⟩ := require_eq_some hconsts
  obtain ⟨constsJson, hconsts, hconstsDepth⟩ := writable_table hn hconsts
  obtain ⟨_, hdefaults⟩ := require_eq_some hdefaults
  obtain ⟨defaultsJson, hdefaults, hdefaultsDepth⟩ := writable_table hn hdefaults
  have hpositionDepth :
      (Json.record [("x", position.x.toJson), ("y", position.y.toJson)]).depth < m + 1 :=
    depth_record_lt hm (by simp [hm])
  refine ⟨_, by rw [toJson?, hconsts, hdefaults]; rfl, depth_record_lt hn ?_⟩
  simp only [List.forall_mem_cons, depth_natJson, List.not_mem_nil, false_implies, implies_true,
    and_true]
  exact ⟨hn, hpositionDepth, hkindDepth, hconstsDepth, hdefaultsDepth⟩

theorem ConnectionRecord.writable_ofJson? : Writable ofJson? (fun r => some r.toJson) := by
  intro levels j r _ h
  obtain ⟨n, f, rfl, hn, -⟩ := record_eq_some h
  exact ⟨_, rfl, depth_record_lt hn (by simp [hn, ConnectionKind.depth_toJson])⟩

theorem Snapshot.writable_ofJson? : Writable ofJson? toJson? := by
  intro levels j s _ h
  obtain ⟨n, f, rfl, hn, h⟩ := record_eq_some h
  simp only [Option.bind_eq_bind, Option.bind_eq_some_iff, Option.some.injEq] at h
  obtain ⟨nodes, hnodes, connections, hconnections, rfl⟩ := h
  obtain ⟨_, hnodes⟩ := require_eq_some hnodes
  obtain ⟨m, rfl, hm, hnodes⟩ := list_eq_some hnodes
  obtain ⟨_, hconnections⟩ := require_eq_some hconnections
  obtain ⟨m', hm', -, hconnections⟩ := list_eq_some hconnections
  obtain rfl : m = m' := Nat.succ.inj hm'
  have hwriteNodes : ∀ r ∈ nodes, ∃ j, r.toJson? = some j ∧ j.depth < m := by
    intro r hr
    obtain ⟨j, hj⟩ := hnodes r hr
    exact NodeRecord.writable_ofJson? hm hj
  have hwriteConnections : ∀ v ∈ connections.map (·.toJson), v.depth < m := by
    refine List.forall_mem_map.2 fun r hr => ?_
    obtain ⟨j, hj⟩ := hconnections r hr
    obtain ⟨j', hj', hdepth⟩ := ConnectionRecord.writable_ofJson? hm hj
    obtain rfl := Option.some.inj hj'
    exact hdepth
  obtain ⟨js, hjs, hdepth⟩ := mapM_eq_some hwriteNodes
  refine ⟨_, by rw [toJson?, hjs]; rfl, depth_record_lt hn ?_⟩
  simp only [List.forall_mem_cons, List.not_mem_nil, false_implies, implies_true, and_true]
  exact ⟨Nat.succ_lt_succ (itemsDepth_lt hm hdepth),
    Nat.succ_lt_succ (itemsDepth_lt hm hwriteConnections)⟩

/-- A snapshot that was read from a text can be written, and nests containers to the limit at
most. -/
theorem Snapshot.writable_of_ofJsonText {text : String} {s : Snapshot}
    (h : Snapshot.ofJsonText text = .ok s) : ∃ j, s.toJson? = some j ∧ j.depth ≤ depthLimit := by
  unfold ofJsonText at h
  split at h
  next s' hread =>
    obtain rfl := Except.ok.inj h
    obtain ⟨j, -, hread⟩ := Option.bind_eq_some_iff.1 hread
    obtain ⟨j', hj', hdepth⟩ := Snapshot.writable_ofJson? (by decide) hread
    exact ⟨j', hj', Nat.le_of_lt_succ hdepth⟩
  next => simp at h

/-! ## Bytes -/

namespace ByteReader

theorem read_of_mem_times {α : Type} {reader : ByteReader α} {count : Nat} {bs rest : Bytes}
    {as : List α} (h : times reader count bs = some (as, rest)) :
    ∀ a ∈ as, ∃ bs rest, reader bs = some (a, rest) := by
  induction count generalizing bs as rest with
  | zero =>
    simp only [times, Option.some.injEq, Prod.mk.injEq] at h
    simp [← h.1]
  | succ count ih =>
    simp only [times, Option.bind_eq_bind, Option.bind_eq_some_iff, Option.some.injEq,
      Prod.mk.injEq, Prod.exists] at h
    obtain ⟨a, after, ha, as, after', has, rfl, -⟩ := h
    exact List.forall_mem_cons.2 ⟨⟨bs, after, ha⟩, ih has⟩

theorem read_of_mem_list {α : Type} {reader : ByteReader α} {bs rest : Bytes} {as : List α}
    (h : list reader bs = some (as, rest)) : ∀ a ∈ as, ∃ bs rest, reader bs = some (a, rest) := by
  simp only [list, Option.bind_eq_bind, Option.bind_eq_some_iff, Prod.exists] at h
  obtain ⟨count, after, -, h⟩ := h
  exact read_of_mem_times h

end ByteReader

open ByteReader

theorem Value.not_holdsForeign_of_ofBytes? {bound : Nat} {bs rest : Bytes} {v : Value}
    (h : ofBytes? bound bs = some (v, rest)) : ¬v.HoldsForeign := by
  induction bound generalizing bs rest v with
  | zero => simp [ofBytes?] at h
  | succ bound ih =>
    simp only [ofBytes?, Option.bind_eq_bind, Option.bind_eq_some_iff, Prod.exists] at h
    obtain ⟨tag, after, -, h⟩ := h
    split at h
    · simp only [Option.some.injEq, Prod.mk.injEq] at h
      obtain ⟨rfl, -⟩ := h
      rintro ⟨⟩
    iterate 7
      split at h
      · simp only [Option.map_eq_some_iff, Prod.mk.injEq] at h
        obtain ⟨p, -, rfl, -⟩ := h
        rintro ⟨⟩
    split at h
    · simp only [Option.map_eq_some_iff, Prod.mk.injEq] at h
      obtain ⟨⟨items, after'⟩, hitems, rfl, -⟩ := h
      rintro (_ | ⟨hv, hforeign⟩)
      obtain ⟨bs', rest', hread⟩ := read_of_mem_list hitems _ hv
      exact ih hread hforeign
    · simp at h

theorem Table.mem_of_mem_ofList {κ α : Type} [DecidableEq κ] [KeyOrder κ] {es : List (κ × α)}
    {e : κ × α} (h : e ∈ (Table.ofList es).entries) : e ∈ es := by
  suffices ∀ t : Table κ α, e ∈ (es.foldl (fun t e => t.insert e.1 e.2) t).entries →
      e ∈ t.entries ∨ e ∈ es by
    simpa [Table.empty] using this .empty h
  clear h
  induction es with
  | nil => exact fun t h => .inl h
  | cons e' es ih =>
    intro t h
    rcases ih _ h with h | h
    · rcases mem_insertEntry h with rfl | h
      · exact .inr List.mem_cons_self
      · exact .inl h
    · exact .inr (List.mem_cons_of_mem e' h)

theorem not_holdsForeign_of_valuesOfBytes? {bs rest : Bytes} {t : Table String Value}
    (h : valuesOfBytes? bs = some (t, rest)) : ∀ e ∈ t.entries, ¬e.2.HoldsForeign := by
  simp only [valuesOfBytes?, Option.map_eq_some_iff, Prod.mk.injEq] at h
  obtain ⟨⟨es, after⟩, hes, rfl, -⟩ := h
  intro e he
  obtain ⟨bs', rest', hread⟩ := read_of_mem_list hes e (Table.mem_of_mem_ofList he)
  simp only [entryOfBytes?, Option.bind_eq_bind, Option.bind_eq_some_iff, Option.some.injEq,
    Prod.exists, Prod.mk.injEq] at hread
  obtain ⟨k, after', -, v, after'', hv, rfl, -⟩ := hread
  exact Value.not_holdsForeign_of_ofBytes? hv

/-- A snapshot that was read from bytes can be written. -/
theorem Snapshot.not_holdsForeign_of_decode {bs : Bytes} {s : Snapshot}
    (h : Snapshot.decode bs = .ok s) : ¬s.HoldsForeign := by
  unfold decode at h
  split at h
  next s' after hread =>
    obtain rfl := Except.ok.inj h
    simp only [ofBytes?, Option.bind_eq_bind, Option.bind_eq_some_iff, Option.some.injEq,
      Prod.exists, Prod.mk.injEq] at hread
    obtain ⟨nodes, afterNodes, hnodes, connections, afterConnections, -, rfl, -⟩ := hread
    rintro ⟨r, hr, e, he, hforeign⟩
    obtain ⟨bs', rest', hread⟩ := read_of_mem_list hnodes r hr
    simp only [NodeRecord.ofBytes?, Option.bind_eq_bind, Option.bind_eq_some_iff,
      Option.some.injEq, Prod.exists, Prod.mk.injEq] at hread
    obtain ⟨id, _, -, position, _, -, kind, _, -, consts, _, hconsts, defaults, _, hdefaults,
      rfl, -⟩ := hread
    rcases he with he | he
    · exact not_holdsForeign_of_valuesOfBytes? hconsts e he hforeign
    · exact not_holdsForeign_of_valuesOfBytes? hdefaults e he hforeign
  next => simp at h

end EffectGraph
