import EffectGraph.Bytes.Snapshots
import EffectGraph.Proofs.Keys
import EffectGraph.Proofs.Varints

/-!
# Reading back snapshots

The binary form of stored graphs and stored definitions is read back exactly, whatever bytes come
after it, and is refused only for a foreign object.

Each lemma follows one level of the data: a value with the values nested in it, an entry, a table, a
node, a graph, a definition. The one condition is that the whole form has fewer than `2 ^ 64` bytes,
as every list of bytes in memory has. It bounds the length of each string and sequence in it,
because each of their elements takes at least a byte.
-/

namespace EffectGraph

open Bytes ByteReader

/-! ## Foreign objects -/

/-- Whether a foreign object occurs in a value, at any depth of its arrays. -/
inductive Value.HoldsForeign : Value → Prop where
  | foreign (object : ForeignObject) : HoldsForeign (.foreign object)
  | item {items : List Value} {v : Value} (hv : v ∈ items) (h : HoldsForeign v) :
      HoldsForeign (.array items)

/-- Whether a foreign object occurs in a constant or a default of a stored node. -/
def Snapshot.HoldsForeign (s : Snapshot) : Prop :=
  ∃ r ∈ s.nodes, ∃ e, (e ∈ r.consts.entries ∨ e ∈ r.defaults.entries) ∧ e.2.HoldsForeign

def DefinitionRecord.HoldsForeign (r : DefinitionRecord) : Prop := r.graph.HoldsForeign

theorem Value.holdsForeign_array {items : List Value} :
    (Value.array items).HoldsForeign ↔ ∃ v ∈ items, v.HoldsForeign := by
  constructor
  · rintro (_ | ⟨hv, h⟩)
    exact ⟨_, hv, h⟩
  · rintro ⟨v, hv, h⟩
    exact .item hv h

mutual

theorem Value.toBytes?_eq_none : ∀ v : Value, v.toBytes? = none ↔ v.HoldsForeign
  | .null | .bool _ | .int _ | .float _ | .string _ | .card _ | .buff _ | .player _ => by
    simp only [Value.toBytes?, reduceCtorEq, false_iff]
    nofun
  | .foreign o => by simp [Value.toBytes?, Value.HoldsForeign.foreign o]
  | .array items => by
    rw [Value.toBytes?, Option.map_eq_none_iff, Value.allToBytes?_eq_none items,
      Value.holdsForeign_array]

theorem Value.allToBytes?_eq_none :
    ∀ vs : List Value, Value.allToBytes? vs = none ↔ ∃ v ∈ vs, v.HoldsForeign
  | [] => by simp [Value.allToBytes?]
  | v :: vs => by
    rw [Value.allToBytes?, List.exists_mem_cons_iff, ← Value.toBytes?_eq_none v,
      ← Value.allToBytes?_eq_none vs]
    cases v.toBytes? <;> cases Value.allToBytes? vs <;> simp

end

theorem entriesToBytes?_eq_none (es : List (String × Value)) :
    entriesToBytes? es = none ↔ ∃ e ∈ es, e.2.HoldsForeign := by
  induction es with
  | nil => simp [entriesToBytes?]
  | cons e es ih =>
    rw [entriesToBytes?, List.exists_mem_cons_iff, ← Value.toBytes?_eq_none, ← ih]
    cases e.2.toBytes? <;> cases entriesToBytes? es <;> simp

theorem valuesToBytes?_eq_none (t : Table String Value) :
    valuesToBytes? t = none ↔ ∃ e ∈ t.entries, e.2.HoldsForeign := by
  rw [valuesToBytes?, Option.map_eq_none_iff, entriesToBytes?_eq_none]

theorem NodeRecord.toBytes?_eq_none (r : NodeRecord) :
    r.toBytes? = none ↔
      ∃ e, (e ∈ r.consts.entries ∨ e ∈ r.defaults.entries) ∧ e.2.HoldsForeign := by
  have hsplit : (∃ e, (e ∈ r.consts.entries ∨ e ∈ r.defaults.entries) ∧ e.2.HoldsForeign) ↔
      (∃ e ∈ r.consts.entries, e.2.HoldsForeign) ∨ ∃ e ∈ r.defaults.entries, e.2.HoldsForeign := by
    simp only [or_and_right, exists_or]
  rw [hsplit, ← valuesToBytes?_eq_none, ← valuesToBytes?_eq_none, NodeRecord.toBytes?]
  cases valuesToBytes? r.consts <;> cases valuesToBytes? r.defaults <;> simp

theorem nodesToBytes?_eq_none (rs : List NodeRecord) :
    nodesToBytes? rs = none ↔ ∃ r ∈ rs, r.toBytes? = none := by
  induction rs with
  | nil => simp [nodesToBytes?]
  | cons r rs ih =>
    rw [nodesToBytes?, List.exists_mem_cons_iff, ← ih]
    cases r.toBytes? <;> cases nodesToBytes? rs <;> simp

theorem Snapshot.toBytes?_eq_none (s : Snapshot) : s.toBytes? = none ↔ s.HoldsForeign := by
  rw [Snapshot.toBytes?, Option.map_eq_none_iff, nodesToBytes?_eq_none, Snapshot.HoldsForeign]
  simp only [NodeRecord.toBytes?_eq_none]

theorem DefinitionRecord.toBytes?_eq_none (r : DefinitionRecord) :
    r.toBytes? = none ↔ r.HoldsForeign := by
  rw [DefinitionRecord.toBytes?, Option.map_eq_none_iff, Snapshot.toBytes?_eq_none,
    DefinitionRecord.HoldsForeign]

/-! ## Values and types -/

/-- The number of an alternative is read by the width of such numbers. -/
theorem nat_tag {tag : Nat} (h : tag < 251) (rest : Bytes) :
    nat 4 (writeNat tag ++ rest) = some (tag, rest) :=
  nat4_writeNat (Nat.lt_trans h (by decide)) rest

namespace Value

theorem length_toBytes?_pos {v : Value} {bs : Bytes} (h : v.toBytes? = some bs) :
    0 < bs.length := by
  cases v <;> simp only [toBytes?, Option.some.injEq, Option.map_eq_some_iff, reduceCtorEq] at h
  case array =>
    obtain ⟨content, -, rfl⟩ := h
    simp [length_writeNat_pos]
  all_goals
    subst h
    simp [length_writeNat_pos]

theorem allToBytes?_cons {v : Value} {vs : List Value} {bs : Bytes}
    (h : allToBytes? (v :: vs) = some bs) :
    ∃ head tail, v.toBytes? = some head ∧ allToBytes? vs = some tail ∧ bs = head ++ tail := by
  simp only [allToBytes?, Option.bind_eq_bind, Option.bind_eq_some_iff, Option.some.injEq] at h
  obtain ⟨head, hhead, tail, htail, rfl⟩ := h
  exact ⟨head, tail, hhead, htail, rfl⟩

theorem length_le_length_allToBytes? {vs : List Value} {bs : Bytes}
    (h : allToBytes? vs = some bs) : vs.length ≤ bs.length := by
  induction vs generalizing bs with
  | nil => exact Nat.zero_le _
  | cons v vs ih =>
    obtain ⟨head, tail, hhead, htail, rfl⟩ := allToBytes?_cons h
    have hpos := length_toBytes?_pos hhead
    have htail := ih htail
    rw [List.length_cons, List.length_append]
    omega

mutual

/-- A bound on the nesting that is no less than the number of bytes is enough: every array takes the
byte of its tag. -/
theorem ofBytes?_toBytes? : ∀ {v : Value} {bs : Bytes} (bound : Nat), v.toBytes? = some bs →
    bs.length ≤ bound → bs.length < UInt64.size →
    ∀ rest, ofBytes? bound (bs ++ rest) = some (v, rest)
  | v, bs, 0, h, hbound, _, _ => absurd (length_toBytes?_pos h) (Nat.not_lt.2 hbound)
  | .array items, bs, bound + 1, h, hbound, hsize, rest => by
    obtain ⟨content, hcontent, rfl⟩ := Option.map_eq_some_iff.1 h
    have htag := length_writeNat_pos 8
    have hcount := length_le_length_allToBytes? hcontent
    simp only [List.length_append] at hbound hsize
    have hitems := list_of_times (by omega)
      (times_allToBytes? bound hcontent (by omega) (by omega))
    simp [ofBytes?, nat_tag, hitems]
  | .null, bs, bound + 1, h, _, _, rest => by
    obtain rfl := Option.some.inj h
    simp [ofBytes?, nat_tag]
  | .bool b, bs, bound + 1, h, _, _, rest => by
    obtain rfl := Option.some.inj h
    simp [ofBytes?, nat_tag, bool_writeBool]
  | .int i, bs, bound + 1, h, _, _, rest => by
    obtain rfl := Option.some.inj h
    simp [ofBytes?, nat_tag, int64_writeInt]
  | .float x, bs, bound + 1, h, _, _, rest => by
    obtain rfl := Option.some.inj h
    have hbits : x.bits.toNat < 256 ^ 8 := x.bits.toNat_lt
    simp [ofBytes?, nat_tag, fixed_ofNat hbits]
  | .string s, bs, bound + 1, h, _, hsize, rest => by
    obtain rfl := Option.some.inj h
    rw [List.length_append] at hsize
    simp [ofBytes?, nat_tag, string_writeString (s := s) (by omega)]
  | .card id, bs, bound + 1, h, _, _, rest => by
    obtain rfl := Option.some.inj h
    simp [ofBytes?, nat_tag, uint64_writeNat]
  | .buff id, bs, bound + 1, h, _, _, rest => by
    obtain rfl := Option.some.inj h
    simp [ofBytes?, nat_tag, uint64_writeNat]
  | .player id, bs, bound + 1, h, _, _, rest => by
    obtain rfl := Option.some.inj h
    simp [ofBytes?, nat_tag, uint64_writeNat]

theorem times_allToBytes? : ∀ {vs : List Value} {bs : Bytes} (bound : Nat),
    allToBytes? vs = some bs → bs.length ≤ bound → bs.length < UInt64.size →
    ∀ rest, times (ofBytes? bound) vs.length (bs ++ rest) = some (vs, rest)
  | [], bs, bound, h, _, _, rest => by
    obtain rfl := Option.some.inj h
    rfl
  | v :: vs, bs, bound, h, hbound, hsize, rest => by
    obtain ⟨head, tail, hhead, htail, rfl⟩ := allToBytes?_cons h
    rw [List.length_append] at hbound hsize
    have hv := ofBytes?_toBytes? bound hhead (by omega) (by omega)
    have hvs := times_allToBytes? bound htail (by omega) (by omega)
    simp [times, hv, hvs]

end

end Value

namespace ValueType

theorem length_toBytes_pos (t : ValueType) : 0 < t.toBytes.length := by
  cases t <;> simp [toBytes, length_writeNat_pos]

theorem ofBytes?_toBytes {t : ValueType} (bound : Nat) (hbound : t.toBytes.length ≤ bound)
    (hsize : t.toBytes.length < UInt64.size) (rest : Bytes) :
    ofBytes? bound (t.toBytes ++ rest) = some (t, rest) := by
  induction t generalizing bound with
  | array e ih =>
    have htag := length_writeNat_pos 9
    rw [toBytes, List.length_append] at hbound hsize
    obtain ⟨bound, rfl⟩ := Nat.exists_eq_add_one_of_ne_zero (show bound ≠ 0 by omega)
    simp [ofBytes?, toBytes, nat_tag, ih bound (by omega) (by omega)]
  | object name =>
    have htag := length_writeNat_pos 8
    rw [toBytes, List.length_append] at hbound hsize
    obtain ⟨bound, rfl⟩ := Nat.exists_eq_add_one_of_ne_zero (show bound ≠ 0 by omega)
    simp [ofBytes?, toBytes, nat_tag, string_writeString (s := name) (by omega)]
  | _ =>
    obtain ⟨bound, rfl⟩ := Nat.exists_eq_add_one_of_ne_zero
      (show bound ≠ 0 from (Nat.lt_of_lt_of_le (length_toBytes_pos _) hbound).ne')
    simp [ofBytes?, toBytes, nat_tag]

end ValueType

theorem PortDecl.length_toBytes_pos (d : PortDecl) : 0 < d.toBytes.length := by
  have := d.type.length_toBytes_pos
  simp only [PortDecl.toBytes, List.length_append]
  omega

theorem PortDecl.ofBytes?_toBytes {d : PortDecl} (hsize : d.toBytes.length < UInt64.size)
    (rest : Bytes) : PortDecl.ofBytes? (d.toBytes ++ rest) = some (d, rest) := by
  simp only [PortDecl.toBytes, List.length_append] at hsize
  simp only [PortDecl.ofBytes?, PortDecl.toBytes, List.append_assoc]
  rw [ValueType.ofBytes?_toBytes _ (List.length_append ▸ Nat.le_add_right _ _) (by omega)]
  simp [string_writeString (s := d.name) (by omega),
    string_writeString (s := d.displayName) (by omega), bool_writeBool]

/-! ## Tables of values -/

theorem entriesToBytes?_cons {e : String × Value} {es : List (String × Value)} {bs : Bytes}
    (h : entriesToBytes? (e :: es) = some bs) :
    ∃ head tail, e.2.toBytes? = some head ∧ entriesToBytes? es = some tail ∧
      bs = writeString e.1 ++ (head ++ tail) := by
  simp only [entriesToBytes?, Option.bind_eq_bind, Option.bind_eq_some_iff, Option.some.injEq] at h
  obtain ⟨head, hhead, tail, htail, rfl⟩ := h
  exact ⟨head, tail, hhead, htail, List.append_assoc ..⟩

theorem length_le_length_entriesToBytes? {es : List (String × Value)} {bs : Bytes}
    (h : entriesToBytes? es = some bs) : es.length ≤ bs.length := by
  induction es generalizing bs with
  | nil => exact Nat.zero_le _
  | cons e es ih =>
    obtain ⟨head, tail, -, htail, rfl⟩ := entriesToBytes?_cons h
    have hpos := length_writeString_pos e.1
    have htail := ih htail
    simp only [List.length_cons, List.length_append]
    omega

theorem times_entriesToBytes? {es : List (String × Value)} {bs : Bytes}
    (h : entriesToBytes? es = some bs) (hsize : bs.length < UInt64.size) (rest : Bytes) :
    times entryOfBytes? es.length (bs ++ rest) = some (es, rest) := by
  induction es generalizing bs with
  | nil =>
    obtain rfl := Option.some.inj h
    rfl
  | cons e es ih =>
    obtain ⟨head, tail, hhead, htail, rfl⟩ := entriesToBytes?_cons h
    simp only [List.length_append] at hsize
    have hkey := string_writeString (s := e.1) (by omega)
    have hvalue := Value.ofBytes?_toBytes? (head ++ (tail ++ rest)).length hhead
      (List.length_append ▸ Nat.le_add_right _ _) (by omega)
    simp only [List.length_cons, times, entryOfBytes?, List.append_assoc, hkey, hvalue,
      ih htail (by omega), Option.bind_eq_bind, Option.bind_some]

theorem valuesOfBytes?_valuesToBytes? {t : Table String Value} {bs : Bytes}
    (h : valuesToBytes? t = some bs) (hsize : bs.length < UInt64.size) (rest : Bytes) :
    valuesOfBytes? (bs ++ rest) = some (t, rest) := by
  obtain ⟨content, hcontent, rfl⟩ := Option.map_eq_some_iff.1 h
  have hcount := length_le_length_entriesToBytes? hcontent
  rw [List.length_append] at hsize
  have hentries := list_of_times (by omega) (times_entriesToBytes? hcontent (by omega)) rest
  rw [valuesOfBytes?, List.append_assoc, Table.size, hentries, Option.map_some,
    Table.ofList_of_perm (.refl t.entries)]

/-! ## Nodes and connections -/

theorem Position.ofBytes?_toBytes (p : Position) (rest : Bytes) :
    Position.ofBytes? (p.toBytes ++ rest) = some (p, rest) := by
  have hx : p.x.bits.toNat < 256 ^ 4 := p.x.bits.toNat_lt
  have hy : p.y.bits.toNat < 256 ^ 4 := p.y.bits.toNat_lt
  simp [Position.ofBytes?, Position.toBytes, fixed_ofNat hx, fixed_ofNat hy]

theorem StoredKind.ofBytes?_toBytes {k : StoredKind} (hsize : k.toBytes.length < UInt64.size)
    (rest : Bytes) : StoredKind.ofBytes? (k.toBytes ++ rest) = some (k, rest) := by
  cases k with
  | action define =>
    rw [StoredKind.toBytes, List.length_append] at hsize
    simp [StoredKind.ofBytes?, StoredKind.toBytes, nat_tag,
      string_writeString (s := define) (by omega)]
  | entry => simp [StoredKind.ofBytes?, StoredKind.toBytes, nat_tag]
  | result => simp [StoredKind.ofBytes?, StoredKind.toBytes, nat_tag]

theorem ConnectionKind.ofBytes?_toBytes (k : ConnectionKind) (rest : Bytes) :
    ConnectionKind.ofBytes? (k.toBytes ++ rest) = some (k, rest) := by
  cases k <;> simp [ConnectionKind.ofBytes?, ConnectionKind.toBytes, nat_tag]

theorem ConnectionRecord.length_toBytes_pos (r : ConnectionRecord) : 0 < r.toBytes.length := by
  have := length_writeNat_pos r.sourceNode.toNat
  simp only [ConnectionRecord.toBytes, List.length_append]
  omega

theorem ConnectionRecord.ofBytes?_toBytes {r : ConnectionRecord}
    (hsize : r.toBytes.length < UInt64.size) (rest : Bytes) :
    ConnectionRecord.ofBytes? (r.toBytes ++ rest) = some (r, rest) := by
  simp only [ConnectionRecord.toBytes, List.length_append] at hsize
  simp [ConnectionRecord.ofBytes?, ConnectionRecord.toBytes, uint32_writeNat,
    string_writeString (s := r.sourcePort) (by omega),
    string_writeString (s := r.destPort) (by omega), ConnectionKind.ofBytes?_toBytes]

theorem NodeRecord.toBytes?_eq_some {r : NodeRecord} {bs : Bytes} (h : r.toBytes? = some bs) :
    ∃ consts defaults, valuesToBytes? r.consts = some consts ∧
      valuesToBytes? r.defaults = some defaults ∧
      bs = writeNat r.id.toNat ++ r.position.toBytes ++ r.kind.toBytes ++ consts ++ defaults := by
  simp only [NodeRecord.toBytes?, Option.bind_eq_bind, Option.bind_eq_some_iff,
    Option.some.injEq] at h
  obtain ⟨consts, hconsts, defaults, hdefaults, rfl⟩ := h
  exact ⟨consts, defaults, hconsts, hdefaults, rfl⟩

theorem NodeRecord.ofBytes?_toBytes? {r : NodeRecord} {bs : Bytes} (h : r.toBytes? = some bs)
    (hsize : bs.length < UInt64.size) (rest : Bytes) :
    NodeRecord.ofBytes? (bs ++ rest) = some (r, rest) := by
  obtain ⟨consts, defaults, hconsts, hdefaults, rfl⟩ := NodeRecord.toBytes?_eq_some h
  simp only [List.length_append] at hsize
  simp [NodeRecord.ofBytes?, uint32_writeNat, Position.ofBytes?_toBytes,
    StoredKind.ofBytes?_toBytes (k := r.kind) (by omega),
    valuesOfBytes?_valuesToBytes? hconsts (by omega),
    valuesOfBytes?_valuesToBytes? hdefaults (by omega)]

theorem nodesToBytes?_cons {r : NodeRecord} {rs : List NodeRecord} {bs : Bytes}
    (h : nodesToBytes? (r :: rs) = some bs) :
    ∃ head tail, r.toBytes? = some head ∧ nodesToBytes? rs = some tail ∧ bs = head ++ tail := by
  simp only [nodesToBytes?, Option.bind_eq_bind, Option.bind_eq_some_iff, Option.some.injEq] at h
  obtain ⟨head, hhead, tail, htail, rfl⟩ := h
  exact ⟨head, tail, hhead, htail, rfl⟩

theorem length_le_length_nodesToBytes? {rs : List NodeRecord} {bs : Bytes}
    (h : nodesToBytes? rs = some bs) : rs.length ≤ bs.length := by
  induction rs generalizing bs with
  | nil => exact Nat.zero_le _
  | cons r rs ih =>
    obtain ⟨head, tail, hhead, htail, rfl⟩ := nodesToBytes?_cons h
    obtain ⟨consts, defaults, -, -, rfl⟩ := NodeRecord.toBytes?_eq_some hhead
    have hpos := length_writeNat_pos r.id.toNat
    have htail := ih htail
    simp only [List.length_cons, List.length_append]
    omega

theorem times_nodesToBytes? {rs : List NodeRecord} {bs : Bytes} (h : nodesToBytes? rs = some bs)
    (hsize : bs.length < UInt64.size) (rest : Bytes) :
    times NodeRecord.ofBytes? rs.length (bs ++ rest) = some (rs, rest) := by
  induction rs generalizing bs with
  | nil =>
    obtain rfl := Option.some.inj h
    rfl
  | cons r rs ih =>
    obtain ⟨head, tail, hhead, htail, rfl⟩ := nodesToBytes?_cons h
    rw [List.length_append] at hsize
    simp [times, NodeRecord.ofBytes?_toBytes? hhead (by omega), ih htail (by omega)]

/-! ## Graphs and definitions -/

theorem Snapshot.ofBytes?_toBytes? {s : Snapshot} {bs : Bytes} (h : s.toBytes? = some bs)
    (hsize : bs.length < UInt64.size) (rest : Bytes) :
    Snapshot.ofBytes? (bs ++ rest) = some (s, rest) := by
  obtain ⟨nodes, hnodes, rfl⟩ := Option.map_eq_some_iff.1 h
  have hcount := length_le_length_nodesToBytes? hnodes
  simp only [List.length_append] at hsize
  have hread := list_of_times (by omega) (times_nodesToBytes? hnodes (by omega))
  have hconnections : ∀ rest, list ConnectionRecord.ofBytes?
      (writeList ConnectionRecord.toBytes s.connections ++ rest) = some (s.connections, rest) :=
    list_writeList ConnectionRecord.length_toBytes_pos (by omega) fun _ =>
      ConnectionRecord.ofBytes?_toBytes
  simp [Snapshot.ofBytes?, hread, hconnections]

theorem DefinitionRecord.ofBytes?_toBytes? {r : DefinitionRecord} {bs : Bytes}
    (h : r.toBytes? = some bs) (hsize : bs.length < UInt64.size) (rest : Bytes) :
    DefinitionRecord.ofBytes? (bs ++ rest) = some (r, rest) := by
  obtain ⟨graph, hgraph, rfl⟩ := Option.map_eq_some_iff.1 h
  simp only [List.length_append] at hsize
  have hnames : ∀ rest, list string (writeList writeString r.obsoleteNames ++ rest) =
      some (r.obsoleteNames, rest) :=
    list_writeList length_writeString_pos (by omega) fun _ => string_writeString
  have hports (ds : List PortDecl) (hds : (writeList PortDecl.toBytes ds).length < UInt64.size) :
      ∀ rest, list PortDecl.ofBytes? (writeList PortDecl.toBytes ds ++ rest) = some (ds, rest) :=
    list_writeList PortDecl.length_toBytes_pos hds fun _ => PortDecl.ofBytes?_toBytes
  have hmessage : ∀ rest, optional string (writeOption writeString r.obsoleteMessage ++ rest) =
      some (r.obsoleteMessage, rest) := by
    refine optional_writeOption fun text htext => string_writeString ?_
    rw [Option.mem_def.1 htext, writeOption, List.length_cons] at hsize
    omega
  simp [DefinitionRecord.ofBytes?, string_writeString (s := r.name) (by omega), hnames, hmessage,
    hports r.inputs (by omega), hports r.consts (by omega),
    hports r.outputs (by omega), Snapshot.ofBytes?_toBytes? hgraph (by omega)]

/-! ## Whole encodings -/

/-- What makes a pair of functions a binary form: the writer refuses exactly what it has to, the
reader undoes it whatever bytes follow, and no form is the beginning of another. -/
structure BinaryForm {α : Type} (encode : α → Except GraphError Bytes)
    (decode : Bytes → Except GraphError α) (refused : α → Prop) : Prop where
  fails_iff : ∀ x, encode x = .error (.codec .writeBytes) ↔ refused x
  encodes_iff : ∀ x, (∃ bs, encode x = .ok bs) ↔ ¬refused x
  decode_append : ∀ {x bs}, encode x = .ok bs → bs.length < UInt64.size →
    ∀ rest, decode (bs ++ rest) = .ok x
  injective : ∀ {x y bs}, encode x = .ok bs → encode y = .ok bs → bs.length < UInt64.size → x = y
  prefix_free : ∀ {x y bs cs}, encode x = .ok bs → encode y = .ok cs → cs.length < UInt64.size →
    bs <+: cs → x = y ∧ bs = cs

/-- A writer and a reader that undoes it make a binary form. -/
theorem BinaryForm.of_reader {α : Type} {encode : α → Except GraphError Bytes}
    {decode : Bytes → Except GraphError α} {refused : α → Prop} {write? : α → Option Bytes}
    {read : ByteReader α}
    (hencode : ∀ x, encode x = match write? x with
      | some bs => .ok bs
      | none => .error (.codec .writeBytes))
    (hdecode : ∀ {bs x rest}, read bs = some (x, rest) → decode bs = .ok x)
    (hrefused : ∀ x, write? x = none ↔ refused x)
    (hread : ∀ {x bs}, write? x = some bs → bs.length < UInt64.size →
      ∀ rest, read (bs ++ rest) = some (x, rest)) :
    BinaryForm encode decode refused := by
  have hwritten {x bs} : encode x = .ok bs ↔ write? x = some bs := by
    rw [hencode]
    cases write? x <;> simp
  have hround {x bs} (hx : encode x = .ok bs) (hsize : bs.length < UInt64.size) (rest : Bytes) :
      decode (bs ++ rest) = .ok x :=
    hdecode (hread (hwritten.1 hx) hsize rest)
  have hbegins {x y bs cs} (hx : encode x = .ok bs) (hy : encode y = .ok cs)
      (hsize : cs.length < UInt64.size) (hle : bs <+: cs) : x = y ∧ bs = cs := by
    obtain ⟨rest, rfl⟩ := hle
    rw [List.length_append] at hsize
    -- The reader takes the first form off the second, and the second as a whole.
    have htakes := hread (hwritten.1 hx) (by omega) rest
    have hwhole := hread (hwritten.1 hy) (by simpa using hsize) []
    rw [List.append_nil, htakes] at hwhole
    obtain ⟨rfl, rfl⟩ := Prod.mk.inj (Option.some.inj hwhole)
    exact ⟨rfl, (List.append_nil bs).symm⟩
  refine ⟨fun x => ?_, fun x => ?_, hround, fun hx hy hsize => ?_, hbegins⟩
  · rw [← hrefused, hencode]
    cases write? x <;> simp
  · rw [← hrefused, hencode]
    cases write? x <;> simp
  · exact (hbegins hx hy hsize (List.prefix_refl _)).1

/-- Stored graphs and stored definitions are written unless they hold a foreign object, and are read
back from their bytes exactly, whatever bytes come after them; no encoding begins another. Unsigned
integers are written in their one form, and signed ones are folded by turns. -/
theorem binaryForm_snapshot_definition :
    BinaryForm Snapshot.encode Snapshot.decode Snapshot.HoldsForeign ∧
    BinaryForm DefinitionRecord.encode DefinitionRecord.decode DefinitionRecord.HoldsForeign ∧
    (∀ bs n, Varint bs n ↔ n < UInt64.size ∧ bs = writeNat n) ∧
    ∀ n : Int, (fold n : Int) = if n < 0 then -2 * n - 1 else 2 * n := by
  refine ⟨?_, ?_, fun _ _ => varint_iff, fold_eq⟩
  · refine .of_reader (fun _ => rfl) (fun h => ?_) Snapshot.toBytes?_eq_none
      Snapshot.ofBytes?_toBytes?
    rw [Snapshot.decode, h]
  · refine .of_reader (fun _ => rfl) (fun h => ?_) DefinitionRecord.toBytes?_eq_none
      DefinitionRecord.ofBytes?_toBytes?
    rw [DefinitionRecord.decode, h]

/-- A stored definition with nested types and arrays, two NaNs, a negative zero, a name that takes
more bytes than characters, and integers at the ends of their ranges. -/
def gnarledRecord : DefinitionRecord where
  name := "étage"
  obsoleteNames := ["", "floor"]
  obsoleteMessage := some "renamed"
  inputs := [⟨.array (.array (.object "Card")), "deck", "Deck", true, false⟩]
  consts := []
  outputs := [⟨.any, "exit", "", false, true⟩]
  graph :=
    { nodes := [
        { id := 4294967295
          position := ⟨⟨0x7fc00001⟩, ⟨0x80000000⟩⟩
          kind := .action "étage"
          consts := .ofList [("pairs", .array [.array [.int (-9223372036854775808), .null],
            .float ⟨0x7ff8000000000001⟩])]
          defaults := .ofList [("deck[0]", .card 65536)] }]
      connections := [⟨251, "exit", 65535, "enter", 4294967295, .control⟩] }

theorem gnarledRecord_read_back : ∃ bs, gnarledRecord.encode = .ok bs ∧ bs.length = 148 ∧
    DefinitionRecord.decode (bs ++ [251, 0]) = .ok gnarledRecord := by
  have hlength : gnarledRecord.encode.toOption.map List.length = some 148 := by decide +kernel
  obtain ⟨bs, hbs, hlength⟩ := Option.map_eq_some_iff.1 hlength
  have hencode : gnarledRecord.encode = .ok bs := by
    cases h : gnarledRecord.encode with
    | error e =>
      rw [h] at hbs
      cases hbs
    | ok written =>
      rw [h] at hbs
      rw [Option.some.inj hbs]
  have hsize : bs.length < UInt64.size := hlength ▸ by decide
  exact ⟨bs, hencode, hlength,
    binaryForm_snapshot_definition.2.1.decode_append hencode hsize [251, 0]⟩

end EffectGraph
