import EffectGraph.Proofs.Declared
import EffectGraph.Snapshot.Basic

/-!
# Records of connections

A connection is stored by the names of its ends. In a valid graph whose kinds are addressable the
names tell the ports of a node apart, so a record stands for one connection (`Described`), and
records exclude one another exactly if their connections do. Records are stored in order, and
records that stand in order are left as they are (`sortRecords_sortRecords`).
-/

namespace EffectGraph

open EffectGraph.Graph Snapshot

/-! ## The order of records -/

namespace ConnectionRecord

theorem compare_swap (a b : ConnectionRecord) : (a.compare b).swap = b.compare a := by
  have hnumber : ∀ x y : UInt32, (Ord.compare x y).swap = Ord.compare y x := fun _ _ =>
    Std.OrientedOrd.eq_swap.symm
  have htext : ∀ x y : String, (Ord.compare x y).swap = Ord.compare y x := fun _ _ =>
    Std.OrientedOrd.eq_swap.symm
  simp only [compare, Ordering.swap_then, hnumber, htext]
  cases a.kind <;> cases b.kind <;> rfl

theorem compare_asymm {a b : ConnectionRecord} (h : a.compare b = .lt) : b.compare a ≠ .lt := by
  rw [← compare_swap a b, h]
  decide

end ConnectionRecord

/-- No record of the list comes before the one that it follows. -/
def InOrder (rs : List ConnectionRecord) : Prop := rs.IsChain fun a b => b.compare a ≠ .lt

theorem perm_insertRecord (r : ConnectionRecord) (rs : List ConnectionRecord) :
    (insertRecord r rs).Perm (r :: rs) := by
  induction rs with
  | nil => exact .refl _
  | cons s ss ih =>
    rw [insertRecord]
    split
    · exact (ih.cons s).trans (.swap r s ss)
    · exact .refl _

theorem perm_sortRecords (rs : List ConnectionRecord) : (sortRecords rs).Perm rs := by
  induction rs with
  | nil => exact .refl _
  | cons r rs ih => exact (perm_insertRecord r _).trans (ih.cons r)

/-- The first record after an insertion is the new one or the old first one. -/
theorem head?_insertRecord (r : ConnectionRecord) (rs : List ConnectionRecord) :
    (insertRecord r rs).head? = some r ∨ (insertRecord r rs).head? = rs.head? := by
  cases rs with
  | nil => exact .inl rfl
  | cons s ss =>
    rw [insertRecord]
    split
    · exact .inr rfl
    · exact .inl rfl

theorem InOrder.insertRecord {rs : List ConnectionRecord} (h : InOrder rs) (r : ConnectionRecord) :
    InOrder (insertRecord r rs) := by
  induction rs with
  | nil => exact .singleton r
  | cons s ss ih =>
    rw [EffectGraph.insertRecord]
    split
    next hlt =>
      obtain ⟨hhead, htail⟩ := List.isChain_cons.1 h
      refine List.isChain_cons.2 ⟨fun t ht => ?_, ih htail⟩
      rcases head?_insertRecord r ss with he | he
      · obtain rfl : r = t := by simpa [he] using ht
        exact ConnectionRecord.compare_asymm hlt
      · exact hhead t (he ▸ ht)
    next hnlt =>
      refine List.isChain_cons.2 ⟨fun t ht => ?_, h⟩
      obtain rfl : s = t := by simpa using ht
      exact hnlt

theorem inOrder_sortRecords (rs : List ConnectionRecord) : InOrder (sortRecords rs) := by
  induction rs with
  | nil => exact .nil
  | cons r rs ih => exact ih.insertRecord r

theorem InOrder.sortRecords {rs : List ConnectionRecord} (h : InOrder rs) :
    sortRecords rs = rs := by
  induction rs with
  | nil => rfl
  | cons r rs ih =>
    obtain ⟨hhead, htail⟩ := List.isChain_cons.1 h
    have hrest : EffectGraph.sortRecords (r :: rs) = EffectGraph.insertRecord r rs :=
      congrArg (EffectGraph.insertRecord r) (ih htail)
    rw [hrest]
    cases rs with
    | nil => rfl
    | cons s ss => exact if_neg (hhead s rfl)

/-- Records that stand in order are left as they are. -/
theorem sortRecords_sortRecords (rs : List ConnectionRecord) :
    sortRecords (sortRecords rs) = sortRecords rs := (inOrder_sortRecords rs).sortRecords

/-! ## Ports by name -/

/-- The ports of a kind have different names on each side, those that every kind has included. -/
structure Signature.Addressable (s : Signature) : Prop where
  inputs : (enterName :: s.inputs.map (·.name)).Nodup
  outputs : (exitName :: s.outputs.map (·.name)).Nodup

theorem Signature.Addressable.distinct {s : Signature} (h : s.Addressable) : s.Distinct :=
  (List.nodup_cons.1 h.inputs).2

/-- The ports of a method kind have different names. -/
theorem define_addressable {m : MethodDecl} {d : Definition} (h : m.define = .ok d) :
    d.signature.Addressable := by
  obtain ⟨body, -, hcheck, rfl⟩ := define_eq_ok.1 h
  obtain ⟨hnodup, hfresh, -⟩ := checkParams_eq_ok.1 hcheck
  have hinput : ∀ p d, MethodParam.input? p = some d → d.name = p.name := by
    intro p d hp
    cases p <;> simp_all [MethodParam.input?, MethodParam.name]
  have houtput : ∀ p d, MethodParam.output? p = some d → d.name = p.name := by
    intro p d hp
    cases p <;> simp_all [MethodParam.output?, MethodParam.name]
  have hins := filterMap_name_sublist hinput m.params
  have houts := filterMap_name_sublist houtput m.params
  have hreserved : ∀ n ∈ m.params.map (·.name), n ∉ m.reservedNames := by
    intro n hn
    obtain ⟨p, hp, rfl⟩ := List.mem_map.1 hn
    exact hfresh p hp
  have henter : enterName ∈ m.reservedNames := by simp [MethodDecl.reservedNames]
  have hexit : exitName ∈ m.reservedNames := by simp [MethodDecl.reservedNames]
  refine ⟨List.nodup_cons.2 ⟨fun hn => hreserved _ (hins.subset hn) henter, hnodup.sublist hins⟩,
    ?_⟩
  simp only [MethodDecl.signature, List.map_append, MethodDecl.returnDecl?]
  cases hr : m.returns with
  | none =>
    simp only [Option.map_none, Option.toList_none, List.map_nil, List.append_nil]
    exact List.nodup_cons.2 ⟨fun hn => hreserved _ (houts.subset hn) hexit, hnodup.sublist houts⟩
  | some t =>
    -- The name of the return value is reserved, so no out parameter bears it.
    have hreturn : returnName ∈ m.reservedNames := by simp [MethodDecl.reservedNames, hr]
    refine List.nodup_cons.2 ⟨fun hn => ?_, List.nodup_append.2 ⟨hnodup.sublist houts, ?_, ?_⟩⟩
    · rcases List.mem_append.1 hn with hn | hn
      · exact hreserved _ (houts.subset hn) hexit
      · have he : exitName = returnName := List.mem_singleton.1 hn
        exact absurd he (by decide)
    · exact List.nodup_singleton _
    · intro a ha b hb hab
      obtain rfl : b = returnName := List.mem_singleton.1 hb
      exact hreserved _ (houts.subset (hab ▸ ha)) hreturn

variable {κ : Type} [HasSignature κ]

/-- The kind of the node is addressable. -/
def Node.Addressable (m : Node κ) : Prop :=
  ∃ k, m.kind = .action k ∧ (HasSignature.signature k).Addressable

/-- The ports of a node of the kind have different names on each side, in a graph that is owned by a
definition with the given signature. -/
def NodeKind.Addressable (owner : Option Signature) : NodeKind κ → Prop
  | .action k => (HasSignature.signature k).Addressable
  | .entry => (exitName :: (owner.elim [] fun s => s.inputs ++ s.consts).map (·.name)).Nodup
  | .result => (enterName :: (owner.elim [] (·.outputs)).map (·.name)).Nodup

theorem Node.Addressable.kind {m : Node κ} (h : m.Addressable) (owner : Option Signature) :
    m.kind.Addressable owner := by
  obtain ⟨k, hk, hs⟩ := h
  rw [hk]
  exact hs

namespace Graph

variable {g : Graph κ} {m : Node κ}

/-- All nodes have kinds whose ports are told apart by their names. -/
def Addressable (g : Graph κ) : Prop := ∀ m ∈ g.nodes, m.kind.Addressable g.signature

theorem addressable_of_nodes (h : ∀ m ∈ g.nodes, m.Addressable) : g.Addressable :=
  fun m hm => (h m hm).kind _

/-- The outputs of an action node are the exit and those that its kind declares. -/
theorem Shaped.decl_outputs (h : g.Shaped m) {k : κ} (hk : m.kind = .action k) :
    m.outputs.map (·.decl) = .control exitName :: (HasSignature.signature k).outputs := by
  have hdecls := congrArg (List.map PortSpec.decl) h.outputs
  simpa [wantedOutputs, hk, Port.spec, PortSpec.control, PortSpec.single,
    Function.comp_def] using hdecls

theorem Shaped.names_of_action (h : g.Shaped m) {k : κ} (hk : m.kind = .action k) :
    m.outputs.map (·.decl.name) =
      exitName :: (HasSignature.signature k).outputs.map (·.name) := by
  have hmap := congrArg (List.map PortDecl.name) (h.decl_outputs hk)
  rwa [List.map_map] at hmap

/-- They have different names if those that the kind declares do. -/
theorem Shaped.nodup_names (h : g.Shaped m) {k : κ} (hk : m.kind = .action k)
    (hnames : (exitName :: (HasSignature.signature k).outputs.map (·.name)).Nodup) :
    (m.outputs.map (·.decl.name)).Nodup := h.names_of_action hk ▸ hnames

omit [HasSignature κ] in
theorem name_packed (d : PortDecl) : d.packed.name = d.name := by
  unfold PortDecl.packed
  split <;> rfl

theorem Shaped.names_of_entry (h : g.Shaped m) (hk : m.kind = .entry) :
    m.outputs.map (·.decl.name) =
      exitName :: (g.signature.elim [] fun s => s.inputs ++ s.consts).map (·.name) := by
  have hspecs := congrArg (List.map fun s : PortSpec => s.decl.name) h.outputs
  rw [List.map_map] at hspecs
  refine hspecs.trans ?_
  rw [wantedOutputs, hk]
  cases g.signature <;> simp [PortSpec.control, PortSpec.single, PortDecl.control,
    Function.comp_def, name_packed]

theorem Shaped.nodup_outputs (h : g.Shaped m) (ha : m.kind.Addressable g.signature) :
    (m.outputs.map (·.decl.name)).Nodup := by
  cases hk : m.kind with
  | action k =>
    rw [hk] at ha
    exact h.nodup_names hk ha.outputs
  | entry =>
    rw [hk] at ha
    exact h.names_of_entry hk ▸ ha
  | result =>
    have hnone := h.outputs
    rw [wantedOutputs, hk] at hnone
    simp [List.map_eq_nil_iff.1 hnone]

/-- The slot key of a port that is wanted. -/
def specKey (s : PortSpec) : SlotKey := ⟨s.decl.name, s.slot⟩

theorem nodup_keys_slotSpecs (w : String → Nat) (d : PortDecl) :
    ((slotSpecs w d).map specKey).Nodup := by
  unfold slotSpecs
  split
  · rw [List.map_map]
    exact List.nodup_range.map fun i j hij => by simpa [specKey] using hij
  · simp

/-- The keys of the slots of declared inputs stand in blocks, one for each input. A group may share
the name of the control input, as its slots have places. -/
theorem nodup_keys_flatMap (w : String → Nat) {ds : List PortDecl}
    (hnames : (ds.map (·.name)).Nodup)
    (henter : ∀ d ∈ ds, d.isVariadic = false → d.name ≠ enterName) :
    (⟨enterName, none⟩ :: ds.flatMap fun d => (slotSpecs w d).map specKey).Nodup := by
  have hname : ∀ d, ∀ s ∈ slotSpecs w d, (specKey s).name = d.name := fun d s hmem => by
    rw [specKey, (mem_slotSpecs hmem).1]
  refine List.nodup_cons.2 ⟨fun hmem => ?_,
    List.nodup_flatMap.2 ⟨fun d _ => nodup_keys_slotSpecs w d, ?_⟩⟩
  · obtain ⟨d, hd, hmem⟩ := List.mem_flatMap.1 hmem
    obtain ⟨s, hsd, hkey⟩ := List.mem_map.1 hmem
    have hsingle : d.isVariadic = false := by
      by_contra hv
      rw [slotSpecs, if_pos (by simpa using hv)] at hsd
      obtain ⟨i, -, rfl⟩ := List.mem_map.1 hsd
      simp [specKey] at hkey
    exact henter d hd hsingle ((hname d s hsd).symm.trans (congrArg SlotKey.name hkey))
  -- Keys of two blocks differ in their names.
  · refine (List.pairwise_map.1 hnames).imp fun {a b} hab x hxa hxb => hab ?_
    obtain ⟨s, hsa, rfl⟩ := List.mem_map.1 hxa
    obtain ⟨t, htb, he⟩ := List.mem_map.1 hxb
    rw [← hname a s hsa, ← hname b t htb, he]

theorem Shaped.keys_of_action (h : g.Shaped m) {k : κ} (hk : m.kind = .action k) :
    ∃ w, m.inputs.map Port.key = ⟨enterName, none⟩ ::
      (HasSignature.signature k).inputs.flatMap fun d => (slotSpecs w d).map specKey := by
  obtain ⟨w, hw, -⟩ := h.inputs
  have hspecs : m.inputs.map Port.key = (g.inputShape m w).map specKey := by
    rw [← hw, List.map_map]
    rfl
  rw [hspecs, inputShape, hk, List.map_cons, List.map_flatMap]
  exact ⟨w, rfl⟩

theorem Shaped.keys_of_result (h : g.Shaped m) (hk : m.kind = .result) :
    m.inputs.map Port.key =
      (enterName :: (g.signature.elim [] (·.outputs)).map (·.name)).map fun n => ⟨n, none⟩ := by
  obtain ⟨w, hw, -⟩ := h.inputs
  have hspecs : m.inputs.map Port.key = (g.inputShape m w).map specKey := by
    rw [← hw, List.map_map]
    rfl
  rw [hspecs, inputShape, hk, List.map_cons, List.map_map, List.map_cons, List.map_map]
  rfl

/-- The inputs of an action node have different keys if those that its kind declares have different
names and a single one is not called like the control input. -/
theorem Shaped.nodup_keys (h : g.Shaped m) {k : κ} (hk : m.kind = .action k)
    (hnames : (HasSignature.signature k).Distinct)
    (henter : ∀ d ∈ (HasSignature.signature k).inputs, d.isVariadic = false → d.name ≠ enterName) :
    (m.inputs.map Port.key).Nodup := by
  obtain ⟨w, hw⟩ := h.keys_of_action hk
  exact hw ▸ nodup_keys_flatMap w hnames henter

theorem Shaped.nodup_inputs (h : g.Shaped m) (ha : m.kind.Addressable g.signature) :
    (m.inputs.map Port.key).Nodup := by
  cases hk : m.kind with
  | action k =>
    rw [hk] at ha
    obtain ⟨henter, hnames⟩ := List.nodup_cons.1 ha.inputs
    exact h.nodup_keys hk hnames fun d hd _ hname => henter (List.mem_map.2 ⟨d, hd, hname⟩)
  | entry =>
    obtain ⟨w, hw, -⟩ := h.inputs
    rw [inputShape, hk] at hw
    simp [List.map_eq_nil_iff.1 hw]
  | result =>
    rw [hk] at ha
    exact h.keys_of_result hk ▸ ha.map fun a b he => congrArg SlotKey.name he

omit [HasSignature κ] in
theorem find?_of_nodup_map {α β : Type} {f : α → β} {l : List α} (h : (l.map f).Nodup) {a : α}
    (ha : a ∈ l) {p : α → Bool} (hp : ∀ x, p x = true ↔ f x = f a) : l.find? p = some a :=
  find?_eq_of_unique ha ((hp a).2 rfl) fun b hb hpb =>
    List.inj_on_of_nodup_map h hb ha ((hp b).1 hpb)

omit [HasSignature κ] in
theorem output?_of_nodup (hg : g.Ascending) (hm : m ∈ g.nodes)
    (hnodup : (m.outputs.map (·.decl.name)).Nodup) {p : Port} (hp : p ∈ m.outputs) :
    g.output? m.id p.decl.name = some (g.portId p.index) := by
  have hfind := find?_of_nodup_map hnodup hp (p := fun q => q.decl.name = p.decl.name) (by simp)
  simp [output?, node?_of_mem hg hm, hfind]

omit [HasSignature κ] in
theorem input?_of_nodup (hg : g.Ascending) (hm : m ∈ g.nodes)
    (hnodup : (m.inputs.map Port.key).Nodup) {p : Port} (hp : p ∈ m.inputs) :
    g.input? m.id p.decl.name p.slot = some (g.portId p.index) := by
  have hfind := find?_of_nodup_map hnodup hp
    (p := fun q => q.decl.name = p.decl.name && q.slot = p.slot) (by simp [Port.key])
  simp [input?, node?_of_mem hg hm, hfind]

/-- An output is found under its name. -/
theorem Shaped.output?_eq (h : g.Shaped m) (ha : m.kind.Addressable g.signature) (hg : g.Ascending)
    (hm : m ∈ g.nodes) {p : Port} (hp : p ∈ m.outputs) :
    g.output? m.id p.decl.name = some (g.portId p.index) :=
  output?_of_nodup hg hm (h.nodup_outputs ha) hp

/-- An input is found under its name and slot. -/
theorem Shaped.input?_eq (h : g.Shaped m) (ha : m.kind.Addressable g.signature) (hg : g.Ascending)
    (hm : m ∈ g.nodes) {p : Port} (hp : p ∈ m.inputs) :
    g.input? m.id p.decl.name p.slot = some (g.portId p.index) :=
  input?_of_nodup hg hm (h.nodup_inputs ha) hp

end Graph

/-! ## What a record describes -/

/-- The record of a connection between two ports. -/
def ConnectionRecord.ofEnds (kind : ConnectionKind) (source destination : PlacedPort) :
    ConnectionRecord where
  sourceNode := source.node.number
  sourcePort := source.port.decl.name
  destNode := destination.node.number
  destPort := destination.port.decl.name
  destSlot := (destination.port.slot.elim 0 (· + 1)).toUInt32
  kind := kind

/-- Two records of which a snapshot of a graph holds at most one: both of values to one input, or
both of control from one output. -/
def ConnectionRecord.Excludes (r s : ConnectionRecord) : Prop :=
  r.kind = s.kind ∧
    (r.kind = .value ∧ r.destNode = s.destNode ∧ r.destPort = s.destPort ∧ r.destSlot = s.destSlot ∨
      r.kind = .control ∧ r.sourceNode = s.sourceNode ∧ r.sourcePort = s.sourcePort)

theorem ConnectionRecord.Excludes.symm {r s : ConnectionRecord} (h : r.Excludes s) :
    s.Excludes r := by
  obtain ⟨hkind, ⟨hv, hn, hp, hs⟩ | ⟨hc, hn, hp⟩⟩ := h
  · exact ⟨hkind.symm, .inl ⟨hkind ▸ hv, hn.symm, hp.symm, hs.symm⟩⟩
  · exact ⟨hkind.symm, .inr ⟨hkind ▸ hc, hn.symm, hp.symm⟩⟩

/-- The slot of a record is the slot of the port that the connection ends at. -/
theorem slotOf_ofEnds (kind : ConnectionKind) (s : PlacedPort) {d : PlacedPort}
    (h : ∀ i, d.port.slot = some i → i < slotLimit) :
    slotOf (.ofEnds kind s d) = d.port.slot := by
  unfold slotOf ConnectionRecord.ofEnds
  cases hs : d.port.slot with
  | none => rfl
  | some i =>
    -- Slot `i` is stored as `i + 1`, which fits, and zero stands for no slot.
    have hi : i + 1 < UInt32.size := Nat.lt_trans (Nat.succ_lt_succ (h i hs)) (by decide)
    have hnat : (i + 1).toUInt32.toNat = i + 1 := UInt32.toNat_ofNat_of_lt' hi
    have hne : (i + 1).toUInt32 ≠ 0 := by
      intro he
      rw [he] at hnat
      simp at hnat
    simp only [Option.elim_some, if_neg hne, hnat, Nat.add_sub_cancel]

namespace Graph

variable {g : Graph κ} {c : Connection}

omit [HasSignature κ] in
theorem WellFormed.ofConnection?_eq (h : g.WellFormed) {s d : PlacedPort} (hj : g.Joins c s d) :
    ConnectionRecord.ofConnection? g c = some (.ofEnds c.kind s d) := by
  have hs := h.portAt?_eq_some_iff.2 ⟨hj.source_mem, hj.source_index⟩
  have hd := h.portAt?_eq_some_iff.2 ⟨hj.destination_mem, hj.destination_index⟩
  simp only [ConnectionRecord.ofConnection?, hs, hd]
  rfl

/-- The record is that of the connection. -/
def Described (g : Graph κ) (c : Connection) (r : ConnectionRecord) : Prop :=
  ∃ s d, g.Joins c s d ∧ r = .ofEnds c.kind s d

omit [HasSignature κ] in
theorem WellFormed.described_iff (h : g.WellFormed) (hc : c ∈ g.connections)
    {r : ConnectionRecord} : g.Described c r ↔ ConnectionRecord.ofConnection? g c = some r := by
  constructor
  · rintro ⟨s, d, hj, rfl⟩
    exact h.ofConnection?_eq hj
  · intro hr
    obtain ⟨s, d, hj⟩ := h.joined c hc
    rw [h.ofConnection?_eq hj] at hr
    exact ⟨s, d, hj, (Option.some.inj hr).symm⟩

variable (ha : g.Addressable) (hv : g.Valid [])

include ha hv in
theorem Valid.input_unique {p q : PlacedPort} (hp : p ∈ g.allPorts) (hq : q ∈ g.allPorts)
    (hpd : p.direction = .input) (hqd : q.direction = .input) (hnode : p.node = q.node)
    (hkey : p.port.key = q.port.key) : p = q := by
  obtain ⟨m, hm, hpn, hpi⟩ := exists_of_input hp hpd
  obtain ⟨k, hk, hqn, hqi⟩ := exists_of_input hq hqd
  obtain rfl := hv.ascending.id_inj hm hk (hpn.symm.trans (hnode.trans hqn))
  have hport := List.inj_on_of_nodup_map
    ((hv.shaped m hm List.not_mem_nil).nodup_inputs (ha m hm)) hpi hqi hkey
  exact hv.wellFormed.port_inj hp hq (congrArg Port.index hport)

include ha hv in
theorem Valid.output_unique {p q : PlacedPort} (hp : p ∈ g.allPorts) (hq : q ∈ g.allPorts)
    (hpd : p.direction = .output) (hqd : q.direction = .output) (hnode : p.node = q.node)
    (hname : p.port.decl.name = q.port.decl.name) : p = q := by
  obtain ⟨m, hm, hpn, hpo⟩ := exists_of_output hp hpd
  obtain ⟨k, hk, hqn, hqo⟩ := exists_of_output hq hqd
  obtain rfl := hv.ascending.id_inj hm hk (hpn.symm.trans (hnode.trans hqn))
  have hport := List.inj_on_of_nodup_map
    ((hv.shaped m hm List.not_mem_nil).nodup_outputs (ha m hm)) hpo hqo hname
  exact hv.wellFormed.port_inj hp hq (congrArg Port.index hport)

include ha hv in
theorem Valid.output?_eq {q : PlacedPort} (hq : q ∈ g.allPorts) (hout : q.direction = .output) :
    g.output? q.node q.port.decl.name = some (g.portId q.port.index) := by
  obtain ⟨m, hm, hid, hp⟩ := exists_of_output hq hout
  rw [hid]
  exact (hv.shaped m hm List.not_mem_nil).output?_eq (ha m hm) hv.ascending hm hp

include ha hv in
theorem Valid.input?_eq {q : PlacedPort} (hq : q ∈ g.allPorts) (hin : q.direction = .input) :
    g.input? q.node q.port.decl.name q.port.slot = some (g.portId q.port.index) := by
  obtain ⟨m, hm, hid, hp⟩ := exists_of_input hq hin
  rw [hid]
  exact (hv.shaped m hm List.not_mem_nil).input?_eq (ha m hm) hv.ascending hm hp

include ha hv in
/-- Connections whose records exclude one another do so themselves. -/
theorem Valid.excludes_of_described {c c' : Connection} {r r' : ConnectionRecord}
    (hr : g.Described c r) (hr' : g.Described c' r') (h : r.Excludes r') : c.Excludes c' := by
  obtain ⟨s, d, hj, rfl⟩ := hr
  obtain ⟨s', d', hj', rfl⟩ := hr'
  obtain ⟨hkind, ⟨hvalue, hnode, hport, hslot⟩ | ⟨hcontrol, hnode, hport⟩⟩ := h
  · have hslots : d.port.slot = d'.port.slot := by
      rw [← slotOf_ofEnds c.kind s (hv.slots d hj.destination_mem),
        ← slotOf_ofEnds c'.kind s' (hv.slots d' hj'.destination_mem),
        slotOf, slotOf, hslot]
    have hkey : d.port.key = d'.port.key := SlotKey.mk.injEq .. ▸ ⟨hport, hslots⟩
    have hd := hv.input_unique ha hj.destination_mem hj'.destination_mem hj.destination_input
      hj'.destination_input (congrArg NodeId.mk hnode) hkey
    exact ⟨hkind, .inl ⟨hvalue, by rw [← hj.destination_index, ← hj'.destination_index, hd]⟩⟩
  · have hs := hv.output_unique ha hj.source_mem hj'.source_mem hj.source_output
      hj'.source_output (congrArg NodeId.mk hnode) hport
    exact ⟨hkind, .inr ⟨hcontrol, by rw [← hj.source_index, ← hj'.source_index, hs]⟩⟩

/-- The records of a graph in their order. -/
def records (g : Graph κ) : List ConnectionRecord :=
  sortRecords (g.connections.filterMap (ConnectionRecord.ofConnection? g))

omit [HasSignature κ] in
theorem WellFormed.described_of_mem_records (h : g.WellFormed) {r : ConnectionRecord}
    (hr : r ∈ g.records) : ∃ c ∈ g.connections, g.Described c r := by
  obtain ⟨c, hc, hcr⟩ := List.mem_filterMap.1 ((perm_sortRecords _).subset hr)
  exact ⟨c, hc, (h.described_iff hc).2 hcr⟩

include ha hv in
/-- No two records of a graph exclude one another. -/
theorem Valid.pairwise_records : g.records.Pairwise fun r s => ¬r.Excludes s := by
  have hsymm : ∀ {r s : ConnectionRecord}, ¬r.Excludes s → ¬s.Excludes r :=
    fun hnot hex => hnot hex.symm
  refine ((perm_sortRecords _).pairwise_iff hsymm).2 (List.pairwise_filterMap.2 ?_)
  refine hv.wellFormed.single.imp_of_mem fun {c c'} hc hc' hnot r hr r' hr' hex => hnot ?_
  exact hv.excludes_of_described ha ((hv.wellFormed.described_iff hc).2 hr)
    ((hv.wellFormed.described_iff hc').2 hr') hex

end Graph

end EffectGraph
