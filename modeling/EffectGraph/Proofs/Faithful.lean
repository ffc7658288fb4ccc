import EffectGraph.Proofs.Lookups
import EffectGraph.Proofs.RoundTrip

/-!
# What a rebuild keeps of a snapshot

A snapshot may have been written by hand, and then two of its records may stand for one thing: two
texts for one slot, two values for one input, two controls for one output. The rebuild takes the
later of the two and says nothing. If no two records do so (`Snapshot.Unambiguous`), a rebuild that
succeeds keeps every record: the snapshot of the result lists the same nodes, under the current
names of their kinds and slots, and the same connections (`Snapshot.Restates`). If the kinds tell
their ports apart, nothing less will do (`Snapshot.rebuild_restates`).
-/

namespace EffectGraph

open EffectGraph.Graph Snapshot

/-- The usual text of the slot key that a text stands for. -/
def SlotKey.respell (t : String) : String := ((SlotKey.ofText? t).map SlotKey.text).getD t

/-- The stored kind under the name that the catalog has for it now. -/
def StoredKind.current (c : Catalog) : StoredKind → StoredKind
  | .action name => .action ((c.get? name).elim name Definition.name)
  | kind => kind

/-- A stored node is another one under the current name of its kind, with the usual texts of its
slot keys. -/
structure NodeRecord.Renews (c : Catalog) (r r' : NodeRecord) : Prop where
  id : r'.id = r.id
  position : r'.position = r.position
  kind : r'.kind = r.kind.current c
  consts : r'.consts = r.consts
  defaults : r'.defaults.entries.Perm (r.defaults.entries.map fun e => (SlotKey.respell e.1, e.2))

/-- A snapshot lists what another one lists and nothing else, in whatever order. -/
structure Snapshot.Restates (c : Catalog) (s s' : Snapshot) : Prop where
  nodes : ∃ rs, rs.Perm s'.nodes ∧ List.Forall₂ (NodeRecord.Renews c) s.nodes rs
  connections : s'.connections.Perm s.connections

/-- No two connections of a snapshot exclude one another, and no two defaults of a node are for one
slot. -/
structure Snapshot.Unambiguous (s : Snapshot) : Prop where
  connections : s.connections.Pairwise fun r r' => ¬r.Excludes r'
  defaults : ∀ r ∈ s.nodes, (r.defaults.keys.map SlotKey.ofText?).Nodup

/-! ## Nodes -/

/-- The node that a record stands for, without its ports. -/
def NodeRecord.node (r : NodeRecord) (kind : NodeKind Definition) : Node Definition :=
  { Node.fresh ⟨r.id⟩ kind with
    position := r.position
    consts := r.consts
    defaults := .ofList (r.defaults.entries.filterMap readDefault?) }

/-- A node is what a record stands for: its kind is that of the catalog, and the slot keys of its
defaults can be read. -/
def NodeRecord.Places (c : Catalog) (r : NodeRecord) (n : Node Definition) : Prop :=
  ∃ kind, kindOf c r = .ok kind ∧ (∀ t ∈ r.defaults.keys, (SlotKey.ofText? t).isSome = true) ∧
    n = r.node kind

namespace Snapshot

variable {c : Catalog} {owner : Option Signature} {g g' : Graph Definition}
variable {m : Node Definition} {ms : List (Node Definition)} {r : NodeRecord}

/-- While nodes are placed in whatever order: the graph is valid and without connections, and its
nodes without their ports are the given ones. -/
structure Laid (owner : Option Signature) (ms : List (Node Definition)) (g : Graph Definition) :
    Prop where
  valid : g.Valid []
  cores : (g.nodes.map Node.core).Perm ms
  hook : g.hook = .standard
  signature : g.signature = owner
  connections : g.connections = []

theorem Laid.canvas (id : Nat) (owner : Option Signature) : Laid owner [] (canvas id owner) :=
  ⟨valid_empty id .standard owner, .refl _, rfl, rfl, rfl⟩

theorem Laid.perm {ms' : List (Node Definition)} (h : Laid owner ms g) (hperm : ms.Perm ms') :
    Laid owner ms' g :=
  { h with cores := h.cores.trans hperm }

/-- Reshapes of a graph without connections leave the nodes without their ports as they are. -/
theorem Laid.of_reshapes (hv : g'.Valid []) (hr : g.Reshapes g')
    (hcores : (g.nodes.map Node.core).Perm ms) (hhook : g.hook = .standard)
    (hsignature : g.signature = owner) (hnone : g.connections = []) : Laid owner ms g' :=
  ⟨hv, hr.cores ▸ hcores, hr.hook.trans hhook, hr.signature.trans hsignature,
    List.sublist_nil.1 (hnone ▸ hr.connections)⟩

theorem Laid.addNodeAt (h : Laid owner ms g) {n : NodeId} {kind : NodeKind Definition}
    (ha : g.addNodeAt n kind = .ok g') : Laid owner (.fresh n kind :: ms) g' :=
  .of_reshapes (h.valid.addNodeAt ha) (h.valid.reshapes_place ha)
    (((perm_insertNode _ g.nodes).map Node.core).trans (h.cores.cons _)) h.hook h.signature
    h.connections

/-- An edit of what one of the nodes stores. -/
theorem Laid.updateNode (h : Laid owner (m :: ms) g) {f : Node Definition → Node Definition}
    (hf : ∀ k, (f k).core = f k.core) :
    ((g.updateNode m.id f).nodes.map Node.core).Perm (f m :: ms) := by
  -- Ids differ, so the update leaves the other nodes alone.
  have hids : (g.nodes.map Node.core).map (·.id) = g.nodeIds := by
    rw [List.map_map]
    rfl
  have hnodup : ((m :: ms).map (·.id)).Nodup :=
    (h.cores.map (·.id)).nodup_iff.1 (hids ▸ h.valid.ascending.nodup_ids)
  have hothers : ∀ k ∈ ms, k.id ≠ m.id := fun k hk he =>
    (List.nodup_cons.1 hnodup).1 (List.mem_map.2 ⟨k, hk, he⟩)
  rw [g.map_updateNode (F := Node.core) (fun _ => rfl) hf]
  have hperm := h.cores.map fun k => if k.id = m.id then f k else k
  rwa [List.map_cons, if_pos rfl, map_update_of_ne hothers] at hperm

theorem Laid.setPosition (h : Laid owner (m :: ms) g) {p : Position}
    (hs : g.setPosition m.id p = .ok g') : Laid owner ({ m with position := p } :: ms) g' := by
  have hv := h.valid.setPosition hs
  obtain ⟨-, rfl⟩ := setPosition_eq_ok.1 hs
  exact ⟨hv, h.updateNode fun _ => rfl, h.hook, h.signature, h.connections⟩

theorem Laid.setConst (h : Laid owner (m :: ms) g) {name : String} {v : Value}
    (hs : g.setConst m.id name v = .ok g') :
    Laid owner ({ m with consts := m.consts.insert name v } :: ms) g' := by
  have hv := h.valid.setConst hs
  obtain ⟨-, rfl⟩ := setConst_eq_ok.1 hs
  exact ⟨hv, h.updateNode fun _ => rfl, h.hook, h.signature, h.connections⟩

theorem Laid.setDefault (h : Laid owner (m :: ms) g) {k : SlotKey} {v : Value}
    (hs : g.setDefault m.id k v = .ok g') :
    Laid owner (m.mapDefaults (·.insert k v) :: ms) g' := by
  have hv := h.valid.setDefault hs
  obtain ⟨-, rfl⟩ := setDefault_eq_ok.1 hs
  exact .of_reshapes hv (h.valid.reshapes_updateDefaults _ fun t => t.insert k v)
    (h.updateNode fun _ => rfl) h.hook h.signature h.connections

theorem Laid.restoreConsts {es : List (String × Value)} (h : Laid owner (m :: ms) g)
    (hs : restoreConsts m.id es g = .ok g') :
    Laid owner ({ m with consts := es.foldl (fun t e => t.insert e.1 e.2) m.consts } :: ms) g' := by
  induction es generalizing m g with
  | nil =>
    obtain rfl := Except.ok.inj hs
    exact h
  | cons e es ih =>
    obtain ⟨g₁, h₁, h₂⟩ := bind_eq_ok.1 hs
    exact ih (h.setConst h₁) h₂

theorem Laid.restoreDefaults {es : List (String × Value)} (h : Laid owner (m :: ms) g)
    (hs : restoreDefaults m.id es g = .ok g') :
    (∀ e ∈ es, (SlotKey.ofText? e.1).isSome = true) ∧
      Laid owner (m.mapDefaults (fun t =>
        (es.filterMap readDefault?).foldl (fun t e => t.insert e.1 e.2) t) :: ms) g' := by
  induction es generalizing m g with
  | nil =>
    obtain rfl := Except.ok.inj hs
    exact ⟨by simp, h⟩
  | cons e es ih =>
    rw [Snapshot.restoreDefaults] at hs
    split at hs
    · simp at hs
    next k hk =>
      obtain ⟨g₁, h₁, h₂⟩ := bind_eq_ok.1 hs
      obtain ⟨htexts, hlaid⟩ := ih (h.setDefault h₁) h₂
      have hread : readDefault? e = some (k, e.2) := by simp [readDefault?, hk]
      refine ⟨fun x hx => ?_, ?_⟩
      · rcases List.mem_cons.1 hx with rfl | hx
        · simp [hk]
        · exact htexts x hx
      · rw [List.filterMap_cons_some hread]
        exact hlaid

/-- A record is placed as the node that it stands for. -/
theorem Laid.placeNode (h : Laid owner ms g) (hp : placeNode c g r = .ok g') :
    ∃ n, r.Places c n ∧ Laid owner (n :: ms) g' := by
  obtain ⟨kind, g₁, g₂, g₃, hkind, h₁, h₂, h₃, h₄⟩ := placeNode_eq_ok.1 hp
  have hlaid := ((h.addNodeAt h₁).setPosition h₂).restoreConsts h₃
  obtain ⟨htexts, hlaid⟩ := hlaid.restoreDefaults h₄
  have hconsts : r.consts.entries.foldl (fun t e => t.insert e.1 e.2) .empty = r.consts :=
    Table.ofList_of_perm (.refl _)
  refine ⟨r.node kind, ⟨kind, hkind, fun t ht => ?_, rfl⟩, ?_⟩
  · obtain ⟨e, he, rfl⟩ := List.mem_map.1 ht
    exact htexts e he
  · have hnode : r.node kind = Node.mapDefaults (fun t =>
        (r.defaults.entries.filterMap readDefault?).foldl (fun t e => t.insert e.1 e.2) t)
        { Node.fresh ⟨r.id⟩ kind with
          position := r.position
          consts := r.consts.entries.foldl (fun t e => t.insert e.1 e.2) .empty } := by
      rw [hconsts]
      rfl
    rw [hnode]
    exact hlaid

/-- The records of nodes are placed as the nodes that they stand for. -/
theorem Laid.placeNodes {rs : List NodeRecord} (h : Laid owner ms g)
    (hp : placeNodes c rs g = .ok g') :
    ∃ ns, List.Forall₂ (NodeRecord.Places c) rs ns ∧ Laid owner (ns ++ ms) g' := by
  induction rs generalizing ms g with
  | nil =>
    obtain rfl := Except.ok.inj hp
    exact ⟨[], .nil, h⟩
  | cons r rs ih =>
    obtain ⟨g₁, h₁, h₂⟩ := bind_eq_ok.1 hp
    obtain ⟨n, hn, hlaid⟩ := h.placeNode h₁
    obtain ⟨ns, hns, hlaid⟩ := ih hlaid h₂
    exact ⟨n :: ns, .cons hn hns, hlaid.perm List.perm_middle⟩

end Snapshot

/-! ## Texts of slot keys -/

namespace SlotKey

theorem respell_eq {t : String} {k : SlotKey} (h : ofText? t = some k) : respell t = k.text := by
  simp [respell, h]

/-- Texts that can be read are respelled alike exactly if they are read alike. -/
theorem respell_eq_respell_iff {t u : String} (ht : (ofText? t).isSome = true)
    (hu : (ofText? u).isSome = true) : respell t = respell u ↔ ofText? t = ofText? u := by
  obtain ⟨j, hj⟩ := Option.isSome_iff_exists.1 ht
  obtain ⟨k, hk⟩ := Option.isSome_iff_exists.1 hu
  rw [respell_eq hj, respell_eq hk]
  constructor
  · intro h
    have hread := ofText?_text_of_ofText? hj
    rw [h, ofText?_text_of_ofText? hk] at hread
    rw [hj, hk, hread]
  · intro h
    rw [hj, hk] at h
    rw [Option.some.inj h]

theorem nodup_respell_iff {ts : List String} (hts : ∀ t ∈ ts, (ofText? t).isSome = true)
    (hnodup : ts.Nodup) : (ts.map respell).Nodup ↔ (ts.map ofText?).Nodup := by
  constructor
  · exact fun h => hnodup.map_on fun t ht u hu he => List.inj_on_of_nodup_map h ht hu
      ((respell_eq_respell_iff (hts t ht) (hts u hu)).2 he)
  · exact fun h => hnodup.map_on fun t ht u hu he => List.inj_on_of_nodup_map h ht hu
      ((respell_eq_respell_iff (hts t ht) (hts u hu)).1 he)

/-- Stored defaults under the texts of their slot keys are the stored defaults respelled. -/
theorem map_text_filterMap {es : List (String × Value)}
    (hes : ∀ e ∈ es, (ofText? e.1).isSome = true) :
    (es.filterMap readDefault?).map (fun e => (e.1.text, e.2)) =
      es.map fun e => (respell e.1, e.2) := by
  rw [List.map_filterMap, ← List.filterMap_eq_map]
  refine List.filterMap_congr fun e he => ?_
  obtain ⟨k, hk⟩ := Option.isSome_iff_exists.1 (hes e he)
  simp [readDefault?, hk, respell_eq hk]

end SlotKey

namespace NodeRecord

variable {c : Catalog} {r : NodeRecord} {n : Node Definition}

theorem ofKind_of_kindOf {kind : NodeKind Definition} (h : kindOf c r = .ok kind) :
    StoredKind.ofKind kind = r.kind.current c := by
  unfold kindOf at h
  split at h
  next hk => rw [hk, ← Except.ok.inj h]; rfl
  next hk => rw [hk, ← Except.ok.inj h]; rfl
  next name hk =>
    split at h
    next d hd => rw [hk, ← Except.ok.inj h, StoredKind.current, hd]; rfl
    next => simp at h

theorem Places.texts (h : r.Places c n) :
    ∀ t ∈ r.defaults.keys, (SlotKey.ofText? t).isSome = true :=
  let ⟨_, _, htexts, _⟩ := h
  htexts

theorem map_fst_respell (r : NodeRecord) :
    (r.defaults.entries.map fun e => (SlotKey.respell e.1, e.2)).map (·.1) =
      r.defaults.keys.map SlotKey.respell := by simp [Table.keys, Function.comp_def]

/-- If a record is kept whole, the texts of its defaults are read as different slot keys. -/
theorem Renews.nodup {r' : NodeRecord} (h : r.Renews c r')
    (htexts : ∀ t ∈ r.defaults.keys, (SlotKey.ofText? t).isSome = true) :
    (r.defaults.keys.map SlotKey.ofText?).Nodup := by
  have hnodup : (r'.defaults.entries.map (·.1)).Nodup := Table.nodup_keys _
  rw [← SlotKey.nodup_respell_iff htexts r.defaults.nodup_keys, ← map_fst_respell]
  exact (h.defaults.map (·.1)).nodup_iff.1 hnodup

/-- If the texts of its defaults are read as different slot keys, a record that is placed is kept
whole. -/
theorem Places.renews (h : r.Places c n) (hnodup : (r.defaults.keys.map SlotKey.ofText?).Nodup) :
    r.Renews c (.ofNode n) := by
  obtain ⟨kind, hkind, htexts, rfl⟩ := h
  have hmap := SlotKey.map_text_filterMap fun e (he : e ∈ r.defaults.entries) =>
    htexts e.1 (List.mem_map_of_mem he)
  rw [← SlotKey.nodup_respell_iff htexts r.defaults.nodup_keys, ← map_fst_respell, ← hmap] at hnodup
  -- Different texts are those of different keys, so no default displaces another one.
  have hread : ((r.defaults.entries.filterMap readDefault?).map (·.1)).Nodup := by
    rw [List.map_map] at hnodup
    exact List.Nodup.of_map SlotKey.text (by rwa [List.map_map])
  have hplaced := (Table.perm_entries_ofList hread).map fun e => (e.1.text, e.2)
  have hstored := (Table.perm_entries_ofList
    ((hplaced.map (·.1)).nodup_iff.2 hnodup)).trans hplaced
  exact ⟨rfl, rfl, ofKind_of_kindOf hkind, rfl, hmap ▸ hstored⟩

end NodeRecord

/-! ## Connections -/

namespace Graph

variable {κ : Type} {g g' : Graph κ}

/-- Every connection has a record. -/
theorem WellFormed.length_filterMap (h : g.WellFormed) :
    (g.connections.filterMap (ConnectionRecord.ofConnection? g)).length = g.connections.length := by
  rw [List.length_filterMap_eq_countP, List.countP_eq_length]
  intro c hc
  obtain ⟨s, d, hj⟩ := h.joined c hc
  simp [h.ofConnection?_eq hj]

variable [HasSignature κ]

/-- A new connection replaces none, or there are no more connections than before. -/
theorem Valid.join_cases (h : g.Valid []) {j : Joint}
    (hj : g.Joins j.connection j.source j.destination) :
    (∀ c ∈ g.connections, j.replaces c = false) ∧ (∃ ns, g.join j = (g.linked j).refresh ns) ∨
      (∃ c ∈ g.connections, j.replaces c = true) ∧
        (g.join j).connections.length ≤ g.connections.length := by
  rcases join_eq g j with ⟨he, c, hc, hs, hd⟩ | ⟨-, he⟩
  · refine .inr ⟨⟨c, hc, ?_⟩, by rw [he]⟩
    unfold Joint.replaces
    split
    · simpa using hd
    · simpa using hs
  · by_cases hfree : ∀ c ∈ g.connections, j.replaces c = false
    · exact .inl ⟨hfree, _, he⟩
    · push Not at hfree
      obtain ⟨c, hc, hreplaces⟩ := hfree
      have hreplaces : j.replaces c = true := by simpa using hreplaces
      refine .inr ⟨⟨c, hc, hreplaces⟩, ?_⟩
      -- The new connection comes in the place of this one at least.
      have hfewer : (g.connections.filter fun c => !j.replaces c).length < g.connections.length :=
        List.length_filter_lt_length_iff_exists.2 ⟨c, hc, by simp [hreplaces]⟩
      rw [he, (h.linked hj).connections_refresh]
      simp only [Graph.linked, Graph.sever, List.length_append]
      exact hfewer

end Graph

namespace Snapshot

variable {g G G' : Graph Definition} {r : ConnectionRecord} {done rs : List ConnectionRecord}

/-- A connection changes neither kinds nor what nodes store. -/
theorem Mirrors.connect (h : Mirrors g G) {a b : PortId} (hc : G.connect a b = .ok G') :
    Mirrors g G' := by
  have hv := h.valid.connect hc
  obtain ⟨j, hcheck, rfl⟩ := connect_eq_ok.1 hc
  rcases join_eq G j with ⟨he, -⟩ | ⟨-, he⟩
  · rwa [he]
  · have hlinked := h.valid.linked (.of_checkConnection hcheck)
    rw [he] at hv ⊢
    exact .of_reshapes (G := G.linked j) h.core h.hook h.owner
      (reshapes_refresh hlinked.wellFormed _) hv

theorem Mirrors.symm (h : Mirrors g G) (hg : g.Valid []) : Mirrors G g := by
  refine ⟨hg, h.core.symm, h.hook.symm, h.owner.imp (fun hactions k hk => ?_) Eq.symm⟩
  obtain ⟨m, hm, -, hkind⟩ := h.origin hk
  obtain ⟨d, hd⟩ := hactions m hm
  exact ⟨d, hkind ▸ hd⟩

/-- A record that is restored is that of the connection that is made. -/
theorem restoreConnection_joins (hG : G.WellFormed) (h : restoreConnection G r = .ok G') :
    ∃ j, G.Joins j.connection j.source j.destination ∧ r = .ofEnds j.kind j.source j.destination ∧
      G.join j = G' := by
  obtain ⟨a, b, q, ha, hb, hq, hkind, hconnect⟩ := restoreConnection_eq_ok.1 h
  obtain ⟨j, hcheck, hjoin⟩ := connect_eq_ok.1 hconnect
  obtain ⟨s, hs, hout, hsnode, hsname, rfl⟩ := output?_eq_some ha
  obtain ⟨d, hd, hin, hdnode, hdkey, rfl⟩ := input?_eq_some hb
  obtain ⟨s', d', hs', hd', -, horient, -⟩ := checkConnection_eq_ok.1 hcheck
  rw [hG.port?_portId hs] at hq hs'
  rw [hG.port?_portId hd] at hd'
  obtain rfl := Option.some.inj hq
  obtain rfl := Option.some.inj hs'
  obtain rfl := Option.some.inj hd'
  obtain ⟨hends, hsource, -, hcontrol, -⟩ := orient?_eq_some horient
  -- The ports are an output and an input, so they are joined in this order.
  obtain ⟨rfl, rfl⟩ := hends.resolve_right fun hswap => by simp [hswap.1, hin] at hsource
  refine ⟨j, .of_checkConnection hcheck, ?_, hjoin⟩
  obtain ⟨hname, hslot⟩ := SlotKey.mk.inj hdkey
  have hkinds : r.kind = j.kind := by
    rw [← hkind]
    cases hj : j.kind with
    | control => exact if_pos (hcontrol.2 hj)
    | value => exact if_neg fun hc => by simpa [hj] using hcontrol.1 hc
  have hdest : r.destSlot = (j.destination.port.slot.elim 0 (· + 1)).toUInt32 := by
    rw [hslot, slotOf]
    split
    next hzero => rw [hzero]; rfl
    next hne =>
      have hpos : r.destSlot.toNat ≠ 0 := fun he => hne (UInt32.toNat_inj.1 he)
      rw [Option.elim_some, Nat.sub_add_cancel (Nat.one_le_iff_ne_zero.2 hpos)]
      simp
  obtain ⟨sourceNode, sourcePort, destNode, destPort, destSlot, kind⟩ := r
  simp only [ConnectionRecord.ofEnds, ConnectionRecord.mk.injEq]
  exact ⟨(congrArg NodeId.number hsnode).symm, hsname.symm, (congrArg NodeId.number hdnode).symm,
    hname.symm, hdest, hkinds⟩

/-- A record that is restored either is added to those restored before, none of which excludes it,
or takes the place of one that excludes it. -/
theorem Restored.restoreConnection_cases (h : Restored g G done)
    (hr : Snapshot.restoreConnection G r = .ok G') :
    Restored g G' (done ++ [r]) ∧ (g.Addressable → ∀ x ∈ done, ¬x.Excludes r) ∨
      (∃ x ∈ done, x.Excludes r) ∧ G'.connections.length ≤ G.connections.length := by
  have hv := h.mirrors.valid
  obtain ⟨j, hj, rfl, rfl⟩ := restoreConnection_joins hv.wellFormed hr
  rcases hv.join_cases hj with ⟨hkept, ns, hns⟩ | ⟨⟨c, hc, hreplaces⟩, hlength⟩
  · refine .inl ⟨hns ▸ h.linked hj hkept ns, fun ha x hx hex => ?_⟩
    rw [← h.records] at hx
    obtain ⟨c, hc, hcx⟩ := List.mem_filterMap.1 hx
    have hdescribed := (hv.wellFormed.described_iff hc).2 hcx
    have hexcludes : c.Excludes j.connection :=
      hv.excludes_of_described (h.mirrors.addressable ha) hdescribed ⟨_, _, hj, rfl⟩ hex
    exact Bool.noConfusion ((replaces_of_excludes hexcludes).symm.trans (hkept c hc))
  · obtain ⟨x, hx, hdescribed⟩ := h.described_mem hc
    exact .inr ⟨⟨x, hx, hv.wellFormed.excludes_of_replaces hj hdescribed hreplaces⟩, hlength⟩

/-- Restoring records makes one connection for each at most. -/
theorem length_restoreConnections (hG : G.Valid []) (h : restoreConnections rs G = .ok G') :
    G'.connections.length ≤ G.connections.length + rs.length := by
  induction rs generalizing G with
  | nil =>
    obtain rfl := Except.ok.inj h
    exact Nat.le_refl _
  | cons r rs ih =>
    obtain ⟨G₁, h₁, h₂⟩ := bind_eq_ok.1 h
    obtain ⟨j, hj, -, rfl⟩ := restoreConnection_joins hG.wellFormed h₁
    have hone : (G.join j).connections.length ≤ G.connections.length + 1 := by
      rcases hG.join_cases hj with ⟨hkept, ns, hns⟩ | ⟨-, hlength⟩
      · rw [hns, (hG.linked hj).connections_refresh]
        simp only [Graph.linked, Graph.sever, List.length_append]
        exact Nat.add_le_add_right (List.length_filter_le _ _) _
      · omega
    have hrest := ih (hG.join hj) h₂
    rw [List.length_cons]
    omega

/-- If no two records exclude one another, all of them are restored. -/
theorem Restored.restoreConnections_free (h : Restored g G done)
    (hfree : (done ++ rs).Pairwise fun r r' => ¬r.Excludes r')
    (hrs : Snapshot.restoreConnections rs G = .ok G') : Restored g G' (done ++ rs) := by
  induction rs generalizing done G with
  | nil =>
    obtain rfl := Except.ok.inj hrs
    rwa [List.append_nil]
  | cons r rs ih =>
    obtain ⟨G₁, h₁, h₂⟩ := bind_eq_ok.1 hrs
    rw [List.append_cons] at hfree ⊢
    obtain ⟨hrestored, -⟩ := (h.restoreConnection_cases h₁).resolve_right fun hlost => by
      obtain ⟨⟨x, hx, hex⟩, -⟩ := hlost
      have hpairwise := (List.pairwise_append.1 hfree).1
      exact (List.pairwise_append.1 hpairwise).2.2 x hx r (.head _) hex
    exact ih hrestored hfree h₂

/-- If as many connections are made as there are records, no two records exclude one another. -/
theorem Restored.pairwise_of_length (h : Restored g G done) (ha : g.Addressable)
    (hdone : done.Pairwise fun r r' => ¬r.Excludes r')
    (hrs : Snapshot.restoreConnections rs G = .ok G')
    (hlength : G'.connections.length = done.length + rs.length) :
    (done ++ rs).Pairwise fun r r' => ¬r.Excludes r' := by
  induction rs generalizing done G with
  | nil => rwa [List.append_nil]
  | cons r rs ih =>
    obtain ⟨G₁, h₁, h₂⟩ := bind_eq_ok.1 hrs
    obtain ⟨j, hj, -, hjoin⟩ := restoreConnection_joins h.mirrors.valid.wellFormed h₁
    have hdonelength := h.mirrors.valid.wellFormed.length_filterMap
    have hrest := length_restoreConnections (hjoin ▸ h.mirrors.valid.join hj) h₂
    rw [h.records] at hdonelength
    rw [List.length_cons] at hlength
    rcases h.restoreConnection_cases h₁ with ⟨hrestored, hfree⟩ | ⟨-, hlost⟩
    · have hdone' : (done ++ [r]).Pairwise fun r r' => ¬r.Excludes r' :=
        List.pairwise_append.2 ⟨hdone, List.pairwise_singleton _ _, fun x hx y hy => by
          obtain rfl := List.mem_singleton.1 hy
          exact hfree ha x hx⟩
      rw [List.append_cons]
      refine ih hrestored hdone' h₂ ?_
      rw [hlength, List.length_append, List.length_singleton]
      omega
    · omega

/-- The stored nodes are those without their ports. -/
theorem Laid.ofGraph {owner : Option Signature} {ns : List (Node Definition)}
    (h : Laid owner ns g) : (Snapshot.ofGraph g).nodes.Perm (ns.map .ofNode) := by
  have hcores : g.nodes.map NodeRecord.ofNode = (g.nodes.map Node.core).map NodeRecord.ofNode := by
    rw [List.map_map]
    rfl
  exact (List.Perm.of_eq hcores).trans (h.cores.map NodeRecord.ofNode)

/-- A rebuild that succeeds places all nodes and then restores the records of connections, starting
from none. -/
theorem rebuild_restored {c : Catalog} {id : Nat} {owner : Option Signature} {s : Snapshot}
    (h : s.rebuild c id owner = .ok G') :
    ∃ ns g G G₁, List.Forall₂ (NodeRecord.Places c) s.nodes ns ∧ Laid owner ns g ∧
      Restored g G [] ∧ restoreConnections s.connections G = .ok G₁ ∧ Mirrors g G₁ ∧
      G₁.release = G' := by
  obtain ⟨g, G, G₁, h₁, h₂, h₃, rfl⟩ := rebuild_eq_ok.1 h
  obtain ⟨ns, hns, hlaid⟩ := (Laid.canvas id owner).placeNodes h₁
  rw [List.append_nil] at hlaid
  have hstart : Mirrors g g ∧ g.connections = [] :=
    ⟨⟨hlaid.valid, rfl, rfl, .inr rfl⟩, hlaid.connections⟩
  obtain ⟨hmirrors, hnone⟩ := holdSlots_induct (P := fun k => Mirrors g k ∧ k.connections = [])
    (fun k k' n group i hk hhold =>
      let ⟨hmirrors, hnone, _⟩ := hk.1.of_hold hhold hk.2
      ⟨hmirrors, hnone⟩) h₂ hstart
  have hrecords : g.records = [] := by simp [records, hlaid.connections, sortRecords]
  exact ⟨ns, g, G, G₁, hns, hlaid, ⟨hmirrors, by simp [hnone], by simp [hrecords]⟩, h₃,
    restoreConnections_induct (fun _ _ _ _ hk hc => Mirrors.connect hk hc) h₃ hmirrors, rfl⟩

/-- The nodes of a rebuilt graph, without their ports, are those that the records stand for. -/
theorem rebuild_places {c : Catalog} {id : Nat} {owner : Option Signature} {s : Snapshot}
    (h : s.rebuild c id owner = .ok G') :
    ∃ ns, List.Forall₂ (NodeRecord.Places c) s.nodes ns ∧ (G'.nodes.map Node.core).Perm ns := by
  obtain ⟨ns, g₀, G, G₁, hns, hlaid, -, -, hmirrors, rfl⟩ := rebuild_restored h
  exact ⟨ns, hns, hmirrors.release.core ▸ hlaid.cores⟩

end Snapshot

open Snapshot

/-- A rebuild that succeeds keeps all that an unambiguous snapshot lists and adds nothing. If the
kinds of the nodes tell their ports apart, it keeps all of no other snapshot. -/
theorem Snapshot.rebuild_restates {c : Catalog} {id : Nat} {owner : Option Signature}
    {s : Snapshot} {g : Graph Definition} (h : s.rebuild c id owner = .ok g) :
    (s.Unambiguous → s.Restates c (ofGraph g)) ∧
      (g.Addressable → s.Restates c (ofGraph g) → s.Unambiguous) := by
  obtain ⟨ns, g₀, G, G', hplaces, hlaid, hstart, hrestore, hmirrors, rfl⟩ := rebuild_restored h
  constructor
  · intro hs
    obtain ⟨hnodes, hconnections⟩ := (hstart.restoreConnections_free hs.connections
      hrestore).ofGraph_release
    refine ⟨⟨ns.map .ofNode, hnodes ▸ hlaid.ofGraph.symm, ?_⟩, hconnections ▸ perm_sortRecords _⟩
    have hall := (List.forall₂_and_left _ _).2 ⟨hs.defaults, hplaces⟩
    exact List.forall₂_map_right_iff.2 (hall.imp fun r n hr => hr.2.renews hr.1)
  · rintro haddressable ⟨⟨rs, -, hrenews⟩, hconnections⟩
    have haddressable₀ : g₀.Addressable :=
      (hmirrors.release.symm hlaid.valid).addressable haddressable
    have hstored : (ofGraph G'.release).connections.length = G'.connections.length := by
      rw [← hmirrors.valid.connections_release,
        ← hmirrors.valid.release.wellFormed.length_filterMap]
      exact (perm_sortRecords _).length_eq
    have hlength : G'.connections.length = ([] : List ConnectionRecord).length +
        s.connections.length := by
      rw [List.length_nil, Nat.zero_add, ← hconnections.length_eq, hstored]
    have htexts := ((List.forall₂_and_left _ _).1 (hplaces.imp fun r n hr => ⟨hr.texts, hr⟩)).1
    have hall := (List.forall₂_and_left _ _).2 ⟨htexts, hrenews⟩
    exact ⟨hstart.pairwise_of_length haddressable₀ .nil hrestore hlength,
      ((List.forall₂_and_left _ _).1 (hall.imp fun r r' hr => ⟨hr.2.nodup hr.1, hr⟩)).1⟩

/-- A catalog that knows the gathering kind under an old name as well. -/
def renamedCatalog : Catalog :=
  Catalog.empty.register (Definition.gather.withObsoleteNames ["Collect"])

/-- The stored form of a gathering node. -/
def gatherRecord (id : UInt32) (name : String) (defaults : List (String × Value)) : NodeRecord :=
  ⟨id, .origin, .action name, .empty, .ofList defaults⟩

/-- Two nodes out of order, one of them under the old name and with a place that has a leading zero,
and a connection. -/
def handmade : Snapshot where
  nodes := [gatherRecord 2 "Collect" [("items[01]", .int 7)], gatherRecord 1 "Gather" []]
  connections := [⟨1, "item", 2, "items", 1, .value⟩]

/-- The kind has its current name and the slot its usual text, and all is there. -/
theorem rebuild_handmade : ∃ g, handmade.rebuild renamedCatalog 1 none = .ok g ∧
    (Snapshot.ofGraph g).nodes.map (fun r => (r.id, r.kind, r.defaults.keys)) =
      [(1, .action "Gather", []), (2, .action "Gather", ["items[1]"])] ∧
    handmade.Restates renamedCatalog (Snapshot.ofGraph g) := by
  have hunambiguous : handmade.Unambiguous :=
    ⟨List.pairwise_singleton _ _, by decide⟩
  obtain ⟨g, hg⟩ : ∃ g, handmade.rebuild renamedCatalog 1 none = .ok g := ⟨_, rfl⟩
  refine ⟨g, hg, ?_, (Snapshot.rebuild_restates hg).1 hunambiguous⟩
  obtain rfl := Except.ok.inj hg
  decide

/-- Two values for one slot. -/
def crowded : Snapshot where
  nodes := [gatherRecord 1 "Gather" [], gatherRecord 2 "Gather" [], gatherRecord 3 "Gather" []]
  connections := [⟨1, "item", 3, "items", 1, .value⟩, ⟨2, "item", 3, "items", 1, .value⟩]

/-- The first value is lost, and the rebuild succeeds. -/
theorem rebuild_crowded : ∃ g, crowded.rebuild renamedCatalog 1 none = .ok g ∧
    (Snapshot.ofGraph g).connections = [⟨2, "item", 3, "items", 1, .value⟩] ∧
    ¬crowded.Restates renamedCatalog (Snapshot.ofGraph g) := by
  obtain ⟨g, hg⟩ : ∃ g, crowded.rebuild renamedCatalog 1 none = .ok g := ⟨_, rfl⟩
  have hstored : (Snapshot.ofGraph g).connections = [⟨2, "item", 3, "items", 1, .value⟩] := by
    obtain rfl := Except.ok.inj hg
    decide
  refine ⟨g, hg, hstored, fun hrestates => ?_⟩
  have hlength := hrestates.connections.length_eq
  rw [hstored] at hlength
  exact absurd hlength (by decide)

end EffectGraph
