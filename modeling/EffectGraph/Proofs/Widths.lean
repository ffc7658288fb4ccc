import EffectGraph.Proofs.Arity

/-!
# Edits settle the groups they touch

One lemma per edit: if all nodes are settled before it, they are settled after it. The nodes that a
change unsettles are those at the ends of the connections made or dropped, the node whose defaults
change, and the neighbours of Entry under a new signature; the edit reshapes exactly these.
-/

namespace EffectGraph

variable {κ : Type} [HasSignature κ]

namespace Graph

variable {g g' : Graph κ} {m : Node κ} {n : NodeId} {unshaped stale : List NodeId}

/-! ## Connections -/

theorem Steady.formed (h : g.Steady [] stale) (hm : m ∈ g.nodes) : g.Formed m :=
  (h.valid.shaped m hm List.not_mem_nil).formed

theorem Steady.resizedBy?_of_touches (h : g.Steady [] stale) (hm : m ∈ g.nodes) {d : PortDecl}
    (hd : m.DeclaresGroup d) {p : Port} (hp : p ∈ m.inputs) (hname : p.decl.name = d.name)
    (hslot : p.slot.isSome = true) {c : Connection} (hc : c ∈ g.connections)
    (ht : c.touches p.index = true) : g.resizedBy? c = some m.id := by
  obtain ⟨hkind, hdest⟩ := h.valid.wellFormed.value_of_touches hm (h.formed hm) (h.distinct m hm)
    hd hp hname hslot hc ht
  exact h.valid.wellFormed.resizedBy?_eq hm (hasVariadic_of_declaresGroup hd) hp hkind hdest

/-- Dropping connections drops none at a slot of a node that it does not resize. -/
theorem Steady.kept_of_touches (h : g.Steady [] stale) {p : Connection → Bool} (hm : m ∈ g.nodes)
    (hnot : m.id ∉ g.severed p) {d : PortDecl} (hd : m.DeclaresGroup d) {q : Port}
    (hq : q ∈ m.inputs) (hname : q.decl.name = d.name) (hslot : q.slot.isSome = true) :
    ∀ c ∈ g.connections, c.touches q.index = true → p c = false := by
  intro c hc ht
  have hres := h.resizedBy?_of_touches hm hd hq hname hslot hc ht
  cases hp : p c with
  | false => rfl
  | true => exact absurd (List.mem_filterMap.2 ⟨c, List.mem_filter.2 ⟨hc, hp⟩, hres⟩) hnot

/-- Dropping connections unsettles the nodes that it may resize. -/
theorem Steady.sever (h : g.Steady [] stale) (p : Connection → Bool) :
    (g.sever p).Steady [] (g.severed p ++ stale) := by
  refine ⟨h.valid.sever p, h.distinct, fun m hm hnot => ?_⟩
  simp only [List.mem_append, not_or] at hnot
  refine (h.settled m hm hnot.2).of_wired rfl rfl (fun _ _ => Iff.rfl) ?_
  intro d hd q hq hname hslot
  exact isWired_iff_of_filter rfl (h.kept_of_touches hm hnot.1 hd hq hname hslot)

/-- The node whose groups a new connection may resize. -/
def Joint.resizes (j : Joint) : List NodeId :=
  match j.kind with
  | .value => [j.destination.node]
  | .control => []

/-- A new connection unsettles the node that it leads to and those whose connections give way. -/
theorem Steady.linked (h : g.Steady [] stale) {j : Joint}
    (hj : g.Joins j.connection j.source j.destination) :
    (g.linked j).Steady [] (g.severed j.replaces ++ (j.resizes ++ stale)) := by
  have hv := h.valid.linked hj
  refine ⟨hv, h.distinct, fun m hm hnot => ?_⟩
  simp only [List.mem_append, not_or] at hnot
  refine (h.settled m hm hnot.2.2).of_wired rfl rfl (fun _ _ => Iff.rfl) ?_
  intro d hd q hq hname hslot
  -- The new connection does not end at the slot, or the node would be its destination.
  have hnew : j.connection.touches q.index = false := by
    by_contra ht
    obtain ⟨hkind, hdest⟩ := hv.wellFormed.value_of_touches hm
      (hv.shaped m hm List.not_mem_nil).formed (h.distinct m hm) hd hq hname hslot
      (List.mem_append_right _ (List.mem_singleton_self _)) (by simpa using ht)
    have he := h.valid.wellFormed.port_inj hj.destination_mem (input_mem_allPorts hm hq)
      (hj.destination_index.trans hdest)
    have hvalue : j.kind = .value := hkind
    exact hnot.2.1 (by simp [Joint.resizes, hvalue, he])
  have hkept := h.kept_of_touches hm hnot.1 hd hq hname hslot
  have hsevered : (g.linked j).isWired q.index = (g.sever j.replaces).isWired q.index := by
    simp [isWired, Graph.linked, Graph.sever, hnew]
  rw [hsevered]
  exact isWired_iff_of_filter rfl hkept

theorem Steady.connect (h : g.Steady [] stale) {a b : PortId} (hc : g.connect a b = .ok g') :
    g'.Steady [] stale := by
  obtain ⟨j, hj, rfl⟩ := connect_eq_ok.1 hc
  rcases join_eq g j with ⟨he, -⟩ | ⟨-, he⟩
  · rw [he]
    exact h
  · rw [he]
    refine Steady.refresh ?_
    have := h.linked (.of_checkConnection hj)
    rwa [← List.append_assoc] at this

theorem Steady.wire (h : g.Steady [] stale) {source destination : NodeId} {output input : String}
    (hw : g.wire source output destination input = .ok g') : g'.Steady [] stale := by
  obtain ⟨a, b, -, -, hc⟩ := wire_eq_ok.1 hw
  exact h.connect hc

/-- Dropping connections leaves all nodes settled but those excepted from the refresh. -/
theorem Steady.cut (h : g.Steady [] stale) (p : Connection → Bool) (except : List NodeId) :
    (g.cut p except).1.Steady [] (except ++ stale) := by
  refine Steady.refresh ((h.sever p).mono (fun _ hk => hk) fun k hk => ?_)
  by_cases he : k ∈ except
  · simp [he]
  · rcases List.mem_append.1 hk with hk | hk <;> simp [hk, he]

theorem Steady.without (h : g.Steady [] (n :: stale)) (hv : (g.without n).Valid []) :
    (g.without n).Steady [] stale := by
  refine ⟨hv, fun m hm => h.distinct m (List.mem_filter.1 hm).1, fun m hm hnot => ?_⟩
  obtain ⟨hm, hne⟩ := List.mem_filter.1 hm
  have hsettled := h.settled m hm (by simpa [hnot] using hne)
  exact hsettled.of_connections rfl

theorem Steady.removeNode (h : g.Steady [] stale) {r : Graph κ × Node κ}
    (hr : g.removeNode n = .ok r) : r.1.Steady [] stale := by
  have hv := h.valid.removeNode hr
  obtain ⟨m, -, -, hr⟩ := removeNode_eq_ok.1 hr
  rw [← hr] at hv ⊢
  exact (h.cut _ [n]).without hv

/-! ## Stored values -/

theorem distinct_updateNode (h : ∀ m ∈ g.nodes, m.Distinct) {f : Node κ → Node κ}
    (hkind : ∀ m, (f m).kind = m.kind) : ∀ k ∈ (g.updateNode n f).nodes, k.Distinct := by
  intro k hk
  obtain ⟨m, hm, rfl⟩ := mem_nodes_updateNode.1 hk
  split
  · exact fun a ha => h m hm a (hkind m ▸ ha)
  · exact h m hm

/-- A change of a node that keeps its ports, its kind and the slots that it keeps open. -/
theorem Steady.updateNode_keeping (h : g.Steady [] stale) {f : Node κ → Node κ}
    (hv : (g.updateNode n f).Valid []) (hkind : ∀ m, (f m).kind = m.kind)
    (hid : ∀ m, (f m).id = m.id) (hinputs : ∀ m, (f m).inputs = m.inputs)
    (hreserves : ∀ m group i, (f m).Reserves group i ↔ m.Reserves group i) :
    (g.updateNode n f).Steady [] stale := by
  refine ⟨hv, distinct_updateNode h.distinct hkind, fun k hk hnot => ?_⟩
  obtain ⟨m, hm, rfl⟩ := mem_nodes_updateNode.1 hk
  split at hnot
  next hmn =>
    rw [if_pos hmn]
    exact (h.settled m hm (hid m ▸ hnot)).of_wired (hkind m) (hinputs m) (hreserves m)
      fun _ _ _ _ _ _ => Iff.rfl
  next hmn =>
    rw [if_neg hmn]
    exact (h.settled m hm hnot).of_connections rfl

/-- A change of what a node stores, followed by a reshape of the node. -/
theorem Steady.reshape_updateNode (h : g.Steady [] stale) {f : Node κ → Node κ}
    (hid : ∀ m, (f m).id = m.id) (hinputs : ∀ m, (f m).inputs = m.inputs)
    (houtputs : ∀ m, (f m).outputs = m.outputs) (hkind : ∀ m, (f m).kind = m.kind)
    (hstored : ∀ m ∈ g.nodes, m.id = n → (f m).Stored) :
    ((g.updateNode n f).reshape n).Steady [] stale := by
  have hv := h.valid.updateNode (n := n) hid hinputs houtputs (fun m => .inl (hkind m)) hstored
  have hupdated : (g.updateNode n f).Steady [n] (n :: stale) := by
    refine ⟨hv, distinct_updateNode h.distinct hkind, fun k hk hnot => ?_⟩
    obtain ⟨m, hm, rfl⟩ := mem_nodes_updateNode.1 hk
    split at hnot
    next hmn => simp [hid, hmn] at hnot
    next hmn =>
      rw [if_neg hmn]
      simp only [List.mem_cons, not_or] at hnot
      exact (h.settled m hm hnot.2).of_connections rfl
  have hkeeps : (g.updateNode n f).Keeps n := hv.keeps_of_formed fun k hk _ => by
    obtain ⟨m, hm, rfl⟩ := mem_nodes_updateNode.1 hk
    split
    · exact (h.formed hm).congr rfl (hkind m) (hinputs m) (houtputs m)
    · exact (h.formed hm).congr rfl rfl rfl rfl
  exact (hupdated.reshape hkeeps).mono (by simp) fun _ hk => hk

theorem Steady.setPosition (h : g.Steady [] stale) {p : Position}
    (hp : g.setPosition n p = .ok g') : g'.Steady [] stale := by
  have hv := h.valid.setPosition hp
  obtain ⟨-, rfl⟩ := setPosition_eq_ok.1 hp
  exact h.updateNode_keeping hv (fun _ => rfl) (fun _ => rfl) (fun _ => rfl) fun _ _ _ => Iff.rfl

theorem Steady.setConst (h : g.Steady [] stale) {name : String} {v : Value}
    (hs : g.setConst n name v = .ok g') : g'.Steady [] stale := by
  have hv := h.valid.setConst hs
  obtain ⟨-, rfl⟩ := setConst_eq_ok.1 hs
  exact h.updateNode_keeping hv (fun _ => rfl) (fun _ => rfl) (fun _ => rfl) fun _ _ _ => Iff.rfl

/-- A change of the defaults under one key. -/
theorem Steady.updateDefaults (h : g.Steady [] stale) {k : SlotKey}
    {f : Table SlotKey Value → Table SlotKey Value}
    (hkeys : ∀ t, ∀ j, j ≠ k → (j ∈ (f t).keys ↔ j ∈ t.keys))
    (hv : ((g.updateNode n (.mapDefaults f)).reshapeIf n k.index.isSome).Valid [])
    (hstored : ∀ m ∈ g.nodes, m.id = n → (m.mapDefaults f).Stored) :
    ((g.updateNode n (.mapDefaults f)).reshapeIf n k.index.isSome).Steady [] stale := by
  unfold reshapeIf at hv ⊢
  cases hk : k.index with
  | none =>
    simp only [hk, Option.isSome_none, Bool.false_eq_true, if_false] at hv ⊢
    refine h.updateNode_keeping hv (fun _ => rfl) (fun _ => rfl) (fun _ => rfl) ?_
    intro m group i
    have hne : (⟨group, some i⟩ : SlotKey) ≠ k := fun he => by simp [← he] at hk
    exact or_congr_left (hkeys _ _ hne)
  | some i =>
    simp only [Option.isSome_some, if_true]
    exact h.reshape_updateNode (fun _ => rfl) (fun _ => rfl) (fun _ => rfl) (fun _ => rfl) hstored

theorem Steady.setDefault (h : g.Steady [] stale) {k : SlotKey} {v : Value}
    (hs : g.setDefault n k v = .ok g') : g'.Steady [] stale := by
  have hv := h.valid.setDefault hs
  obtain ⟨hcheck, rfl⟩ := setDefault_eq_ok.1 hs
  refine h.updateDefaults (f := (·.insert k v)) (fun t j hj => ?_) hv
    fun m hm hid => h.valid.stored_insertDefault v hcheck hm hid
  simp [Table.mem_keys_insert, hj]

theorem Steady.clearDefault (h : g.Steady [] stale) {k : SlotKey} {r : Graph κ × Option Value}
    (hc : g.clearDefault n k = .ok r) : r.1.Steady [] stale := by
  have hv := h.valid.clearDefault hc
  obtain ⟨-, m, -, rfl⟩ := clearDefault_eq_ok.1 hc
  refine h.updateDefaults (f := (·.erase k)) (fun t j hj => ?_) hv
    fun m hm _ => h.valid.stored_eraseDefault k hm
  simp [Table.mem_keys_erase, hj]

theorem Steady.hold (h : g.Steady [] stale) {group : String} {index : Nat}
    (hh : g.hold n group index = .ok g') : g'.Steady [] stale := by
  obtain ⟨hcheck, rfl⟩ := hold_eq_ok.1 hh
  obtain ⟨_, _, -, -, -, -, hlimit⟩ := checkSlot_eq_ok.1 hcheck
  exact h.reshape_updateNode (fun _ => rfl) (fun _ => rfl) (fun _ => rfl) (fun _ => rfl)
    fun m hm _ => h.valid.stored_raised (hlimit index rfl) hm

/-- Releasing the slots held open unsettles only the nodes that held some. -/
theorem Steady.unheld (h : g.Steady [] []) : g.unheld.Steady [] g.holding := by
  refine ⟨h.valid.unheld, fun k hk => ?_, fun k hk hnot => ?_⟩
  · obtain ⟨m, hm, rfl⟩ := mem_nodes_unheld.1 hk
    exact h.distinct m hm
  · obtain ⟨m, hm, rfl⟩ := mem_nodes_unheld.1 hk
    have hempty : m.held.isEmpty = true := by
      by_contra hne
      exact hnot (List.mem_map.2 ⟨m, List.mem_filter.2 ⟨hm, by simpa using hne⟩, rfl⟩)
    have hget : ∀ group, m.held.get? group = none := by
      intro group
      simp only [Table.isEmpty, List.isEmpty_iff] at hempty
      simp [Table.get?, hempty, lookupEntry]
    refine (h.settled m hm List.not_mem_nil).of_wired rfl rfl (fun group i => ?_)
      fun _ _ _ _ _ _ => Iff.rfl
    simp [Node.Reserves, hget]

theorem Steady.release (h : g.Steady [] []) : g.release.Steady [] [] := by
  refine foldl_settles (P := fun st g => g.Steady [] st) (f := Graph.reshape)
    (fun _ _ _ _ hg => hg.reshape (hg.valid.keeps List.not_mem_nil)) ?_
  rw [List.append_nil]
  exact h.unheld

/-! ## New nodes -/

/-- A node without ports has none to lose. -/
theorem loses_of_no_ports (hi : m.inputs = []) (ho : m.outputs = []) (c : Connection) :
    g.loses m c = false := by
  rw [loses, List.any_eq_false]
  intro p hp
  have hno : ∀ q : Port, q ∉ g.droppedPorts m := fun q hq => by
    rcases List.mem_append.1 hq with hq | hq
    · exact List.not_mem_nil (hi ▸ mem_old_of_mem_dropped hq)
    · exact List.not_mem_nil (ho ▸ mem_old_of_mem_dropped hq)
  exact absurd hp (hno p)

theorem Steady.addNodeAt (h : g.Steady unshaped stale) {kind : NodeKind κ}
    (hd : ∀ k, kind = .action k → (HasSignature.signature k).Distinct)
    (ha : g.addNodeAt n kind = .ok g') : g'.Steady unshaped stale := by
  obtain ⟨hpos, hfree, hkind, rfl⟩ := addNodeAt_eq_ok.1 ha
  obtain ⟨hentry, hresult⟩ := checkKind_eq_ok hkind
  have hv := h.valid.insertNode hfree hpos hentry hresult
  have hinserted : ({ g with nodes := Graph.insertNode (.fresh n kind) g.nodes } : Graph κ).Steady
      (n :: unshaped) (n :: stale) := by
    refine ⟨hv, fun m hm => ?_, fun m hm hnot => ?_⟩
    · rcases mem_insertNode.1 hm with rfl | hm
      · exact hd
      · exact h.distinct m hm
    · simp only [List.mem_cons, not_or] at hnot
      have hmg := (mem_insertNode.1 hm).resolve_left fun he => hnot.1 (he ▸ rfl)
      exact (h.settled m hmg hnot.2).of_connections rfl
  have hkeeps :
      ({ g with nodes := Graph.insertNode (.fresh n kind) g.nodes } : Graph κ).Keeps n := by
    intro m hm c _
    obtain ⟨hmem, hid⟩ := node?_mem hm
    rcases mem_insertNode.1 hmem with rfl | hmem
    · exact loses_of_no_ports rfl rfl c
    · exact absurd hid (node?_eq_none_iff.1 hfree m hmem)
  exact (hinserted.reshape hkeeps).mono (by simp +contextual) fun _ hk => hk

/-! ## Signatures -/

/-- The node that a lost connection may resize is of a kind with a group. -/
theorem hasVariadic_of_resizedBy? {c : Connection} {k : NodeId} (h : g.resizedBy? c = some k) :
    ∃ m ∈ g.nodes, m.id = k ∧ m.hasVariadic = true := by
  unfold resizedBy? at h
  cases hc : c.kind with
  | control => simp [hc] at h
  | value =>
    simp only [hc, Option.bind_eq_some_iff] at h
    obtain ⟨q, -, m, hm, hid⟩ := h
    split at hid
    next hv =>
      obtain rfl := Option.some.inj hid
      exact ⟨m, (node?_mem hm).1, rfl, hv⟩
    next => simp at hid

theorem not_hasVariadic (h : ∀ k, m.kind ≠ .action k) : m.hasVariadic = false := by
  cases hk : m.kind with
  | action k => exact absurd hk (h k)
  | entry => simp [Node.hasVariadic, Node.signature?, hk, NodeKind.action?]
  | result => simp [Node.hasVariadic, Node.signature?, hk, NodeKind.action?]

/-- Nodes of which none is out of shape may be reshaped one after another; no reshape spreads. -/
theorem Steady.reshapeNested {ns : List NodeId} (hns : ∀ k ∈ ns, k ∉ unshaped) (depth : Nat)
    (h : g.Steady unshaped (ns ++ stale)) : (reshapeNested depth g ns).Steady unshaped stale :=
  steady_iff_fitted.2 ((steady_iff_fitted.1 h).reshapeNested hns depth)

/-- The reshape of Entry or Return unsettles the nodes at the destinations of the connections that
it costs. -/
theorem Steady.reshapeOne_pseudo (h : g.Steady unshaped stale)
    (hpseudo : ∀ m ∈ g.nodes, m.id ∈ n :: unshaped → ∀ k, m.kind ≠ .action k) :
    (g.reshapeOne n).1.Steady (unshaped.filter (· ≠ n)) ((g.reshapeOne n).2 ++ stale) := by
  cases hn : g.node? n with
  | none =>
    have hv := h.valid.reshapeOne n
    rw [reshapeOne_of_none hn] at hv ⊢
    exact ⟨hv, h.distinct, h.settled⟩
  | some m₀ =>
    have hv := h.valid.reshapeOne n
    obtain ⟨hmem, hid⟩ := node?_mem hn
    have hkind := hpseudo m₀ hmem (by simp [hid])
    refine ⟨hv, fun m hm => ?_, fun m hm hnot d hd => ?_⟩
    · rcases (mem_nodes_reshapeOne h.valid.ascending hn).1 hm with ⟨hm, -⟩ | rfl
      · exact h.distinct m hm
      · exact fun k hk => absurd hk (hkind k)
    · simp only [List.mem_append, not_or] at hnot
      rcases (mem_nodes_reshapeOne h.valid.ascending hn).1 hm with ⟨hmg, hmn⟩ | rfl
      · refine (h.settled m hmg hnot.2).of_wired rfl rfl (fun _ _ => Iff.rfl) ?_ d hd
        intro d hd q hq hname hslot
        refine isWired_iff_of_filter (reshapeOne_connections hn) fun c hc ht => ?_
        have hshaped : g.Shaped m := h.valid.shaped m hmg fun hu => by
          obtain ⟨k, hk, -⟩ := hd
          exact hpseudo m hmg (List.mem_cons_of_mem _ hu) k hk
        obtain ⟨hvalue, hdest⟩ := h.valid.wellFormed.value_of_touches hmg hshaped.formed
          (h.distinct m hmg) hd hq hname hslot hc ht
        exact hv.wellFormed.not_loses hn hm hmn (hasVariadic_of_declaresGroup hd) hnot.1 hq hc
          hvalue hdest
      · obtain ⟨k, hk, -⟩ := hd
        exact absurd hk (hkind k)

theorem Steady.reshape_pseudo (h : g.Steady unshaped stale)
    (hpseudo : ∀ m ∈ g.nodes, m.id ∈ n :: unshaped → ∀ k, m.kind ≠ .action k) :
    (g.reshape n).Steady (unshaped.filter (· ≠ n)) stale := by
  have hone := h.reshapeOne_pseudo hpseudo
  -- The nodes reported are of kinds with a group, and those out of shape are pseudo-nodes.
  have hsnd : ∀ k ∈ (g.reshapeOne n).2, k ∉ unshaped := by
    intro k hk hu
    cases hn : g.node? n with
    | none => simp [reshapeOne_of_none hn] at hk
    | some m₀ =>
      obtain ⟨hkn, c, -, -, hres⟩ := (mem_reshapeOne_snd hn).1 hk
      obtain ⟨m, hm, rfl, hv⟩ := hasVariadic_of_resizedBy? hres
      rcases (mem_nodes_reshapeOne h.valid.ascending hn).1 hm with ⟨hm, -⟩ | rfl
      · rw [not_hasVariadic (hpseudo m hm (List.mem_cons_of_mem _ hu))] at hv
        exact Bool.noConfusion hv
      · exact hkn (node?_mem hn).2
  rcases reshape_eq g n with ⟨hnone, he⟩ | ⟨depth, he⟩
  · rw [he]
    refine hone.mono (fun _ hk => hk) fun k hk => (List.mem_append.1 hk).resolve_left fun hk => ?_
    cases hn : g.node? n with
    | none => simp [reshapeOne_of_none hn] at hk
    | some m₀ =>
      obtain ⟨-, c, hc, -⟩ := (mem_reshapeOne_snd hn).1 hk
      simp [hnone] at hc
  · rw [he]
    exact hone.reshapeNested (fun k hk hu => hsnd k hk (List.mem_filter.1 hu).1) depth

theorem Steady.ensure {present : Option NodeId} (h : g.Steady (present.toList ++ unshaped) stale)
    (hpseudo : ∀ m ∈ g.nodes, m.id ∈ present.toList ++ unshaped → ∀ k, m.kind ≠ .action k)
    {kind : NodeKind κ} (hkind : ∀ k, kind ≠ .action k) {r : Graph κ × Option NodeId}
    (he : g.ensure kind present = .ok r) : r.1.Steady unshaped stale := by
  rcases ensure_eq_ok.1 he with ⟨n, rfl, rfl⟩ | ⟨rfl, g', n, ha, rfl⟩
  · have h : g.Steady (n :: unshaped) stale := h
    refine (h.reshape_pseudo fun m hm hmem => hpseudo m hm ?_).mono (by simp +contextual)
      fun _ hk => hk
    simpa using hmem
  · have h : g.Steady unshaped stale := h
    exact h.addNodeAt (fun k hk => absurd hk (hkind k)) (addNode_eq_ok.1 ha).1

/-- The ids of Entry and Return are those of no action node. -/
theorem Valid.pseudo_not_action (h : g.Valid stale) (hm : m ∈ g.nodes)
    (hp : m.id ∈ g.entryNode?.toList ++ g.resultNode?.toList) : ∀ k, m.kind ≠ .action k := by
  intro k hk
  rcases List.mem_append.1 hp with hp | hp
  · obtain ⟨e, he, hid, hkind⟩ := mem_of_entryNode? (Option.mem_toList.1 hp)
    obtain rfl := h.ascending.id_inj he hm hid
    simp [hk] at hkind
  · obtain ⟨e, he, hid, hkind⟩ := mem_of_resultNode? (Option.mem_toList.1 hp)
    obtain rfl := h.ascending.id_inj he hm hid
    simp [hk] at hkind

theorem Steady.setSignature (h : g.Steady [] stale) {s : Signature}
    (hs : g.setSignature s = .ok g') : g'.Steady [] stale := by
  obtain ⟨r, r', hr, hr', hwire⟩ := setSignature_eq_ok.1 hs
  have hsigned : ({ g with signature := some s } : Graph κ).Steady
      (g.entryNode?.toList ++ g.resultNode?.toList) stale :=
    ⟨h.valid.signed s, h.distinct, fun m hm hnot => (h.settled m hm hnot).of_connections rfl⟩
  have hpseudo : ∀ m ∈ g.nodes, m.id ∈ g.entryNode?.toList ++ g.resultNode?.toList →
      ∀ k, m.kind ≠ .action k := fun m hm hp => h.valid.pseudo_not_action hm hp
  have h₁ := hsigned.ensure hpseudo (by simp) hr
  have hv₁ := h.valid.ensure_entry hr
  have h₁' : r.1.Steady (r.1.resultNode?.toList ++ []) stale :=
    ⟨hv₁, h₁.distinct, h₁.settled⟩
  have h₂ := h₁'.ensure (fun m hm hp => hv₁.pseudo_not_action hm (by simp_all)) (by simp) hr'
  rcases hwire with ⟨e, t, -, -, hwire⟩ | ⟨-, rfl⟩
  · exact h₂.wire hwire
  · exact h₂

theorem Steady.clone (h : g.Steady [] stale) (id : Nat) : (g.clone id).Steady [] stale :=
  ⟨h.valid.clone id, h.distinct, fun m hm hnot => (h.settled m hm hnot).of_connections rfl⟩

end Graph

end EffectGraph
