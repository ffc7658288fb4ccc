import EffectGraph.Proofs.Exact
import EffectGraph.Proofs.Placing

/-!
# A graph is rebuilt from its snapshot

While a graph is rebuilt it mirrors the original (`Mirrors`): the same nodes with the same stored
values, and ports that its kinds declare. The slots that connections end at are held open, so the
rebuilt graph has a port for each end of each record (`Mirrors.admits`). Records of one graph
exclude one another as little as its connections, so no connection that is restored displaces
another one, and the release of the slots costs none. The main result is that the rebuilt graph has
the snapshot that it was built from (`rebuild_ofGraph`).
-/

namespace EffectGraph

open EffectGraph.Graph

namespace Graph

variable {κ : Type} {g g' : Graph κ} {c : Connection} {s d : PlacedPort}

/-- Reshapes leave the ends of a connection that they keep as they are. -/
theorem Reshapes.joins (h : g.Reshapes g') (hg : g.WellFormed) (hg' : g'.WellFormed)
    (hc : c ∈ g'.connections) (hj : g.Joins c s d) : g'.Joins c s d := by
  obtain ⟨s', d', hj'⟩ := hg'.joined c hc
  -- A port under an old number is an old port, so it is the one that was there under it.
  have hsame : ∀ p ∈ g.allPorts, ∀ q ∈ g'.allPorts, p.port.index = q.port.index → p = q := by
    intro p hp q hq he
    have hused := hg.used p hp
    have hold := (h.ports q hq).resolve_right (by omega)
    exact hg.port_inj hp hold he
  have hs := hsame s hj.source_mem s' hj'.source_mem
    (hj.source_index.trans hj'.source_index.symm)
  have hd := hsame d hj.destination_mem d' hj'.destination_mem
    (hj.destination_index.trans hj'.destination_index.symm)
  rw [hs, hd]
  exact hj'

variable [HasSignature κ]

/-- A refresh costs no connection. -/
theorem Valid.connections_refresh (h : g.Valid []) (ns : List NodeId) :
    (g.refresh ns).connections = g.connections :=
  (refresh_induct (P := fun k => k.Valid [] ∧ k.connections = g.connections)
    (fun _ n hk => ⟨hk.1.reshapeOne_mono n,
      (hk.1.keeps List.not_mem_nil).connections_reshapeOne.trans hk.2⟩) ⟨h, rfl⟩ ns).2

/-- The release of the slots held open costs no connection. -/
theorem Valid.connections_release (h : g.Valid []) : g.release.connections = g.connections :=
  (List.foldlRecOn (motive := fun k => Valid [] k ∧ k.connections = g.connections) g.holding _
    ⟨h.unheld, rfl⟩ fun _ hk n _ => ⟨(hk.1.reshape n).mono fun _ hm => (List.mem_filter.1 hm).1,
      (hk.1.keeps List.not_mem_nil).connections_reshape.trans hk.2⟩).2

omit [HasSignature κ] in
/-- A connection that gives way to another one has a record that excludes that of the other one. -/
theorem WellFormed.excludes_of_replaces (hg : g.WellFormed) {j : Joint}
    (hj : g.Joins j.connection j.source j.destination) {r : ConnectionRecord}
    (hr : g.Described c r) (hrep : j.replaces c = true) :
    r.Excludes (.ofEnds j.kind j.source j.destination) := by
  obtain ⟨s, d, hc, rfl⟩ := hr
  unfold Joint.replaces at hrep
  cases hk : j.kind with
  | value =>
    simp only [hk, decide_eq_true_eq] at hrep
    have hd := hg.port_inj hc.destination_mem hj.destination_mem
      (hc.destination_index.trans (hrep.trans hj.destination_index.symm))
    subst hd
    have hkind : c.kind = .value := by
      cases hck : c.kind with
      | value => rfl
      | control =>
        have := hj.destination_control.1 (hc.destination_control.2 hck)
        simp [Joint.connection, hk] at this
    exact ⟨hkind, .inl ⟨hkind, rfl, rfl, rfl⟩⟩
  | control =>
    simp only [hk, decide_eq_true_eq] at hrep
    have hs := hg.port_inj hc.source_mem hj.source_mem
      (hc.source_index.trans (hrep.trans hj.source_index.symm))
    subst hs
    have hkind : c.kind = .control := hc.source_control.1 (hj.source_control.2 hk)
    exact ⟨hkind, .inr ⟨hkind, rfl, rfl⟩⟩

omit [HasSignature κ] in
/-- The ends of a connection are oriented as they are joined. -/
theorem orient?_of_joins {kind : ConnectionKind} {a b : Nat} (h : g.Joins ⟨kind, a, b⟩ s d) :
    orient? s d = some ⟨s, d, kind⟩ := by
  have hs := h.source_control
  have hd := h.destination_control
  simp only [orient?, PlacedPort.role, h.source_output, h.destination_input]
  cases kind <;> cases hsc : s.port.decl.isControl <;> cases hdc : d.port.decl.isControl <;>
    simp_all [PortRole.of]

end Graph

namespace Snapshot

variable {c : Catalog} {g G : Graph Definition} {r : ConnectionRecord}

/-! ## The graph that is rebuilt -/

/-- A graph has the nodes of another one up to their ports and the slots they hold open. Only
pseudo-nodes depend on the signature of the definition that owns it. -/
structure Mirrors (g G : Graph Definition) : Prop where
  valid : G.Valid []
  core : G.nodes.map Node.core = g.nodes.map Node.core
  hook : G.hook = g.hook
  owner : (∀ m ∈ g.nodes, ∃ d, m.kind = .action d) ∨ G.signature = g.signature

theorem Mirrors.image (h : Mirrors g G) {m : Node Definition} (hm : m ∈ g.nodes) :
    ∃ k ∈ G.nodes, k.id = m.id ∧ k.kind = m.kind := by
  have hmem : m.core ∈ G.nodes.map Node.core := h.core ▸ List.mem_map_of_mem hm
  obtain ⟨k, hk, he⟩ := List.mem_map.1 hmem
  exact ⟨k, hk, (Node.mk.inj he).1, (Node.mk.inj he).2.1⟩

theorem Mirrors.origin (h : Mirrors g G) {k : Node Definition} (hk : k ∈ G.nodes) :
    ∃ m ∈ g.nodes, m.id = k.id ∧ m.kind = k.kind := by
  have hmem : k.core ∈ g.nodes.map Node.core := h.core ▸ List.mem_map_of_mem hk
  obtain ⟨m, hm, he⟩ := List.mem_map.1 hmem
  exact ⟨m, hm, (Node.mk.inj he).1, (Node.mk.inj he).2.1⟩

theorem Mirrors.addressable_nodes (h : Mirrors g G) (ha : ∀ m ∈ g.nodes, m.Addressable) :
    ∀ k ∈ G.nodes, k.Addressable := by
  intro k hk
  obtain ⟨m, hm, -, hkind⟩ := h.origin hk
  obtain ⟨d, hd, hs⟩ := ha m hm
  exact ⟨d, hkind.symm.trans hd, hs⟩

theorem Mirrors.addressable (h : Mirrors g G) (ha : g.Addressable) : G.Addressable := by
  intro k hk
  obtain ⟨m, hm, -, hkind⟩ := h.origin hk
  have hm' := ha m hm
  rw [hkind] at hm'
  rcases h.owner with haction | hs
  · obtain ⟨d, hd⟩ := haction m hm
    rw [hkind.symm.trans hd] at hm' ⊢
    exact hm'
  · rw [hs]
    exact hm'

/-- Nodes of one kind want the same outputs in both graphs. -/
theorem Mirrors.wantedOutputs_eq (h : Mirrors g G) {m k : Node Definition} (hm : m ∈ g.nodes)
    (hkind : k.kind = m.kind) : G.wantedOutputs k = g.wantedOutputs m := by
  rcases h.owner with haction | hs
  · obtain ⟨d, hd⟩ := haction m hm
    simp only [wantedOutputs, hkind, hd]
  · simp only [wantedOutputs, hkind, hs]

/-- Nodes of one kind have the same inputs in both graphs if their groups are as wide. -/
theorem Mirrors.inputShape_eq (h : Mirrors g G) {m k : Node Definition} (hm : m ∈ g.nodes)
    (hkind : k.kind = m.kind) (w : String → Nat) : G.inputShape k w = g.inputShape m w := by
  rcases h.owner with haction | hs
  · obtain ⟨d, hd⟩ := haction m hm
    simp only [inputShape, hkind, hd]
  · simp only [inputShape, hkind, hs]

/-- Reshapes of a graph with the nodes of another one lead to such a graph. -/
theorem Mirrors.of_reshapes {G' : Graph Definition}
    (hcore : G.nodes.map Node.core = g.nodes.map Node.core) (hhook : G.hook = g.hook)
    (howner : (∀ m ∈ g.nodes, ∃ d, m.kind = .action d) ∨ G.signature = g.signature)
    (hr : G.Reshapes G') (hv : G'.Valid []) : Mirrors g G' :=
  ⟨hv, hr.cores.trans hcore, hr.hook.trans hhook, howner.imp_right hr.signature.trans⟩

/-- A slot of a group is held open at a node, or a higher one is. -/
def Holds (G : Graph Definition) (n : NodeId) (group : String) (i : Nat) : Prop :=
  ∃ m ∈ G.nodes, m.id = n ∧ ∃ j, m.held.get? group = some j ∧ i ≤ j

theorem Holds.of_reshapes {G' : Graph Definition} {n : NodeId} {group : String} {i : Nat}
    (h : Holds G n group i) (hr : G.Reshapes G') : Holds G' n group i := by
  obtain ⟨m, hm, hid, j, hj, hij⟩ := h
  obtain ⟨k, hk, he⟩ := hr.image hm
  exact ⟨k, hk, (congrArg Node.id he).trans hid, j, (congrArg (·.held.get? group) he).trans hj,
    hij⟩

/-! ## Ports for the ends of a record -/

/-- The record can be restored: it is that of a connection that may be made. -/
def Admits (G : Graph Definition) (r : ConnectionRecord) : Prop :=
  ∃ s d, G.Joins ⟨r.kind, s.port.index, d.port.index⟩ s d ∧ r = .ofEnds r.kind s d

section Ends

variable (hg : g.Valid [])

include hg in
theorem Mirrors.exists_output (h : Mirrors g G) {s : PlacedPort} (hs : s ∈ g.allPorts)
    (hout : s.direction = .output) : ∃ s' ∈ G.allPorts, s'.node = s.node ∧
      s'.direction = .output ∧ s'.port.spec = s.port.spec := by
  obtain ⟨m, hm, hid, hp⟩ := exists_of_output hs hout
  obtain ⟨k, hk, hkid, hkk⟩ := h.image hm
  have hspecs : k.outputs.map Port.spec = m.outputs.map Port.spec := by
    rw [(h.valid.shaped k hk List.not_mem_nil).outputs, (hg.shaped m hm List.not_mem_nil).outputs,
      h.wantedOutputs_eq hm hkk]
  obtain ⟨p, hpk, hspec⟩ := List.mem_map.1 (hspecs ▸ List.mem_map_of_mem (f := Port.spec) hp)
  exact ⟨_, output_mem_allPorts hk hpk, hkid.trans hid.symm, rfl, hspec⟩

include hg in
/-- A slot that is held open, or any higher one, is there. -/
theorem Mirrors.exists_input (h : Mirrors g G) {d : PlacedPort} (hd : d ∈ g.allPorts)
    (hin : d.direction = .input)
    (hholds : ∀ i, d.port.slot = some i → Holds G d.node d.port.decl.name i) :
    ∃ d' ∈ G.allPorts, d'.node = d.node ∧ d'.direction = .input ∧
      d'.port.spec = d.port.spec := by
  obtain ⟨m, hm, hid, hp⟩ := exists_of_input hd hin
  obtain ⟨k, hk, hkid, hkk⟩ := h.image hm
  obtain ⟨w, hw, -⟩ := (hg.shaped m hm List.not_mem_nil).inputs
  obtain ⟨w', hw', -, hcover⟩ := (h.valid.shaped k hk List.not_mem_nil).inputs
  -- The width of the group covers the slot, since the slot is held open.
  have hwide : ∀ i, d.port.spec.slot = some i → i < w' d.port.spec.decl.name := by
    intro i hi
    obtain ⟨k', hk', hid', j, hj, hij⟩ := hholds i hi
    have hsame : k'.id = k.id := hid'.trans (hid.trans hkid.symm)
    obtain rfl := h.valid.ascending.id_inj hk' hk hsame
    exact Nat.lt_of_le_of_lt hij (hcover _ j (.inr hj))
  have hshape : k.inputs.map Port.spec = g.inputShape m w' := hw'.trans (h.inputShape_eq hm hkk w')
  -- The original has the port, so the shape at the new width has it as often at least.
  have hcount := count_inputShape_le (g := g) (n := m) (w := w) hwide
  have hpos := List.one_le_count_iff.2 (hw ▸ List.mem_map_of_mem (f := Port.spec) hp)
  have hmem : d.port.spec ∈ k.inputs.map Port.spec := by
    rw [hshape]
    exact List.one_le_count_iff.1 (Nat.le_trans hpos hcount)
  obtain ⟨p, hpk, hspec⟩ := List.mem_map.1 hmem
  exact ⟨_, input_mem_allPorts hk hpk, hkid.trans hid.symm, rfl, hspec⟩

include hg in
/-- The record of a connection can be restored once the slot that it ends at is held open. -/
theorem Mirrors.admits (h : Mirrors g G) {c : Connection} (hr : g.Described c r)
    (hholds : ∀ i, slotOf r = some i → Holds G ⟨r.destNode⟩ r.destPort i) : Admits G r := by
  obtain ⟨s, d, hj, rfl⟩ := hr
  rw [slotOf_ofEnds _ _ (hg.slots d hj.destination_mem)] at hholds
  obtain ⟨s', hs', hsn, hsd, hspec⟩ := h.exists_output hg hj.source_mem hj.source_output
  obtain ⟨d', hd', hdn, hdd, hdspec⟩ :=
    h.exists_input hg hj.destination_mem hj.destination_input hholds
  have hsdecl : s'.port.decl = s.port.decl := congrArg PortSpec.decl hspec
  have hddecl : d'.port.decl = d.port.decl := congrArg PortSpec.decl hdspec
  have hdslot : d'.port.slot = d.port.slot := congrArg PortSpec.slot hdspec
  refine ⟨s', d', ⟨hs', hd', rfl, rfl, hsd, hdd, ?_, ?_, ?_, ?_⟩, ?_⟩
  · rw [hsn, hdn]
    exact hj.nodes_ne
  · rw [hsdecl]
    exact hj.source_control
  · rw [hddecl]
    exact hj.destination_control
  · rw [hsdecl, hddecl, h.hook]
    exact hj.feeds
  · simp only [ConnectionRecord.ofEnds, hsn, hdn, hsdecl, hddecl, hdslot]

end Ends

/-! ## Holding slots open -/

theorem get?_held_raised (m : Node Definition) (group : String) (i : Nat) :
    ∃ j, (raised group i m).held.get? group = some j ∧ i ≤ j :=
  ⟨max ((m.held.get? group).getD i) i, by simp [raised], Nat.le_max_right _ _⟩

/-- Holding a slot open lets go of no slot that is held open. -/
theorem Holds.raised {n n' : NodeId} {group name : String} {i j : Nat} (h : Holds G n name j) :
    Holds (G.updateNode n' (raised group i)) n name j := by
  obtain ⟨m, hm, hid, l, hl, hjl⟩ := h
  refine ⟨_, mem_nodes_updateNode.2 ⟨m, hm, rfl⟩, ?_⟩
  by_cases hn : m.id = n'
  · rw [if_pos hn]
    refine ⟨hid, ?_⟩
    by_cases hname : name = group
    · subst hname
      exact ⟨max l i, by simp [Graph.raised, hl], by omega⟩
    · exact ⟨l, by simp [Graph.raised, hname, hl], hjl⟩
  · rw [if_neg hn]
    exact ⟨hid, l, hl, hjl⟩

/-- Holding a slot open raises what a node holds open and reshapes it. -/
theorem Mirrors.of_hold (h : Mirrors g G) {G' : Graph Definition} {n : NodeId} {group : String}
    {i : Nat} (hhold : G.hold n group i = .ok G') (hnone : G.connections = []) :
    Mirrors g G' ∧ G'.connections = [] ∧ (G.updateNode n (raised group i)).Reshapes G' := by
  have hv := h.valid.hold hhold
  obtain ⟨-, rfl⟩ := hold_eq_ok.1 hhold
  have hwf : (G.updateNode n (raised group i)).WellFormed :=
    h.valid.wellFormed.updateNode (fun _ => rfl) (fun _ => rfl) fun _ => rfl
  have hreshapes := reshapes_reshape hwf n
  have hcore : (G.updateNode n (raised group i)).nodes.map Node.core =
      g.nodes.map Node.core := by
    rw [← h.core]
    simp only [Graph.updateNode, List.map_map]
    refine List.map_congr_left fun k _ => ?_
    by_cases hk : k.id = n <;> simp [hk, Node.core, Node.bare, raised]
  exact ⟨.of_reshapes hcore h.hook h.owner hreshapes hv,
    List.sublist_nil.1 (hnone ▸ hreshapes.connections), hreshapes⟩

/-- A slot of a group that the kind of its node declares can be held open. -/
theorem Mirrors.hold (h : Mirrors g G) {m : Node Definition} (hm : m ∈ g.nodes) {a : Definition}
    (hkind : m.kind = .action a) {p : PortDecl} (hp : a.signature.input? p.name = some p)
    (hgroup : p.isVariadic = true) {i : Nat} (hi : i < slotLimit) (hnone : G.connections = []) :
    ∃ G', G.hold m.id p.name i = .ok G' ∧ Mirrors g G' ∧ G'.connections = [] ∧
      Holds G' m.id p.name i ∧ ∀ n name j, Holds G n name j → Holds G' n name j := by
  obtain ⟨k, hk, hkid, hkk⟩ := h.image hm
  have hkindk : k.kind = .action a := hkk.trans hkind
  have hdecl : G.slotDecl? k p.name = some p := by
    simp only [slotDecl?, hkindk]
    exact hp
  have hcheck : G.checkSlot m.id ⟨p.name, some i⟩ = .ok true :=
    checkSlot_eq_ok.2 ⟨k, p, hkid ▸ node?_of_mem h.valid.ascending hk, hdecl, hgroup, rfl,
      fun j hj => Option.some.inj hj ▸ hi⟩
  have hhold : G.hold m.id p.name i = .ok _ := hold_eq_ok.2 ⟨hcheck, rfl⟩
  obtain ⟨hmirrors, hnone', hreshapes⟩ := h.of_hold hhold hnone
  refine ⟨_, hhold, hmirrors, hnone', ?_, ?_⟩
  · refine Holds.of_reshapes ⟨_, mem_nodes_updateNode.2 ⟨k, hk, rfl⟩, ?_⟩ hreshapes
    rw [if_pos hkid]
    exact ⟨hkid, get?_held_raised k p.name i⟩
  · exact fun n name j hj => hj.raised.of_reshapes hreshapes

/-- The slot that a record ends at is one of a group that the kind of its node declares. -/
theorem group_of_slotOf (hg : g.Valid []) (ha : g.Addressable) {c : Connection}
    (hr : g.Described c r) {i : Nat} (hi : slotOf r = some i) :
    ∃ m ∈ g.nodes, m.id = ⟨r.destNode⟩ ∧ ∃ a p, m.kind = .action a ∧ p.name = r.destPort ∧
      a.signature.input? p.name = some p ∧ p.isVariadic = true ∧ i < slotLimit := by
  obtain ⟨s, d, hj, rfl⟩ := hr
  rw [slotOf_ofEnds _ _ (hg.slots d hj.destination_mem)] at hi
  obtain ⟨m, hm, hid, hp⟩ := exists_of_input hj.destination_mem hj.destination_input
  obtain ⟨w, hw, -⟩ := (hg.shaped m hm List.not_mem_nil).inputs
  obtain ⟨-, a, hkind, hdecl, hgroup⟩ :=
    mem_inputShape (hw ▸ List.mem_map_of_mem (f := Port.spec) hp) hi
  have hs : a.signature.Addressable := by
    have hm' := ha m hm
    rwa [hkind] at hm'
  have hfind := find?_of_nodup_map (List.nodup_cons.1 hs.inputs).2 hdecl
    (p := fun q => q.name = d.port.decl.name) (fun q => by simp [Port.spec])
  exact ⟨m, hm, hid.symm, a, d.port.decl, hkind, rfl, hfind, hgroup,
    hg.slots d hj.destination_mem i hi⟩

/-- The slots that connections of the original end at can be held open. -/
theorem Mirrors.holdSlots (hg : g.Valid []) (ha : g.Addressable)
    {rs : List ConnectionRecord} (hrs : ∀ r ∈ rs, ∃ c, g.Described c r) (h : Mirrors g G)
    (hnone : G.connections = []) :
    ∃ G', holdSlots rs G = .ok G' ∧ Mirrors g G' ∧ G'.connections = [] ∧
      (∀ r ∈ rs, ∀ i, slotOf r = some i → Holds G' ⟨r.destNode⟩ r.destPort i) ∧
      ∀ n name j, Holds G n name j → Holds G' n name j := by
  induction rs generalizing G with
  | nil => exact ⟨G, rfl, h, hnone, by simp, fun _ _ _ hj => hj⟩
  | cons r rs ih =>
    have hrest := fun x hx => hrs x (.tail r hx)
    cases hslot : slotOf r with
    | none =>
      obtain ⟨G', hG', hm, hnone', hheld, hkeep⟩ := ih hrest h hnone
      refine ⟨G', by simp only [Snapshot.holdSlots, hslot, hG'], hm, hnone', ?_, hkeep⟩
      intro x hx i hi
      rcases List.mem_cons.1 hx with rfl | hx
      · simp [hslot] at hi
      · exact hheld x hx i hi
    | some i =>
      obtain ⟨c, hc⟩ := hrs r (.head _)
      obtain ⟨m, hm, hid, a, p, hkind, hname, hp, hgroup, hi⟩ := group_of_slotOf hg ha hc hslot
      obtain ⟨G₁, h₁, hm₁, hnone₁, hheld₁, hkeep₁⟩ := h.hold hm hkind hp hgroup hi hnone
      rw [hid, hname] at h₁ hheld₁
      obtain ⟨G', hG', hm', hnone', hheld, hkeep⟩ := ih hrest hm₁ hnone₁
      refine ⟨G', ?_, hm', hnone', ?_, fun n name j hj => hkeep _ _ _ (hkeep₁ _ _ _ hj)⟩
      · simp only [Snapshot.holdSlots, hslot]
        exact bind_eq_ok.2 ⟨G₁, h₁, hG'⟩
      · intro x hx j hj
        rcases List.mem_cons.1 hx with rfl | hx
        · obtain rfl : i = j := by simpa [hslot] using hj
          exact hkeep _ _ _ hheld₁
        · exact hheld x hx j hj

/-! ## Restoring connections -/

/-- The graph that is rebuilt, with the connections of the given records restored. -/
structure Restored (g G : Graph Definition) (rs : List ConnectionRecord) : Prop where
  mirrors : Mirrors g G
  records : G.connections.filterMap (ConnectionRecord.ofConnection? G) = rs
  holds : ∀ r ∈ g.records, ∀ i, slotOf r = some i → Holds G ⟨r.destNode⟩ r.destPort i

/-- The record of a connection that is there is one of those restored. -/
theorem Restored.described_mem {rs : List ConnectionRecord} (h : Restored g G rs) {c : Connection}
    (hc : c ∈ G.connections) : ∃ r ∈ rs, G.Described c r := by
  obtain ⟨s, d, hj⟩ := h.mirrors.valid.wellFormed.joined c hc
  refine ⟨.ofEnds c.kind s d, ?_, s, d, hj, rfl⟩
  rw [← h.records]
  exact List.mem_filterMap.2 ⟨c, hc, h.mirrors.valid.wellFormed.ofConnection?_eq hj⟩

/-- The new connection is stored as its record, and the others as before. -/
theorem Restored.linked {rs : List ConnectionRecord} (h : Restored g G rs) {j : Joint}
    (hj : G.Joins j.connection j.source j.destination)
    (hkept : ∀ c ∈ G.connections, j.replaces c = false) (ns : List NodeId) :
    Restored g ((G.linked j).refresh ns) (rs ++ [.ofEnds j.kind j.source j.destination]) := by
  have hv := h.mirrors.valid.linked hj
  have hreshapes := reshapes_refresh hv.wellFormed ns
  have hconnections : ((G.linked j).refresh ns).connections = G.connections ++ [j.connection] := by
    rw [hv.connections_refresh]
    simp only [Graph.linked, Graph.sever]
    rw [List.filter_eq_self.2 fun c hc => by simp [hkept c hc]]
  have hwf := (hv.refresh ns).wellFormed
  -- Whatever is joined before the refresh has the same ends, hence the same record, after it.
  have hrecord : ∀ c s d, c ∈ G.connections ++ [j.connection] → G.Joins c s d →
      ConnectionRecord.ofConnection? ((G.linked j).refresh ns) c = some (.ofEnds c.kind s d) := by
    intro c s d hc hjoins
    rw [← hconnections] at hc
    exact hwf.ofConnection?_eq (hreshapes.joins hv.wellFormed hwf hc { hjoins with })
  refine ⟨.of_reshapes (G := G.linked j) h.mirrors.core h.mirrors.hook h.mirrors.owner hreshapes
    (hv.refresh ns),
    ?_, fun r hr i hi => Holds.of_reshapes (G := G.linked j) (h.holds r hr i hi) hreshapes⟩
  rw [hconnections, List.filterMap_append]
  congr 1
  · rw [← h.records]
    refine List.filterMap_congr fun c hc => ?_
    obtain ⟨s, d, hjoins⟩ := h.mirrors.valid.wellFormed.joined c hc
    rw [hrecord c s d (List.mem_append_left _ hc) hjoins,
      h.mirrors.valid.wellFormed.ofConnection?_eq hjoins]
  · have hnew := hrecord j.connection j.source j.destination
      (List.mem_append_right _ (.head _)) hj
    rw [List.filterMap_cons_some hnew]
    rfl

/-- A record that none of those restored excludes is restored, and no connection gives way to it. -/
theorem Restored.restoreConnection {rs : List ConnectionRecord} (h : Restored g G rs)
    (ha : g.Addressable) (hadmits : Admits G r)
    (hfree : ∀ x ∈ rs, ¬x.Excludes r) :
    ∃ G', restoreConnection G r = .ok G' ∧ Restored g G' (rs ++ [r]) := by
  obtain ⟨s, d, hj, hr⟩ := hadmits
  have hv := h.mirrors.valid
  have hak := h.mirrors.addressable ha
  let j : Joint := ⟨s, d, r.kind⟩
  have hjoin : G.Joins j.connection j.source j.destination := hj
  -- A connection that gave way would have a record that excludes the new one.
  have hkept : ∀ c ∈ G.connections, j.replaces c = false := by
    intro c hc
    by_contra hrep
    obtain ⟨x, hx, hdx⟩ := h.described_mem hc
    have hex := hv.wellFormed.excludes_of_replaces hjoin hdx (by simpa using hrep)
    exact hfree x hx (hr ▸ hex)
  have hsource : G.output? ⟨r.sourceNode⟩ r.sourcePort = some (G.portId s.port.index) := by
    rw [hr]
    exact hv.output?_eq hak hj.source_mem hj.source_output
  have hdestination : G.input? ⟨r.destNode⟩ r.destPort (slotOf r) =
      some (G.portId d.port.index) := by
    rw [hr, slotOf_ofEnds _ _ (hv.slots d hj.destination_mem)]
    exact hv.input?_eq hak hj.destination_mem hj.destination_input
  have hcheck : G.checkConnection (G.portId s.port.index) (G.portId d.port.index) = .ok j :=
    checkConnection_eq_ok.2 ⟨s, d, hv.wellFormed.port?_portId hj.source_mem,
      hv.wellFormed.port?_portId hj.destination_mem, hj.nodes_ne, orient?_of_joins hj, hj.feeds⟩
  have hkind : (if s.port.decl.isControl then ConnectionKind.control else .value) = r.kind := by
    cases hk : r.kind with
    | control => exact if_pos (hj.source_control.2 hk)
    | value => exact if_neg fun hc => by simpa [hk] using hj.source_control.1 hc
  -- The connection is not there yet, or it would give way to itself.
  have hjoined : ∃ ns, G.join j = (G.linked j).refresh ns := by
    rcases join_eq G j with ⟨-, c, hc, hcs, hcd⟩ | ⟨-, he⟩
    · have hrep := hkept c hc
      unfold Joint.replaces at hrep
      split at hrep
      · simp [hcd] at hrep
      · simp [hcs] at hrep
    · exact ⟨_, he⟩
  obtain ⟨ns, hns⟩ := hjoined
  refine ⟨G.join j, restoreConnection_eq_ok.2 ⟨_, _, s, hsource, hdestination,
    hv.wellFormed.port?_portId hj.source_mem, hkind, connect_eq_ok.2 ⟨j, hcheck, rfl⟩⟩, ?_⟩
  have hlinked := h.linked hjoin hkept ns
  rwa [← hns, ← hr] at hlinked

/-- Records of the original are restored in turn. -/
theorem Restored.restoreConnections (ha : g.Addressable) (hg : g.Valid [])
    {done rs : List ConnectionRecord} (hrecords : g.records = done ++ rs)
    (h : Restored g G done) :
    ∃ G', restoreConnections rs G = .ok G' ∧ Restored g G' g.records := by
  induction rs generalizing done G with
  | nil =>
    rw [List.append_nil] at hrecords
    exact ⟨G, rfl, hrecords ▸ h⟩
  | cons r rs ih =>
    have hmem : r ∈ g.records := hrecords ▸ List.mem_append_right _ (.head _)
    obtain ⟨c, -, hc⟩ := hg.wellFormed.described_of_mem_records hmem
    have hfree : ∀ x ∈ done, ¬x.Excludes r := by
      have hpairwise := hg.pairwise_records ha
      rw [hrecords] at hpairwise
      exact fun x hx => (List.pairwise_append.1 hpairwise).2.2 x hx r (.head _)
    obtain ⟨G₁, h₁, hr₁⟩ :=
      h.restoreConnection ha (h.mirrors.admits hg hc (h.holds r hmem)) hfree
    obtain ⟨G', hG', hr'⟩ := ih (by rw [hrecords, List.append_assoc]; rfl) hr₁
    exact ⟨G', bind_eq_ok.2 ⟨G₁, h₁, hG'⟩, hr'⟩

/-- The release of the slots held open changes ports and held slots only. -/
theorem Mirrors.release (h : Mirrors g G) : Mirrors g G.release := by
  have hreshapes := h.valid.reshapes_release
  refine ⟨h.valid.release, hreshapes.cores.trans (Eq.trans ?_ h.core), hreshapes.hook.trans h.hook,
    h.owner.imp_right hreshapes.signature.trans⟩
  simp only [unheld, List.map_map]
  rfl

/-- The release of the slots held open leaves nodes and connections as they are stored. -/
theorem Restored.ofGraph_release {rs : List ConnectionRecord} (h : Restored g G rs) :
    (ofGraph G.release).nodes = (ofGraph g).nodes ∧
      (ofGraph G.release).connections = sortRecords rs := by
  have hv := h.mirrors.valid
  have hreshapes := hv.reshapes_release
  have hcore := h.mirrors.release.core
  constructor
  · have hnodes : ∀ ns : List (Node Definition),
        ns.map NodeRecord.ofNode = (ns.map Node.core).map NodeRecord.ofNode := by
      intro ns
      rw [List.map_map]
      rfl
    simp only [ofGraph]
    rw [hnodes, hcore, ← hnodes]
  · simp only [ofGraph, hv.connections_release]
    rw [← h.records]
    congr 1
    refine List.filterMap_congr fun c hc => ?_
    obtain ⟨s, d, hj⟩ := hv.wellFormed.joined c hc
    have hports : G.unheld.allPorts = G.allPorts := allPorts_unheld
    have hunheld : G.unheld.Joins c s d := { hj with
      source_mem := hports ▸ hj.source_mem
      destination_mem := hports ▸ hj.destination_mem }
    have hreleased := hreshapes.joins hv.unheld.wellFormed hv.release.wellFormed
      (hv.connections_release ▸ hc) hunheld
    rw [hv.release.wellFormed.ofConnection?_eq hreleased, hv.wellFormed.ofConnection?_eq hj]

/-- The release of the slots held open leaves the snapshot as it is. -/
theorem Restored.ofGraph_eq (h : Restored g G g.records) : ofGraph G.release = ofGraph g := by
  obtain ⟨hnodes, hconnections⟩ := h.ofGraph_release
  have hsorted : (ofGraph G.release).connections = (ofGraph g).connections :=
    hconnections.trans (sortRecords_sortRecords _)
  exact Snapshot.mk.injEq .. ▸ ⟨hnodes, hsorted⟩

/-- A valid graph with the standard hook, whose kinds tell their ports apart and all of whose nodes
can be placed again, is rebuilt with all its connections. -/
theorem exists_restored (hg : g.Valid []) (hhook : g.hook = .standard) (ha : g.Addressable)
    {owner : Option Signature} (hnodes : ∀ n ∈ g.nodes, n.Restorable c owner)
    (howner : (∀ m ∈ g.nodes, ∃ d, m.kind = .action d) ∨ owner = g.signature) (id : Nat) :
    ∃ G, (ofGraph g).rebuild c id owner = .ok G.release ∧ Restored g G g.records := by
  have hordered : ([] ++ g.nodes : List (Node Definition)).Pairwise Precedes := hg.precedes
  obtain ⟨G₁, h₁, hp₁⟩ := Placed.placeNodes (fun n hn => ⟨hg.positive n hn, hnodes n hn⟩) hordered
    (Placed.canvas id owner)
  have hm₁ : Mirrors g G₁ := ⟨hp₁.valid, hp₁.cores, hp₁.hook.trans hhook.symm,
    howner.imp_right hp₁.signature.trans⟩
  have hdescribed : ∀ r ∈ g.records, ∃ c, g.Described c r := fun r hr =>
    let ⟨c, _, hc⟩ := hg.wellFormed.described_of_mem_records hr
    ⟨c, hc⟩
  obtain ⟨G₂, h₂, hm₂, hnone, hholds, -⟩ := hm₁.holdSlots hg ha hdescribed hp₁.connections
  have hr₂ : Restored g G₂ [] := ⟨hm₂, by rw [hnone]; rfl, hholds⟩
  obtain ⟨G₃, h₃, hr₃⟩ := hr₂.restoreConnections ha hg rfl
  exact ⟨G₃, rebuild_eq_ok.2 ⟨G₁, G₂, G₃, h₁, h₂, h₃, rfl⟩, hr₃⟩

end Snapshot

open Snapshot

/-- Nodes of method kinds that the catalog knows tell their ports apart. -/
theorem addressable_of_storable {g : Graph Definition} {c : Catalog}
    (hkinds : ∀ n ∈ g.nodes, ∃ d, n.kind = .action d ∧ d.Storable c) :
    ∀ m ∈ g.nodes, m.Addressable := by
  intro m hm
  obtain ⟨d, hkind, hd⟩ := hkinds m hm
  obtain ⟨method, hmethod⟩ := hd.method
  exact ⟨d, hkind, define_addressable hmethod⟩

/-- A reachable graph with the standard hook, all of whose nodes are of method kinds that the
catalog knows, is rebuilt with all its connections. -/
theorem Reachable.exists_restored {K : Definition → Prop} {g : Graph Definition}
    (h : Reachable K g) (hhook : g.hook = .standard) {c : Catalog}
    (hkinds : ∀ n ∈ g.nodes, ∃ d, n.kind = .action d ∧ d.Storable c) (id : Nat) :
    ∃ G, (Snapshot.ofGraph g).rebuild c id none = .ok G.release ∧ Restored g G g.records := by
  have hrestorable : ∀ n ∈ g.nodes, n.Restorable c none := by
    intro n hn
    obtain ⟨d, hkind, hd⟩ := hkinds n hn
    exact hd.restorable hkind (h.valid.stored n hn) none
  exact Snapshot.exists_restored h.valid hhook
    (addressable_of_nodes (addressable_of_storable hkinds)) hrestorable
    (.inl fun n hn => (hkinds n hn).imp fun _ hd => hd.1) id

/-- A reachable graph with the standard hook, all of whose nodes are of method kinds that the
catalog knows, is rebuilt from its snapshot, and the rebuilt graph has the same snapshot. -/
theorem Reachable.rebuild_ofGraph {K : Definition → Prop} {g : Graph Definition}
    (h : Reachable K g) (hhook : g.hook = .standard) {c : Catalog}
    (hkinds : ∀ n ∈ g.nodes, ∃ d, n.kind = .action d ∧ d.Storable c) (id : Nat) :
    ∃ r, (Snapshot.ofGraph g).rebuild c id none = .ok r ∧
      Snapshot.ofGraph r = Snapshot.ofGraph g := by
  obtain ⟨G, hG, hr⟩ := h.exists_restored hhook hkinds id
  exact ⟨G.release, hG, hr.ofGraph_eq⟩

/-- A connection into the second slot of a group whose first slot was connected before. -/
def gatherGap : Graph Definition :=
  [.connect ⟨0, 3⟩ ⟨0, 8⟩, .disconnect ⟨0, 3⟩ ⟨0, 5⟩].foldl Edit.perform gatherChain

theorem reachable_gatherGap : Reachable (· = .gather) gatherGap :=
  .foldl (by simp [Edit.offers]) (.foldl (by simp [Edit.offers, NodeKind.action?, eq_comm])
    (.blank 0 .standard))

/-- The empty slot is there again after a rebuild. -/
theorem rebuild_gatherGap : (gatherGap.variadicSlots ⟨2⟩ "items").map gatherGap.isConnected =
      [false, true, false] ∧
    ∃ r, (Snapshot.ofGraph gatherGap).rebuild (Catalog.empty.register .gather) 1 none = .ok r ∧
      Snapshot.ofGraph r = Snapshot.ofGraph gatherGap := by
  have hactions : (gatherGap.nodes.all fun n => n.kind.action?.isSome) = true := by decide
  have hstorable : Definition.gather.Storable (Catalog.empty.register .gather) :=
    ⟨⟨.gather, define_eq_ok.2 ⟨_, rfl, checkParams_eq_ok.2 (by decide), rfl⟩⟩, by decide, rfl⟩
  refine ⟨by decide, reachable_gatherGap.rebuild_ofGraph rfl (fun n hn => ?_) 1⟩
  have hkind := List.all_eq_true.1 hactions n hn
  cases hk : n.kind with
  | action d =>
    obtain rfl := (reachable_gatherGap.invariant.2 n hn).1 d hk
    exact ⟨_, rfl, hstorable⟩
  | entry => simp [hk, NodeKind.action?] at hkind
  | result => simp [hk, NodeKind.action?] at hkind

end EffectGraph
