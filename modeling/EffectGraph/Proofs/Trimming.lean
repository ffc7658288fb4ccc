import EffectGraph.Proofs.Acceptance

/-!
# The ports of a rebuilt graph

While a graph is rebuilt, slots are held open that nothing uses yet. Once they are released, every
node has exactly the inputs that it wants, its groups of controls included (`trim_rebuild`): a node
that holds no slot open has them all along, since connections are made to slots that are held open
and to single inputs only, and a node that holds one is reshaped at the end. The slots in use are
those that the snapshot of the graph lists, so the ports of a rebuilt graph can be read off its
snapshot (`Graph.Valid.inputs_of_trim`).
-/

namespace EffectGraph

open EffectGraph.Graph Snapshot

namespace Graph

section Trim

variable {κ : Type} [HasSignature κ] {g g' : Graph κ} {m m' : Node κ} {n : NodeId}
variable {stale : List NodeId}

/-- The inputs of the node are those that it wants: no group shows a slot too many or too few. -/
def Trim (g : Graph κ) (m : Node κ) : Prop := m.inputs.map Port.spec = g.wantedInputs m

/-- A node that keeps its ports and what it stores stays trim if the same slots are connected. -/
theorem Trim.of_wired (h : g.Trim m) (hsignature : g'.signature = g.signature)
    (hkind : m'.kind = m.kind) (hinputs : m'.inputs = m.inputs)
    (hreserves : ∀ group i, m'.Reserves group i ↔ m.Reserves group i)
    (hwired : ∀ p ∈ m.inputs, p.slot.isSome = true →
      (g'.isWired p.index = true ↔ g.isWired p.index = true)) : g'.Trim m' := by
  have harity : g'.arity m' = g.arity m := by
    funext group
    refine arityOf_congr fun i => ?_
    rw [mem_usedSlots, mem_usedSlots, hinputs, hreserves]
    refine or_congr_left (exists_congr fun p => and_congr_right fun hp => ?_)
    exact and_congr_right fun _ => and_congr_right fun hslot => hwired p hp (by simp [hslot])
  rw [Trim, hinputs, h, wantedInputs_eq, wantedInputs_eq, harity]
  simp only [inputShape, hkind, hsignature]

/-- All nodes are trim, apart from some that are still to be reshaped and those that hold slots
open. -/
structure Trimmed (stale : List NodeId) (g : Graph κ) : Prop where
  wellFormed : g.WellFormed
  trim : ∀ m ∈ g.nodes, m.id ∉ stale → m.held = .empty → g.Trim m

theorem keeps_of_connections (h : g.connections = []) (n : NodeId) : g.Keeps n := by
  intro m _ c hc
  simp [h] at hc

/-- A reshape that costs no connection makes its node trim. -/
theorem Trimmed.reshape (h : g.Trimmed (n :: stale)) (hkeeps : g.Keeps n) :
    (g.reshape n).Trimmed stale := by
  rw [hkeeps.reshape_eq]
  cases hm : g.node? n with
  | none =>
    rw [reshapeOne_of_none hm]
    refine ⟨h.wellFormed, fun k hk hnot => h.trim k hk ?_⟩
    simp [node?_eq_none_iff.1 hm k hk, hnot]
  | some m =>
    refine ⟨h.wellFormed.reshapeOne n, fun k hk hnot hheld => ?_⟩
    rcases (mem_nodes_reshapeOne h.wellFormed.ascending hm).1 hk with ⟨hk, hkn⟩ | rfl
    · refine (h.trim k hk (by simp [hkn, hnot]) hheld).of_wired reshapeOne_signature rfl rfl
        (fun _ _ => Iff.rfl) fun p _ _ => ?_
      rw [isWired, isWired, hkeeps.connections_reshapeOne]
    · have harity : (g.reshapeOne n).1.arity (g.shapedNode m) = g.arity m :=
        funext fun group => h.wellFormed.arity_shapedNode hm fun p hp _ _ hw =>
          hkeeps.kept hm hp hw
      rw [Trim, wantedInputs_eq, harity]
      refine (reusePorts_specs (g.wantedInputs m) m.inputs g.nextPort).trans ?_
      rw [wantedInputs_eq]
      simp only [inputShape, shapedNode_kind, reshapeOne_signature]

/-- A change of a node that is reshaped next. -/
theorem Trimmed.updateNode_stale (h : g.Trimmed stale) {f : Node κ → Node κ}
    (hid : ∀ k, (f k).id = k.id) (hinputs : ∀ k, (f k).inputs = k.inputs)
    (houtputs : ∀ k, (f k).outputs = k.outputs) : (g.updateNode n f).Trimmed (n :: stale) := by
  refine ⟨h.wellFormed.updateNode hid hinputs houtputs, fun k hk hnot hheld => ?_⟩
  obtain ⟨m, hm, rfl⟩ := mem_nodes_updateNode.1 hk
  by_cases hn : m.id = n
  · rw [if_pos hn, hid, hn] at hnot
    exact absurd (List.mem_cons_self) hnot
  · rw [if_neg hn] at hnot hheld ⊢
    exact (h.trim m hm (fun hs => hnot (.tail _ hs)) hheld).of_wired rfl rfl rfl
      (fun _ _ => Iff.rfl) fun _ _ _ => Iff.rfl

/-- A change of a node that does not concern its slots. -/
theorem Trimmed.updateNode (h : g.Trimmed stale) {f : Node κ → Node κ}
    (hid : ∀ k, (f k).id = k.id) (hkind : ∀ k, (f k).kind = k.kind)
    (hinputs : ∀ k, (f k).inputs = k.inputs) (houtputs : ∀ k, (f k).outputs = k.outputs)
    (hheld : ∀ k, (f k).held = k.held)
    (hreserves : ∀ k group i, (f k).Reserves group i ↔ k.Reserves group i) :
    (g.updateNode n f).Trimmed stale := by
  refine ⟨h.wellFormed.updateNode hid hinputs houtputs, fun k hk hnot hempty => ?_⟩
  obtain ⟨m, hm, rfl⟩ := mem_nodes_updateNode.1 hk
  by_cases hn : m.id = n
  · rw [if_pos hn] at hnot hempty ⊢
    exact (h.trim m hm (hid m ▸ hnot) (hheld m ▸ hempty)).of_wired rfl (hkind m) (hinputs m)
      (hreserves m) fun _ _ _ => Iff.rfl
  · rw [if_neg hn] at hnot hempty ⊢
    exact (h.trim m hm hnot hempty).of_wired rfl rfl rfl (fun _ _ => Iff.rfl) fun _ _ _ => Iff.rfl

/-- A refresh of a valid graph leaves trim what is trim. -/
theorem Trimmed.refresh (h : g.Trimmed []) (hv : g.Valid []) (ns : List NodeId) :
    (g.refresh ns).Trimmed [] := by
  refine (refresh_induct (P := fun k => k.Valid [] ∧ k.Trimmed []) (fun k n hk => ?_)
    ⟨hv, h⟩ ns).2
  have hkeeps := hk.1.keeps (n := n) List.not_mem_nil
  refine ⟨hk.1.reshapeOne_mono n, hkeeps.reshape_eq ▸ Trimmed.reshape ?_ hkeeps⟩
  exact ⟨hk.2.wellFormed, fun m hm _ => hk.2.trim m hm List.not_mem_nil⟩

/-- The nodes that hold slots open are those to be reshaped when the slots are released. -/
theorem Trimmed.unheld (h : g.Trimmed []) (hv : g.Valid []) : g.unheld.Trimmed g.holding := by
  refine ⟨hv.unheld.wellFormed, fun k hk hnot _ => ?_⟩
  obtain ⟨m, hm, rfl⟩ := mem_nodes_unheld.1 hk
  have hempty : m.held = .empty := by
    by_contra hne
    have hentries : m.held.entries ≠ [] := fun he => hne (Table.ext he)
    exact hnot (List.mem_map.2 ⟨m, List.mem_filter.2 ⟨hm, by simpa [Table.isEmpty]⟩, rfl⟩)
  refine (h.trim m hm List.not_mem_nil hempty).of_wired rfl rfl rfl (fun group i => ?_)
    fun _ _ _ => Iff.rfl
  rw [Node.Reserves, Node.Reserves, hempty]

/-- Once all slots are released, every node is trim. -/
theorem Trimmed.release (h : g.Trimmed []) (hv : g.Valid []) :
    ∀ m ∈ g.release.nodes, g.release.Trim m := by
  have hall : (g.holding.foldl Graph.reshape g.unheld).Valid [] ∧
      (g.holding.foldl Graph.reshape g.unheld).Trimmed [] :=
    foldl_settles (P := fun st k => k.Valid [] ∧ k.Trimmed st)
      (fun k j _ rest hk => ⟨(hk.1.reshape j).mono fun _ hm => (List.mem_filter.1 hm).1,
        hk.2.reshape (hk.1.keeps List.not_mem_nil)⟩)
      ⟨hv.unheld, by
        rw [List.append_nil]
        exact h.unheld hv⟩
  intro m hm
  refine hall.2.trim m hm List.not_mem_nil ?_
  obtain ⟨k, hk, he⟩ := hv.reshapes_release.origin hm
  obtain ⟨k', -, rfl⟩ := mem_nodes_unheld.1 hk
  exact (congrArg Node.held he).symm

end Trim

end Graph

/-! ## A rebuild -/

namespace Snapshot

variable {c : Catalog} {owner : Option Signature} {g g' : Graph Definition} {n : NodeId}

/-- While nodes are placed and slots are held open: no node is connected, and those that hold no
slot open are trim. -/
structure Quiet (g : Graph Definition) : Prop where
  valid : g.Valid []
  connections : g.connections = []
  trimmed : g.Trimmed []

theorem Quiet.canvas (id : Nat) (owner : Option Signature) : Quiet (canvas id owner) :=
  ⟨valid_empty id .standard owner, rfl, (valid_empty id .standard owner).wellFormed,
    by simp [Snapshot.canvas, Graph.empty]⟩

/-- A node is changed and reshaped. -/
theorem Quiet.of_reshape (hv : (g.reshape n).Valid []) (hnone : g.connections = [])
    (ht : g.Trimmed [n]) : Quiet (g.reshape n) :=
  ⟨hv, (keeps_of_connections hnone n).connections_reshape.trans hnone,
    ht.reshape (keeps_of_connections hnone n)⟩

theorem Quiet.addNodeAt (h : Quiet g) {kind : NodeKind Definition}
    (ha : g.addNodeAt n kind = .ok g') : Quiet g' := by
  have hv := h.valid.addNodeAt ha
  obtain ⟨hpos, hfree, hkind, rfl⟩ := addNodeAt_eq_ok.1 ha
  obtain ⟨hentry, hresult⟩ := checkKind_eq_ok hkind
  refine Quiet.of_reshape hv h.connections
    ⟨(h.valid.insertNode hfree hpos hentry hresult).wellFormed, fun k hk hnot hheld => ?_⟩
  rcases mem_insertNode.1 hk with rfl | hk
  · exact absurd (List.mem_singleton_self _) hnot
  · exact (h.trimmed.trim k hk List.not_mem_nil hheld).of_wired rfl rfl rfl
      (fun _ _ => Iff.rfl) fun _ _ _ => Iff.rfl

theorem Quiet.setPosition (h : Quiet g) {p : Position} (hs : g.setPosition n p = .ok g') :
    Quiet g' := by
  have hv := h.valid.setPosition hs
  obtain ⟨-, rfl⟩ := setPosition_eq_ok.1 hs
  exact ⟨hv, h.connections, h.trimmed.updateNode (fun _ => rfl) (fun _ => rfl) (fun _ => rfl)
    (fun _ => rfl) (fun _ => rfl) fun _ _ _ => Iff.rfl⟩

theorem Quiet.setConst (h : Quiet g) {name : String} {v : Value}
    (hs : g.setConst n name v = .ok g') : Quiet g' := by
  have hv := h.valid.setConst hs
  obtain ⟨-, rfl⟩ := setConst_eq_ok.1 hs
  exact ⟨hv, h.connections, h.trimmed.updateNode (fun _ => rfl) (fun _ => rfl) (fun _ => rfl)
    (fun _ => rfl) (fun _ => rfl) fun _ _ _ => Iff.rfl⟩

/-- A default of a slot changes what the slot's group asks for, and the node is reshaped; one of a
single input does not. -/
theorem Quiet.setDefault (h : Quiet g) {k : SlotKey} {v : Value}
    (hs : g.setDefault n k v = .ok g') : Quiet g' := by
  have hv := h.valid.setDefault hs
  obtain ⟨-, rfl⟩ := setDefault_eq_ok.1 hs
  unfold reshapeIf at hv ⊢
  cases hk : k.index with
  | some i =>
    simp only [hk, Option.isSome_some, if_true] at hv ⊢
    exact .of_reshape hv h.connections
      (h.trimmed.updateNode_stale (fun _ => rfl) (fun _ => rfl) fun _ => rfl)
  | none =>
    simp only [hk, Option.isSome_none, Bool.false_eq_true, if_false] at hv ⊢
    refine ⟨hv, h.connections, h.trimmed.updateNode (fun _ => rfl) (fun _ => rfl) (fun _ => rfl)
      (fun _ => rfl) (fun _ => rfl) fun m group i => ?_⟩
    have hne : (⟨group, some i⟩ : SlotKey) ≠ k := fun he => by simp [← he] at hk
    simp [Node.Reserves, Node.mapDefaults, Table.mem_keys_insert, hne]

theorem Quiet.placeNode (h : Quiet g) {r : NodeRecord} (hp : placeNode c g r = .ok g') :
    Quiet g' := by
  obtain ⟨kind, g₁, g₂, g₃, -, h₁, h₂, h₃, h₄⟩ := placeNode_eq_ok.1 hp
  have hconsts := restoreConsts_induct (fun _ _ _ _ hg hs => hg.setConst hs) h₃
    ((h.addNodeAt h₁).setPosition h₂)
  exact restoreDefaults_induct (fun _ _ _ _ hg hs => hg.setDefault hs) h₄ hconsts

theorem Quiet.hold (h : Quiet g) {group : String} {i : Nat} (hh : g.hold n group i = .ok g') :
    Quiet g' := by
  have hv := h.valid.hold hh
  obtain ⟨-, rfl⟩ := hold_eq_ok.1 hh
  exact .of_reshape hv h.connections
    (h.trimmed.updateNode_stale (fun _ => rfl) (fun _ => rfl) fun _ => rfl)

/-- A connection that ends at a slot ends at one that is held open, or lies below one that is. -/
def Propped (g : Graph Definition) : Prop :=
  ∀ c ∈ g.connections, ∀ s d, g.Joins c s d → ∀ i, d.port.slot = some i →
    Holds g d.node d.port.decl.name i

/-- No slot of a node that holds none open is connected. -/
theorem Propped.isWired_eq_false (h : Propped g) (hg : g.WellFormed) {m : Node Definition}
    (hm : m ∈ g.nodes) (hempty : m.held = .empty) {p : Port} (hp : p ∈ m.inputs)
    (hslot : p.slot.isSome = true) : g.isWired p.index = false := by
  refine Bool.eq_false_iff.2 fun hwired => ?_
  obtain ⟨c, hc, ht⟩ := List.any_eq_true.1 hwired
  obtain ⟨s, d, hj⟩ := hg.joined c hc
  obtain rfl := hg.destination_of_touches hm hp hj ht
  obtain ⟨i, hi⟩ := Option.isSome_iff_exists.1 hslot
  obtain ⟨k, hk, hid, l, hl, -⟩ := h c hc s _ hj i hi
  obtain rfl := hg.ascending.id_inj hk hm hid
  simp [hempty] at hl

theorem Propped.of_reshapes (h : Propped g) (hr : g.Reshapes g') (hg : g.WellFormed)
    (hg' : g'.WellFormed) : Propped g' := by
  intro c hc s d hj i hi
  have hold := hr.connections.subset hc
  obtain ⟨s₀, d₀, hj₀⟩ := hg.joined c hold
  -- The ends are the ones from before.
  have hends := hr.joins hg hg' hc hj₀
  obtain rfl := hg'.port_inj hj.destination_mem hends.destination_mem
    (hj.destination_index.trans hends.destination_index.symm)
  exact (h c hold s₀ d hj₀ i hi).of_reshapes hr

/-- While connections are restored: none is without the slot that it ends at, and the nodes that
hold no slot open are trim. -/
structure Covered (g : Graph Definition) : Prop where
  valid : g.Valid []
  trimmed : g.Trimmed []
  propped : Propped g

/-- A connection that is restored ends at a slot that is held open or at a single input, so no node
wants another port on its account but one that is reshaped at the end. -/
theorem Covered.restoreConnection {r : ConnectionRecord} (h : Covered g)
    (hopened : ∀ i, slotOf r = some i → Holds g ⟨r.destNode⟩ r.destPort i)
    (hr : Snapshot.restoreConnection g r = .ok g') : Covered g' := by
  obtain ⟨j, hj, rfl, rfl⟩ := restoreConnection_joins h.valid.wellFormed hr
  rcases join_eq g j with ⟨he, -⟩ | ⟨-, he⟩
  · rwa [he]
  · have hv := h.valid.linked hj
    rw [slotOf_ofEnds _ _ (h.valid.slots _ hj.destination_mem)] at hopened
    have hpropped : Propped (g.linked j) := by
      intro c hc s d hjoins i hi
      have hjoins : g.Joins c s d := { hjoins with }
      rcases List.mem_append.1 hc with hc | hc
      · exact h.propped c (List.mem_filter.1 hc).1 s d hjoins i hi
      · obtain rfl := List.mem_singleton.1 hc
        obtain rfl := h.valid.wellFormed.port_inj hjoins.destination_mem hj.destination_mem
          hjoins.destination_index
        exact hopened i hi
    have htrimmed : (g.linked j).Trimmed [] := by
      refine ⟨hv.wellFormed, fun m hm _ hempty => ?_⟩
      refine (h.trimmed.trim m hm List.not_mem_nil hempty).of_wired rfl rfl rfl
        (fun _ _ => Iff.rfl) fun p hp hslot => ?_
      rw [hpropped.isWired_eq_false hv.wellFormed hm hempty hp hslot,
        h.propped.isWired_eq_false h.valid.wellFormed hm hempty hp hslot]
    rw [he]
    exact ⟨hv.refresh _, htrimmed.refresh hv _,
      hpropped.of_reshapes (reshapes_refresh hv.wellFormed _) hv.wellFormed
        (hv.refresh _).wellFormed⟩

theorem Covered.restoreConnections {rs : List ConnectionRecord} (h : Covered g)
    {kind? : UInt32 → Option (NodeKind Definition)} (hstaged : Staged owner kind? g)
    (hopened : Opened rs g) (hr : Snapshot.restoreConnections rs g = .ok g') : Covered g' := by
  induction rs generalizing g with
  | nil =>
    obtain rfl := Except.ok.inj hr
    exact h
  | cons r rs ih =>
    obtain ⟨g₁, h₁, h₂⟩ := bind_eq_ok.1 hr
    obtain ⟨a, b, -, -, -, -, -, hc⟩ := restoreConnection_eq_ok.1 h₁
    obtain ⟨hstaged₁, hopened₁⟩ := hstaged.connect hopened hc
    exact ih (h.restoreConnection (hopened r (.head _)) h₁) hstaged₁
      (fun x hx => hopened₁ x (.tail _ hx)) h₂

/-- Every node of a rebuilt graph has exactly the inputs that it wants. -/
theorem trim_rebuild {id : Nat} {s : Snapshot} (h : s.rebuild c id owner = .ok g) :
    ∀ m ∈ g.nodes, g.Trim m := by
  obtain ⟨g₁, g₂, g₃, h₁, h₂, h₃, rfl⟩ := rebuild_eq_ok.1 h
  have hplaced : Quiet g₁ :=
    placeNodes_induct (fun _ _ _ hg hp => Quiet.placeNode hg hp) h₁ (.canvas id owner)
  have hheld : Quiet g₂ := holdSlots_induct (fun _ _ _ _ _ hg hh => Quiet.hold hg hh) h₂ hplaced
  obtain ⟨hstaged, hopened, -⟩ := (staged_placeNodes h₁).holdSlots h₂
  have hcovered : Covered g₂ := ⟨hheld.valid, hheld.trimmed, by simp [Propped, hheld.connections]⟩
  have hrestored := hcovered.restoreConnections hstaged hopened h₃
  exact hrestored.trimmed.release hrestored.valid

end Snapshot

/-! ## Ports by the snapshot -/

/-- The slots of a group of a node that the stored connections and the defaults of the node are
for. -/
def Snapshot.storedSlots (rs : List ConnectionRecord) (m : Node Definition) (group : String) :
    List Nat :=
  (rs.filterMap fun r =>
      if r.destNode = m.id.number ∧ r.destPort = group then slotOf r else none) ++
    m.defaults.keys.filterMap fun k => if k.name = group then k.index else none

namespace Graph

variable {g : Graph Definition} {m : Node Definition}

/-- The slots in use of a node that holds none open are those that the snapshot lists. -/
theorem Valid.mem_usedSlots_iff (h : g.Valid []) (hm : m ∈ g.nodes) (hheld : m.held = .empty)
    {group : String} {i : Nat} :
    i ∈ g.usedSlots m group ↔ i ∈ storedSlots (Snapshot.ofGraph g).connections m group := by
  have hwired : (∃ p ∈ m.inputs, p.decl.name = group ∧ p.slot = some i ∧
        g.isWired p.index = true) ↔
      ∃ r ∈ g.records, (r.destNode = m.id.number ∧ r.destPort = group) ∧ slotOf r = some i := by
    constructor
    · rintro ⟨p, hp, rfl, hslot, hw⟩
      obtain ⟨c, hc, ht⟩ := List.any_eq_true.1 hw
      obtain ⟨s, d, hj⟩ := h.wellFormed.joined c hc
      obtain rfl := h.wellFormed.destination_of_touches hm hp hj ht
      refine ⟨_, h.wellFormed.mem_records hc ⟨s, _, hj, rfl⟩, ⟨rfl, rfl⟩, ?_⟩
      rw [slotOf_ofEnds _ _ (h.slots _ hj.destination_mem), hslot]
    · rintro ⟨r, hr, ⟨hnode, hport⟩, hslot⟩
      obtain ⟨c, hc, s, d, hj, rfl⟩ := h.wellFormed.described_of_mem_records hr
      rw [slotOf_ofEnds _ _ (h.slots _ hj.destination_mem)] at hslot
      obtain ⟨k, hk, hid, hp⟩ := exists_of_input hj.destination_mem hj.destination_input
      obtain rfl := h.ascending.id_inj hk hm (hid.symm.trans (congrArg NodeId.mk hnode))
      refine ⟨_, hp, hport, hslot, isWired_iff.2 ⟨c, hc, .inr hj.destination_index.symm⟩⟩
  rw [mem_usedSlots, hwired, Node.Reserves, hheld]
  simp only [storedSlots, List.mem_append, List.mem_filterMap, Option.ite_none_right_eq_some]
  refine or_congr Iff.rfl ?_
  constructor
  · rintro (hk | hk)
    · exact ⟨_, hk, rfl, rfl⟩
    · simp at hk
  · rintro ⟨⟨name, index⟩, hk, rfl, rfl⟩
    exact .inl hk

/-- The inputs of a trim node are those of its kind, each group as wide as the slots that the
snapshot lists ask for. -/
theorem Valid.inputs_of_trim (h : g.Valid []) (hm : m ∈ g.nodes) (hheld : m.held = .empty)
    (htrim : g.Trim m) : m.inputs.map Port.spec = g.inputShape m fun group =>
      arityOf (storedSlots (Snapshot.ofGraph g).connections m group) := by
  have harity : g.arity m = fun group =>
      arityOf (storedSlots (Snapshot.ofGraph g).connections m group) :=
    funext fun group => arityOf_congr fun i => h.mem_usedSlots_iff hm hheld
  rw [htrim, wantedInputs_eq, harity]

end Graph

end EffectGraph
