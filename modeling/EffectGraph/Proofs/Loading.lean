import EffectGraph.Proofs.Ownership
import EffectGraph.Proofs.RoundTrip

/-!
# Stored definitions are loaded again

A generated definition is stored with its signature and the snapshot of its inner graph. To load it,
the graph is rebuilt under the signature and then given that signature once more. Both steps shape
Entry and Return; since they stand in the rebuilt graph as they did in the stored one, the second
step finds nothing to change, and the definition that is loaded is stored as before
(`Definition.load_generated`).

What remains to be seen is that Entry and Return can be placed again from what they store. A new
inner graph stores nothing in them, and no edit stores more than a default of Return for an output
of the signature (`Graph.InnerOf.edit`).
-/

namespace EffectGraph

open EffectGraph.Graph Snapshot

/-! ## What the nodes of an inner graph store -/

/-- A graph with the standard hook that is owned by a definition with the given signature, which
declares what is stored in the pseudo-nodes. -/
structure Graph.InnerOf (s : Signature) (g : Graph Definition) : Prop where
  hook : g.hook = .standard
  signature : g.signature = some s
  declared : ∀ m ∈ g.nodes, m.Declared (some s)

/-- Ports do not matter for what a node stores. -/
theorem Node.Declared.of_bare {owner : Option Signature} {m k : Node Definition}
    (h : m.Declared owner) (he : m.bare = k.bare) : k.Declared owner := by
  have hbare : m.bare.Declared owner := ⟨h.consts, h.defaults⟩
  rw [he] at hbare
  exact ⟨hbare.consts, hbare.defaults⟩

theorem Node.declared_fresh (owner : Option Signature) (n : NodeId) (kind : NodeKind Definition) :
    (Node.fresh n kind).Declared owner :=
  ⟨fun _ hname => absurd hname Table.not_mem_keys_empty,
    fun _ hk => absurd hk Table.not_mem_keys_empty⟩

namespace Graph.InnerOf

variable {s : Signature} {g g' : Graph Definition} {n : NodeId}

theorem reshapes (h : g.InnerOf s) (hr : g.Reshapes g') : g'.InnerOf s :=
  ⟨hr.hook.trans h.hook, hr.signature.trans h.signature, fun _ hk =>
    let ⟨m, hm, he⟩ := hr.origin hk
    (h.declared m hm).of_bare he⟩

theorem updateNode (h : g.InnerOf s) {f : Node Definition → Node Definition}
    (hf : ∀ m ∈ g.nodes, m.id = n → (f m).Declared (some s)) : (g.updateNode n f).InnerOf s := by
  refine ⟨h.hook, h.signature, fun k hk => ?_⟩
  obtain ⟨m, hm, rfl⟩ := mem_nodes_updateNode.1 hk
  split
  next hid => exact hf m hm hid
  next => exact h.declared m hm

theorem addNodeAt (h : g.InnerOf s) {stale : List NodeId} (hv : g.Valid stale)
    {kind : NodeKind Definition} (ha : g.addNodeAt n kind = .ok g') : g'.InnerOf s := by
  have hplaced : Graph.InnerOf s { g with nodes := insertNode (.fresh n kind) g.nodes } := by
    refine ⟨h.hook, h.signature, fun m hm => ?_⟩
    rcases mem_insertNode.1 hm with rfl | hm
    · exact Node.declared_fresh _ n kind
    · exact h.declared m hm
  exact hplaced.reshapes (hv.reshapes_place ha)

theorem cut (h : g.InnerOf s) (hv : g.Valid []) (p : Connection → Bool) (except : List NodeId) :
    (g.cut p except).1.InnerOf s :=
  have hsevered : (g.sever p).InnerOf s := ⟨h.hook, h.signature, h.declared⟩
  hsevered.reshapes (reshapes_refresh (hv.wellFormed.sever p) _)

theorem connect (h : g.InnerOf s) (hv : g.Valid []) {a b : PortId} (hc : g.connect a b = .ok g') :
    g'.InnerOf s := by
  obtain ⟨j, hj, rfl⟩ := connect_eq_ok.1 hc
  rcases join_eq g j with ⟨he, -⟩ | ⟨-, he⟩
  · rw [he]
    exact h
  · have hlinked : (g.linked j).InnerOf s := ⟨h.hook, h.signature, h.declared⟩
    rw [he]
    exact hlinked.reshapes (reshapes_refresh (hv.wellFormed.linked (.of_checkConnection hj)) _)

theorem wire (h : g.InnerOf s) (hv : g.Valid []) {source destination : NodeId}
    {output input : String} (hw : g.wire source output destination input = .ok g') :
    g'.InnerOf s := by
  obtain ⟨a, b, -, -, hc⟩ := wire_eq_ok.1 hw
  exact h.connect hv hc

theorem removeNode (h : g.InnerOf s) (hv : g.Valid []) {r : Graph Definition × Node Definition}
    (hr : g.removeNode n = .ok r) : r.1.InnerOf s := by
  obtain ⟨m, -, -, hr⟩ := removeNode_eq_ok.1 hr
  have hcut := h.cut hv (touchesNode m) [n]
  rw [← hr]
  exact ⟨hcut.hook, hcut.signature, fun k hk => hcut.declared k (List.mem_filter.1 hk).1⟩

/-- A constant is stored on an action node, whose kind declares it. -/
theorem setConst (h : g.InnerOf s) (hv : g.Valid []) {name : String} {v : Value}
    (hs : g.setConst n name v = .ok g') : g'.InnerOf s := by
  obtain ⟨⟨m, hm, d, hkind, hname⟩, rfl⟩ := setConst_eq_ok.1 hs
  obtain ⟨hmem, hid⟩ := node?_mem hm
  refine h.updateNode fun k hk hkid => ⟨fun name' hname' => ?_, (h.declared k hk).defaults⟩
  obtain rfl := hv.ascending.id_inj hk hmem (hkid.trans hid.symm)
  rcases Table.mem_keys_insert.1 hname' with rfl | hname'
  · exact ⟨d, hkind, hname⟩
  · exact (h.declared k hk).consts name' hname'

theorem updateDefaults (h : g.InnerOf s) (hv : g.Valid [])
    {f : Table SlotKey Value → Table SlotKey Value}
    (hf : ∀ m ∈ g.nodes, m.id = n → (m.mapDefaults f).Declared (some s)) (isGroup : Bool) :
    ((g.updateNode n (.mapDefaults f)).reshapeIf n isGroup).InnerOf s :=
  (h.updateNode hf).reshapes (hv.reshapes_updateDefaults isGroup f)

/-- A default is set for a slot that is declared. -/
theorem setDefault (h : g.InnerOf s) (hv : g.Valid []) {k : SlotKey} {v : Value}
    (hs : g.setDefault n k v = .ok g') : g'.InnerOf s := by
  obtain ⟨hcheck, rfl⟩ := setDefault_eq_ok.1 hs
  obtain ⟨m, p, hm, hdecl, hgroup, -, -⟩ := checkSlot_eq_ok.1 hcheck
  obtain ⟨hmem, hid⟩ := node?_mem hm
  refine h.updateDefaults hv (fun j hj hjid => ⟨(h.declared j hj).consts, fun k' hk' => ?_⟩) _
  obtain rfl := hv.ascending.id_inj hj hmem (hjid.trans hid.symm)
  rcases Table.mem_keys_insert.1 hk' with rfl | hk'
  · rw [slotDecl?_eq, h.signature] at hdecl
    exact ⟨p, hdecl, hgroup⟩
  · exact (h.declared j hj).defaults k' hk'

theorem clearDefault (h : g.InnerOf s) (hv : g.Valid []) {k : SlotKey}
    {r : Graph Definition × Option Value} (hc : g.clearDefault n k = .ok r) : r.1.InnerOf s := by
  obtain ⟨-, m, -, rfl⟩ := clearDefault_eq_ok.1 hc
  exact h.updateDefaults hv (fun j hj _ => ⟨(h.declared j hj).consts, fun k' hk' =>
    (h.declared j hj).defaults k' (Table.mem_keys_erase.1 hk').2⟩) _

/-- A new definition of its kind drops from a node what it does not declare. -/
theorem redefine (h : g.InnerOf s) (hv : g.Valid []) (d : Definition) :
    (g.redefine d).1.InnerOf s := by
  refine (List.foldlRecOn (motive := fun g => Valid [] g ∧ g.InnerOf s) _ _ ⟨hv, h⟩
    fun g hg n _ => ⟨hg.1.redefineNode d n, ?_⟩).2
  have hturned := hg.1.turn d n
  have hinner : (g.updateNode n (.turn d)).InnerOf s := by
    refine hg.2.updateNode fun m hm hid => ?_
    have hmem : m.turn d ∈ (g.updateNode n (.turn d)).nodes :=
      mem_nodes_updateNode.2 ⟨m, hm, if_pos hid⟩
    exact (hturned.stored _ hmem).declared rfl _
  exact hinner.reshapes (reshapes_reshape hturned.wellFormed n)

/-- An edit that does not change the signature stores nothing undeclared. -/
theorem edit (h : g.InnerOf s) (hv : g.Valid []) {e : Edit Definition} (hsigns : e.signs? = none)
    (he : e.apply g = .ok g') : g'.InnerOf s := by
  cases e with
  | setSignature s => simp [Edit.signs?] at hsigns
  | addNode kind =>
    obtain ⟨r, hr, rfl⟩ := map_eq_ok.1 he
    exact h.addNodeAt hv (addNode_eq_ok.1 hr).1
  | addNodeAt n kind => exact h.addNodeAt hv he
  | removeNode n =>
    obtain ⟨r, hr, rfl⟩ := map_eq_ok.1 he
    exact h.removeNode hv hr
  | connect a b => exact h.connect hv he
  | wire source output destination input => exact h.wire hv he
  | disconnect a b =>
    obtain ⟨r, hr, rfl⟩ := map_eq_ok.1 he
    obtain ⟨-, rfl⟩ := disconnect_eq_ok.1 hr
    exact h.cut hv _ _
  | isolatePort p =>
    obtain ⟨r, hr, rfl⟩ := map_eq_ok.1 he
    obtain ⟨-, rfl⟩ := isolatePort_eq_ok.1 hr
    exact h.cut hv _ _
  | isolateNode n =>
    obtain ⟨r, hr, rfl⟩ := map_eq_ok.1 he
    obtain ⟨m, -, rfl⟩ := isolateNode_eq_ok.1 hr
    exact h.cut hv _ _
  | setConst n name v => exact h.setConst hv he
  | setDefault n k v => exact h.setDefault hv he
  | clearDefault n k =>
    obtain ⟨r, hr, rfl⟩ := map_eq_ok.1 he
    exact h.clearDefault hv hr
  | setPosition n p =>
    obtain ⟨-, rfl⟩ := setPosition_eq_ok.1 he
    exact h.updateNode fun m hm _ => ⟨(h.declared m hm).consts, (h.declared m hm).defaults⟩
  | redefine d =>
    obtain rfl := Except.ok.inj he
    exact h.redefine hv d
  | clone id =>
    obtain rfl := Except.ok.inj he
    exact ⟨h.hook, h.signature, h.declared⟩

theorem ensure (h : g.InnerOf s) {stale : List NodeId} {present : Option NodeId}
    (hv : g.Valid (present.toList ++ stale)) {kind : NodeKind Definition}
    {r : Graph Definition × Option NodeId} (he : g.ensure kind present = .ok r) :
    r.1.InnerOf s := by
  rcases ensure_eq_ok.1 he with ⟨n, rfl, rfl⟩ | ⟨rfl, g', n, ha, rfl⟩
  · exact h.reshapes (reshapes_reshape hv.wellFormed n)
  · exact h.addNodeAt hv (addNode_eq_ok.1 ha).1

/-- A graph without undeclared values for its signature is given that signature. -/
theorem setSignature (h : Graph.InnerOf s { g with signature := some s }) (hv : g.Valid [])
    (hs : g.setSignature s = .ok g') : g'.InnerOf s := by
  obtain ⟨r, r', hr, hr', hwire⟩ := setSignature_eq_ok.1 hs
  have hinner := (h.ensure (hv.signed s) hr).ensure (hv.ensure_entry hr) hr'
  rcases hwire with ⟨e, t, -, -, hwire⟩ | ⟨-, rfl⟩
  · exact hinner.wire (hv.ensure_both hr hr') hwire
  · exact hinner

theorem withSignature {id : Nat} (h : Graph.withSignature id .standard s = .ok g) :
    g.InnerOf s :=
  setSignature ⟨rfl, rfl, by simp [Graph.empty]⟩ (valid_empty id .standard none) h

/-- Edits that have been refused count for nothing. -/
theorem edits {es : List (Edit Definition)} (hes : ∀ e ∈ es, e.signs? = none) (h : g.InnerOf s)
    (hv : g.Valid []) :
    (es.foldl Edit.perform g).InnerOf s ∧ (es.foldl Edit.perform g).Valid [] := by
  induction es generalizing g with
  | nil => exact ⟨h, hv⟩
  | cons e es ih =>
    obtain ⟨hsigns, hrest⟩ := List.forall_mem_cons.1 hes
    obtain ⟨h', hv'⟩ := Reachable.perform_induct (P := fun g => g.InnerOf s ∧ g.Valid [])
      (fun _ he => ⟨h.edit hv hsigns he, hv.edit he⟩) ⟨h, hv⟩
    exact ih hrest h' hv'

end Graph.InnerOf

/-! ## Shaping a graph once more -/

/-- Reshapes that cost no connection leave the snapshot as it is. -/
theorem Graph.Valid.ofGraph_of_reshapes {g g' : Graph Definition} (h : g.Valid [])
    (h' : g'.Valid []) (hr : g.Reshapes g') (hc : g'.connections = g.connections) :
    ofGraph g' = ofGraph g := by
  have hnodes : g'.nodes.map NodeRecord.ofNode = g.nodes.map NodeRecord.ofNode := by
    have hbare := congrArg (List.map NodeRecord.ofNode) hr.bare
    rw [List.map_map, List.map_map] at hbare
    exact hbare
  have hrecords : g'.connections.filterMap (ConnectionRecord.ofConnection? g') =
      g.connections.filterMap (ConnectionRecord.ofConnection? g) := by
    rw [hc]
    refine List.filterMap_congr fun c hmem => ?_
    obtain ⟨s, d, hj⟩ := h.wellFormed.joined c hmem
    rw [h.wellFormed.ofConnection?_eq hj, h'.wellFormed.ofConnection?_eq
      (hr.joins h.wellFormed h'.wellFormed (hc ▸ hmem) hj)]
  simp only [ofGraph, hnodes, hrecords]

theorem Graph.Valid.reshape_all {g : Graph Definition} (h : g.Valid []) (n : NodeId) :
    (g.reshape n).Valid [] ∧ g.Reshapes (g.reshape n) ∧
      (g.reshape n).connections = g.connections :=
  ⟨h.reshape n, reshapes_reshape h.wellFormed n, (h.keeps List.not_mem_nil).connections_reshape⟩

/-- A graph that has a signature and both pseudo-nodes is given that signature again. -/
theorem Graph.Valid.setSignature_again {g : Graph Definition} (h : g.Valid []) {s : Signature}
    (hs : g.signature = some s) {e t : Node Definition} (he : e ∈ g.nodes) (ht : t ∈ g.nodes)
    (hek : e.kind = .entry) (htk : t.kind = .result) :
    ∃ g', g.setSignature s = .ok g' ∧ g'.nodes.map Node.bare = g.nodes.map Node.bare ∧
      ofGraph g' = ofGraph g := by
  have hsame : ({ g with signature := some s } : Graph Definition) = g := by rw [← hs]
  obtain ⟨hv₁, hr₁, hc₁⟩ := h.reshape_all e.id
  obtain ⟨t', ht', hbare⟩ := hr₁.image ht
  have hid : t'.id = t.id := by simpa using congrArg Node.id hbare
  have hkind : t'.kind = .result := by simpa [htk] using congrArg Node.kind hbare
  have hentry : g.entryNode? = some e.id := h.entryNode?_of_mem he hek
  have hresult : (g.reshape e.id).resultNode? = some t.id :=
    hid ▸ hv₁.resultNode?_of_mem ht' hkind
  obtain ⟨hv₂, hr₂, hc₂⟩ := hv₁.reshape_all t.id
  refine ⟨(g.reshape e.id).reshape t.id, setSignature_eq_ok.2 ⟨(g.reshape e.id, none),
    ((g.reshape e.id).reshape t.id, none), ?_, ?_, .inr ⟨.inl rfl, rfl⟩⟩,
    hr₂.bare.trans hr₁.bare, ?_⟩
  · rw [hsame, hentry]
    rfl
  · rw [hresult]
    rfl
  · exact h.ofGraph_of_reshapes hv₂ (hr₁.trans hr₂) (hc₂.trans hc₁)

/-! ## Generated definitions -/

/-- The check depends on the kinds of the nodes only. -/
theorem checkPseudoNodes_congr {g g' : Graph Definition}
    (h : g'.nodes.map Node.core = g.nodes.map Node.core) :
    checkPseudoNodes g' = checkPseudoNodes g := by
  have hcount : ∀ p : Node Definition → Bool, (∀ n, p n.core = p n) →
      g'.nodes.countP p = g.nodes.countP p := by
    intro p hp
    have hcores := congrArg (List.countP p) h
    rw [List.countP_map, List.countP_map] at hcores
    simpa only [Function.comp_def, hp] using hcores
  simp only [checkPseudoNodes]
  rw [hcount _ fun _ => rfl, hcount _ fun _ => rfl]

/-- The names of a signature tell the ports of Entry and Return apart, together with the difference
of the names of inputs and constants, which is checked; and those of the outputs can be read back
from slot keys. -/
structure Signature.Storable (s : Signature) : Prop where
  entry : ∀ p ∈ s.inputs ++ s.consts, p.name ≠ exitName
  result : ∀ p ∈ s.outputs, p.name ≠ enterName
  outputs : (s.outputs.map (·.name)).Nodup
  plain : ∀ p ∈ s.outputs, '[' ∉ p.name.toList

section Inner

variable {s : Signature} {g : Graph Definition} {c : Catalog}

theorem Graph.InnerOf.addressable (h : g.InnerOf s) (hs : s.Storable)
    (hnames : ((s.inputs ++ s.consts).map (·.name)).Nodup)
    (hkinds : ∀ n ∈ g.nodes, ∀ d, n.kind = .action d → d.Storable c) : g.Addressable := by
  intro n hn
  rw [h.signature]
  cases hk : n.kind with
  | action d =>
    obtain ⟨m, hm⟩ := (hkinds n hn d hk).method
    exact define_addressable hm
  | entry =>
    refine List.nodup_cons.2 ⟨fun hmem => ?_, hnames⟩
    obtain ⟨p, hp, he⟩ := List.mem_map.1 hmem
    exact hs.entry p hp he
  | result =>
    refine List.nodup_cons.2 ⟨fun hmem => ?_, hs.outputs⟩
    obtain ⟨p, hp, he⟩ := List.mem_map.1 hmem
    exact hs.result p hp he

theorem Graph.InnerOf.restorable (h : g.InnerOf s) (hv : g.Valid []) (hs : s.Storable)
    (hkinds : ∀ n ∈ g.nodes, ∀ d, n.kind = .action d → d.Storable c) :
    ∀ n ∈ g.nodes, n.Restorable c (some s) := by
  intro n hn
  have hpseudo (hslots : ∀ p ∈ n.kind.slots (some s), p ∈ s.outputs)
      (hkind : kindOf c (.ofNode n) = .ok n.kind) : n.Restorable c (some s) :=
    { h.declared n hn with
      kind := hkind
      owned := .inr rfl
      legible := (h.declared n hn).legible fun p hp => hs.plain p (hslots p hp)
      below := (hv.stored n hn).below }
  cases hk : n.kind with
  | action d => exact (hkinds n hn d hk).restorable hk (hv.stored n hn) _
  | entry =>
    have hkind : kindOf c (.ofNode n) = .ok n.kind := by
      simp [kindOf, NodeRecord.ofNode, hk, StoredKind.ofKind]
    exact hpseudo (by simp [hk, NodeKind.slots]) hkind
  | result =>
    have hkind : kindOf c (.ofNode n) = .ok n.kind := by
      simp [kindOf, NodeRecord.ofNode, hk, StoredKind.ofKind]
    exact hpseudo (by simp [hk, NodeKind.slots]) hkind

end Inner

/-- A stored definition is loaded if its graph is rebuilt and can be wrapped. -/
theorem DefinitionRecord.load_eq_ok {r : DefinitionRecord} {c : Catalog} {id : Nat}
    {g : Graph Definition} {d : Definition}
    (hg : r.graph.rebuild c id (some r.signature) = .ok g)
    (hd : Definition.generated r.signature g = .ok d) :
    r.load c id =
      .ok (c.register ((d.withObsoleteNames r.obsoleteNames).withObsoleteMessage r.obsoleteMessage),
        (d.withObsoleteNames r.obsoleteNames).withObsoleteMessage r.obsoleteMessage) := by
  simp [load, rebuild, hg, hd, Except.mapError, bind, Except.bind]

theorem Catalog.get?_register_self (c : Catalog) (d : Definition) :
    (c.register d).get? d.name = some d := by
  simp [Catalog.get?, Catalog.register]

/-- A generated definition whose graph was made for its signature and edited under it, with nodes of
method kinds, is loaded from what is stored of it by every catalog that knows these kinds, and what
is stored of the loaded definition is the same. It need not matter whether the graph had lost its
Entry or its Return before it was wrapped. -/
theorem Definition.load_generated {id : Nat} {s : Signature} {g : Graph Definition}
    (hnew : Graph.withSignature id .standard s = .ok g) (es : List (Edit Definition))
    (hes : ∀ e ∈ es, e.signs? = none) {d : Definition}
    (hd : Definition.generated s (es.foldl Edit.perform g) = .ok d) (hs : s.Storable)
    {c : Catalog} (hkinds : ∀ inner, d.inner? = some inner → ∀ n ∈ inner.nodes, ∀ k,
      n.kind = .action k → k.Storable c)
    (names : List String) (message : Option String) (fresh : Nat) :
    ∃ r, DefinitionRecord.ofDefinition?
        ((d.withObsoleteNames names).withObsoleteMessage message) = some r ∧
      ∃ c' d', r.load c fresh = .ok (c', d') ∧ DefinitionRecord.ofDefinition? d' = some r ∧
        c'.get? s.name = some d' := by
  obtain ⟨hcontrol, hrepeated, inner, hset, hcheck, rfl⟩ := generated_eq_ok_iff.1 hd
  have hgv := (valid_empty (κ := Definition) id .standard none).setSignature hnew
  obtain ⟨hedited, hev⟩ := Graph.InnerOf.edits hes (.withSignature hnew) hgv
  have hsigned : inner.InnerOf s := .setSignature ⟨hedited.hook, rfl, hedited.declared⟩ hev hset
  have hv := hev.setSignature hset
  have hkinds := hkinds inner rfl
  -- The graph is rebuilt under the signature.
  obtain ⟨G, hG, hr⟩ := exists_restored hv hsigned.hook
    (hsigned.addressable hs (firstRepeated?_eq_none.1 hrepeated).1 hkinds)
    (hsigned.restorable hv hs hkinds) (.inr hsigned.signature.symm) fresh
  have hmirrors := hr.mirrors.release
  have hcheck' := (checkPseudoNodes_congr hmirrors.core).trans hcheck
  obtain ⟨⟨e, he, hek⟩, t, ht, htk⟩ := checkPseudoNodes_eq_ok hcheck'
  -- It is given the signature once more, which changes nothing that is stored.
  obtain ⟨g', hg', hbare, hsame⟩ := hmirrors.valid.setSignature_again
    (OwnedBy.rebuild hG).signature he ht hek htk
  have hcore : g'.nodes.map Node.core = inner.nodes.map Node.core :=
    (cores_of_bare hbare).trans hmirrors.core
  have hgenerated : Definition.generated s G.release = .ok ⟨s, [], none, .generated g'⟩ :=
    generated_eq_ok_iff.2
      ⟨hcontrol, hrepeated, g', hg', (checkPseudoNodes_congr hcore).trans hcheck, rfl⟩
  have hstored : ∀ k : Graph Definition, ofGraph k = ofGraph inner →
      DefinitionRecord.ofDefinition? (((⟨s, [], none, .generated k⟩ : Definition).withObsoleteNames
        names).withObsoleteMessage message) =
      some ⟨s.name, names, message, s.inputs, s.consts, s.outputs, ofGraph inner⟩ := by
    intro k hk
    simp [DefinitionRecord.ofDefinition?, Definition.inner?, Definition.withObsoleteNames,
      Definition.withObsoleteMessage, Definition.name, hk]
  exact ⟨_, hstored inner rfl, _, _, DefinitionRecord.load_eq_ok hG hgenerated,
    hstored g' (hsame.trans hr.ofGraph_eq), Catalog.get?_register_self c _⟩

/-- A kind with one group of inputs and one of constants. -/
def Signature.tower : Signature :=
  ⟨"Tower", [.variadic "items" .any], [.value "tag" .string],
    [.value "top" .any, .value "size" .int]⟩

/-- Edits of its graph: Return is removed and made again, and in the end Entry is removed. -/
def towerEdits : List (Edit Definition) :=
  [.addNode (.action .gather), .removeNode ⟨2⟩, .addNode .result, .connect ⟨0, 9⟩ ⟨0, 11⟩,
    .setDefault ⟨2⟩ ⟨"size", none⟩ (.int 7), .setDefault ⟨3⟩ ⟨"items", some 2⟩ .null,
    .removeNode ⟨1⟩]

/-- The graph with the signature. -/
def towerFrame : Graph Definition := (Edit.setSignature .tower).perform (.empty 0 .standard)

theorem storable_gather : Definition.gather.Storable (Catalog.empty.register .gather) :=
  ⟨⟨.gather, define_eq_ok.2 ⟨_, rfl, checkParams_eq_ok.2 (by decide), rfl⟩⟩, by decide, rfl⟩

/-- The wrapped graph has an Entry again, and is loaded as it was stored. -/
theorem load_tower : (towerEdits.foldl Edit.perform towerFrame).entryNode? = none ∧
    ∃ d r, Definition.generated .tower (towerEdits.foldl Edit.perform towerFrame) = .ok d ∧
      DefinitionRecord.ofDefinition?
        ((d.withObsoleteNames ["Heap"]).withObsoleteMessage (some "renamed")) = some r ∧
      r.graph.nodes.map (fun n => (n.id, n.defaults.keys)) =
        [(1, []), (2, ["size"]), (3, ["items[2]"])] ∧
      r.graph.connections = [⟨3, "item", 2, "top", 0, .value⟩] ∧
      ∃ c' d', r.load (Catalog.empty.register .gather) 5 = .ok (c', d') ∧
        DefinitionRecord.ofDefinition? d' = some r ∧ c'.get? "Tower" = some d' := by
  have hnew : Graph.withSignature 0 .standard .tower = .ok towerFrame := rfl
  obtain ⟨d, hd⟩ : ∃ d,
      Definition.generated .tower (towerEdits.foldl Edit.perform towerFrame) = .ok d := ⟨_, rfl⟩
  have hreachable : Reachable (· = .gather) (towerEdits.foldl Edit.perform towerFrame) := by
    refine .foldl ?_ (.owned .standard hnew)
    simp [towerEdits, Edit.offers, NodeKind.action?, eq_comm]
  have hkinds : ∀ inner, d.inner? = some inner → ∀ n ∈ inner.nodes, ∀ k, n.kind = .action k →
      k.Storable (Catalog.empty.register .gather) := by
    intro inner hinner n hn k hk
    obtain ⟨-, -, inner', hset, -, rfl⟩ := generated_eq_ok_iff.1 hd
    obtain rfl := Option.some.inj hinner
    obtain rfl := ((hreachable.setSignature hset).invariant.2 n hn).1 k hk
    exact storable_gather
  obtain ⟨r, hr, hload⟩ := Definition.load_generated hnew towerEdits (by decide) hd
    ⟨by decide, by decide, by decide, by decide⟩ hkinds ["Heap"] (some "renamed") 5
  refine ⟨by decide, d, r, hd, hr, ?_, ?_, hload⟩
  all_goals
    obtain rfl := Except.ok.inj hd
    obtain rfl := Option.some.inj hr
  · decide
  · decide

end EffectGraph
