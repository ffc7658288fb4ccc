import EffectGraph.Proofs.Endpoints
import EffectGraph.Proofs.Failures
import EffectGraph.Proofs.Frame
import EffectGraph.Proofs.Plain
import EffectGraph.Proofs.Redefining

/-!
# Defaults reach the slots that they are set for

Which slots a node shows follows from its kind, or for Return from the signature of the graph; which
of them take a default is checked against the declarations; and a read looks for the default under
the key of the port. The three agree but for one case: for a group among the outputs of a signature
Return shows a single port, and no default can be set for it (`Valid.checkSlot_shown_iff`). A
default that is set is what every unconnected port of its slot is read as, whatever edits follow
that do not concern it (`Stores.foldl`), until it is cleared. The results are put together in
`Reachable.default_served`.
-/

namespace EffectGraph

open EffectGraph.Graph

/-! ## Slots that take a default -/

namespace Graph

section Slots

variable {g : Graph Definition} {m : Node Definition} {p : Port}

/-- What a name finds among the outputs of the graph's signature is no group, if the node is Return.
Of other nodes nothing is asked. -/
def ReturnsSingle (g : Graph Definition) (m : Node Definition) (name : String) : Prop :=
  m.kind = .result → ∀ s, g.signature = some s → ∀ d, s.output? name = some d →
    d.isVariadic = false

/-- A value input that a node shows is declared by the kind. On an action node it has a place in a
group exactly if it is declared as a group, and on Return it has none. -/
theorem Shaped.decl_of_input (h : g.Shaped m) (hp : p ∈ m.inputs)
    (hvalue : p.decl.isControl = false) :
    (∃ d, m.kind = .action d ∧ p.decl ∈ d.signature.inputs ∧ p.decl.isVariadic = p.slot.isSome) ∨
      m.kind = .result ∧ p.slot = none ∧ ∃ s, g.signature = some s ∧ p.decl ∈ s.outputs := by
  obtain ⟨w, hw, -⟩ := h.inputs
  have hshown : p.spec ∈ g.inputShape m w := hw ▸ List.mem_map_of_mem (f := Port.spec) hp
  have hdata : p.decl ≠ .control enterName := fun heq => by simp [heq, PortDecl.control] at hvalue
  cases hkind : m.kind with
  | action d =>
    obtain ⟨hdecl, hslot⟩ := (mem_inputShape_iff hkind).1 hshown
    refine .inl ⟨d, rfl, (List.mem_cons.1 hdecl).resolve_left hdata, ?_⟩
    rcases hslot with ⟨hgroup, i, hi, -⟩ | ⟨hsingle, hi⟩
    · exact hgroup.trans (congrArg Option.isSome hi).symm
    · exact hsingle.trans (congrArg Option.isSome hi).symm
  | entry => simp [inputShape, hkind] at hshown
  | result =>
    simp only [inputShape, hkind] at hshown
    rcases List.mem_cons.1 hshown with heq | hshown
    · exact absurd (congrArg PortSpec.decl heq) hdata
    · obtain ⟨d, hd, hspec⟩ := List.mem_map.1 hshown
      obtain rfl : d = p.decl := congrArg PortSpec.decl hspec
      have hslot : none = p.slot := congrArg PortSpec.slot hspec
      refine .inr ⟨rfl, hslot.symm, ?_⟩
      cases hsignature : g.signature with
      | none => simp [hsignature] at hd
      | some s => exact ⟨s, rfl, by simpa [hsignature] using hd⟩

/-- A slot that a node shows takes a default, but for a group that Return shows a port for. -/
theorem Valid.checkSlot_shown_iff (hv : g.Valid [])
    (hdistinct : ∀ d, m.kind = .action d → d.signature.Distinct) (hm : m ∈ g.nodes)
    (hp : p ∈ m.inputs) (hvalue : p.decl.isControl = false) :
    g.checkSlot m.id p.key = .ok p.key.index.isSome ↔ g.ReturnsSingle m p.decl.name := by
  have hnode := node?_of_mem hv.ascending hm
  have hlimit : ∀ i, p.key.index = some i → i < slotLimit := hv.slots_inputs hm p hp
  have hcheck : g.checkSlot m.id p.key = .ok p.key.index.isSome ↔
      ∃ d, ((m.kind.slots g.signature).find? fun d => d.name = p.decl.name) = some d ∧
        d.isVariadic = p.slot.isSome := by
    refine (checkSlot_eq_ok_iff (k := p.key)).trans ⟨?_, fun hd => ⟨m, hnode, hd, hlimit⟩⟩
    rintro ⟨k, hk, hd, -⟩
    obtain rfl := Option.some.inj (hnode.symm.trans hk)
    exact hd
  rw [hcheck]
  rcases (hv.shaped m hm List.not_mem_nil).decl_of_input hp hvalue with
    ⟨d, hkind, hdecl, hslot⟩ | ⟨hkind, hslot, s, hsignature, hdecl⟩
  · have hfind := find?_of_nodup_map (hdistinct d hkind) hdecl
      (p := fun q => q.name = p.decl.name) (by simp)
    refine ⟨fun _ hresult => by simp [hkind] at hresult, fun _ => ⟨p.decl, ?_, hslot⟩⟩
    rw [hkind]
    exact hfind
  · have hslots : m.kind.slots g.signature = s.outputs := by rw [hkind, hsignature]; rfl
    obtain ⟨d, hd⟩ := Option.isSome_iff_exists.1 (List.find?_isSome.2 ⟨p.decl, hdecl, by simp⟩ :
      (s.outputs.find? fun d => d.name = p.decl.name).isSome = true)
    rw [hslots, hd, hslot]
    constructor
    · rintro ⟨_, heq, hsingle⟩ - _ hs d' hd'
      obtain rfl := Option.some.inj heq
      obtain rfl := Option.some.inj (hsignature.symm.trans hs)
      obtain rfl := Option.some.inj (hd.symm.trans hd')
      exact hsingle
    · exact fun h => ⟨d, rfl, h hkind s hsignature d hd⟩

end Slots

end Graph

/-! ## What a slot is read as -/

section Reads

variable {σ : Type} {s : Setting} {q : PortId} {port : PlacedPort}

/-- A value input that is neither memoized nor connected has its default. -/
theorem Engine.read_unconnected (engine : Engine σ) (hport : s.graph.port? q = some port)
    (hrole : port.role = .valueInput) (hfree : s.graph.isConnected q = false) {m : Machine σ}
    (hmemo : m.memory.scopes.find? q = none) :
    engine.read s q m = some (.ok (s.coerce port (s.unconnected port)), m) := by
  have hsource : s.graph.valueSource? q = none := by
    unfold valueSource?
    split
    next hid =>
      refine Option.map_eq_none_iff.2 (List.find?_eq_none.2 fun c hc hend => ?_)
      have hunwired : s.graph.isWired q.index = false := by
        simpa [isConnected, hid] using hfree
      have htouches := List.any_eq_false.1 hunwired c hc
      simp [Connection.touches, of_decide_eq_true hend] at htouches
    next => rfl
  simp only [read, Exec.peek_bind, hmemo, getPort_eq_ok.2 hport, Exec.ofGraph_ok_bind, hrole,
    hsource]
  rfl

/-- Every unconnected port of a slot of a node is read as a value that depends on the hook and the
type of the port, in all flows over the graph that have not memoized it. -/
def Graph.Serves (g : Graph Definition) (n : NodeId) (k : SlotKey)
    (value : ConversionHook → ValueType → Value) : Prop :=
  ∀ q port, g.port? q = some port → port.node = n → port.role = .valueInput → port.port.key = k →
    g.isConnected q = false →
      ∀ {σ : Type} (host : Host σ) (s : Setting), s.graph = g → ∀ m : Machine σ,
        m.memory.scopes.find? q = none → ∀ j,
          exec host (j + 1) s (.read q) m = some (.ok (value s.hook port.port.decl.type), m)

/-- The ports of a slot are read as its default, or else as the default of their type. -/
theorem Graph.Ascending.serves {g : Graph Definition} (h : g.Ascending) {m : Node Definition}
    (hm : m ∈ g.nodes) {k : SlotKey} {value : ConversionHook → ValueType → Value}
    (hvalue : ∀ hook type,
      ((m.defaults.get? k).getD type.default).convert hook type = value hook type) :
    g.Serves m.id k value := by
  rintro q port hport hnode hrole rfl hfree σ host s rfl mach hmemo j
  refine (Engine.read_unconnected (exec host j) hport hrole hfree hmemo).trans ?_
  have hfound : s.graph.node? port.node = some m := hnode ▸ node?_of_mem h hm
  rw [← hvalue, Setting.coerce, Setting.unconnected, hfound]
  rfl

end Reads

/-! ## Defaults that stay -/

namespace Edit

/-- An edit that leaves a slot of a node alone: it does not set or clear the default, it does not
remove the node, and if it gives the kind of the node another definition then one that declares the
slot. -/
def Leaves (m : Node Definition) (k : SlotKey) : Edit Definition → Prop
  | setDefault n j _ => n = m.id → j ≠ k
  | clearDefault n j => n = m.id → j ≠ k
  | removeNode n => n ≠ m.id
  | redefine d => m.Bears d.signature.name → declaresSlot d.signature k = true
  | _ => True

theorem stored_kind (e : Edit Definition) (m : Node Definition) : (e.stored m).kind = m.kind := by
  cases e <;> simp only [stored] <;> split_ifs <;> rfl

theorem Leaves.get?_stored {e : Edit Definition} {m m₁ : Node Definition} {k : SlotKey}
    (h : e.Leaves m k) (hid : m₁.id = m.id) :
    (e.stored m₁).defaults.get? k = m₁.defaults.get? k := by
  cases e with
  | setDefault n j v =>
    simp only [stored]
    split_ifs with hn
    · rw [Table.get?_insert, if_neg (h (hn.symm.trans hid)).symm]
    · rfl
  | clearDefault n j =>
    simp only [stored]
    split_ifs with hn
    · rw [Table.get?_erase, if_neg (h (hn.symm.trans hid)).symm]
    · rfl
  | _ =>
    simp only [stored]
    first
      | done
      | split_ifs <;> rfl

end Edit

theorem Node.Bears.of_kind {m m' : Node Definition} {name : String} (h : m'.Bears name)
    (hkind : m'.kind = m.kind) : m.Bears name := by
  rwa [Node.Bears, ← hkind]

namespace Graph

/-- A node of the graph, of the kind that a given one had, has a default for a slot. -/
def Stores (g : Graph Definition) (m : Node Definition) (k : SlotKey) (v : Value) : Prop :=
  ∃ m₁ ∈ g.nodes, m₁.id = m.id ∧ (∀ name, m₁.Bears name → m.Bears name) ∧
    m₁.defaults.get? k = some v

namespace Stores

variable {g g' : Graph Definition} {m : Node Definition} {k : SlotKey} {v : Value}

theorem reshapes (h : g.Stores m k v) (hr : g.Reshapes g') : g'.Stores m k v := by
  obtain ⟨m₁, hm₁, hid, hbears, hv⟩ := h
  obtain ⟨m₂, hm₂, hbare⟩ := hr.image hm₁
  have hid₂ : m₂.id = m₁.id := congrArg (fun a => a.id) hbare
  have hkind : m₂.kind = m₁.kind := congrArg (fun a => a.kind) hbare
  have hdefaults : m₂.defaults = m₁.defaults := congrArg (fun a => a.defaults) hbare
  exact ⟨m₂, hm₂, hid₂.trans hid, fun name hname => hbears name (hname.of_kind hkind),
    hdefaults ▸ hv⟩

theorem frame {e : Edit Definition} (h : g.Stores m k v) (hf : e.Frame g g')
    (he : e.Leaves m k) : g'.Stores m k v := by
  obtain ⟨m₁, hm₁, hid, hbears, hv⟩ := h
  have hkept := (hf.remain m₁.id (List.mem_map_of_mem hm₁)).resolve_right fun hremove => by
    subst hremove
    exact he hid
  obtain ⟨m₂, hm₂, hid₂⟩ := List.mem_map.1 hkept
  have hbare := hf.stores m₁ hm₁ m₂ hm₂ hid₂
  have hkind : m₂.kind = m₁.kind := (congrArg (fun a => a.kind) hbare).trans (e.stored_kind m₁)
  have hdefaults : m₂.defaults = (e.stored m₁).defaults := congrArg (fun a => a.defaults) hbare
  exact ⟨m₂, hm₂, hid₂.trans hid, fun name hname => hbears name (hname.of_kind hkind),
    by rw [hdefaults, he.get?_stored hid, hv]⟩

theorem addNodeAt {stale : List NodeId} (h : g.Stores m k v) (hg : g.Valid stale) {n : NodeId}
    {kind : NodeKind Definition} (ha : g.addNodeAt n kind = .ok g') : g'.Stores m k v := by
  obtain ⟨m₁, hm₁, hstored⟩ := h
  exact Stores.reshapes (g := { g with nodes := insertNode (.fresh n kind) g.nodes })
    ⟨m₁, mem_insertNode.2 (.inr hm₁), hstored⟩ (hg.reshapes_place ha)

theorem ensure {stale : List NodeId} (h : g.Stores m k v) (hg : g.Valid stale)
    {kind : NodeKind Definition} {present : Option NodeId} {r : Graph Definition × Option NodeId}
    (he : g.ensure kind present = .ok r) : r.1.Stores m k v := by
  rcases ensure_eq_ok.1 he with ⟨n, rfl, rfl⟩ | ⟨rfl, g', n, ha, rfl⟩
  · exact h.reshapes (reshapes_reshape hg.wellFormed n)
  · exact h.addNodeAt hg (addNode_eq_ok.1 ha).1

theorem setSignature (h : g.Stores m k v) (hg : g.Valid []) {s : Signature}
    (hs : g.setSignature s = .ok g') : g'.Stores m k v := by
  obtain ⟨r, r', hr, hr', hwire⟩ := setSignature_eq_ok.1 hs
  have hentry : r.1.Stores m k v :=
    Stores.ensure (g := { g with signature := some s }) h (hg.signed s) hr
  have hboth := hentry.ensure (hg.ensure_entry hr) hr'
  rcases hwire with ⟨e, t, -, -, hwire⟩ | ⟨-, rfl⟩
  · obtain ⟨a, b, -, -, hc⟩ := wire_eq_ok.1 hwire
    have hframe : (Edit.connect a b).Frame r'.1 g' :=
      (hg.ensure_both hr hr').frame_connect hc (fun _ => rfl) fun _ hcs => hcs
    exact hboth.frame hframe trivial
  · exact hboth

/-- Only the nodes of its kind are turned to a new definition. -/
theorem redefine (h : g.Stores m k v) (hg : g.Valid []) {d : Definition}
    (hd : m.Bears d.signature.name → declaresSlot d.signature k = true) :
    (g.redefine d).1.Stores m k v := by
  have hturned : m.id ∈ g.nodesOfKind d.signature.name → m.Bears d.signature.name := by
    obtain ⟨m₁, hm₁, hid, hbears, -⟩ := h
    intro hmem
    obtain ⟨m₂, hm₂, hid₂, hname⟩ := mem_nodesOfKind.1 hmem
    obtain rfl := hg.ascending.id_inj hm₂ hm₁ (hid₂.trans hid.symm)
    exact hbears _ hname
  refine (List.foldlRecOn (motive := fun g => Valid [] g ∧ Stores g m k v) _ _ ⟨hg, h⟩
    fun a ha i hi => ⟨ha.1.redefineNode d i, ?_⟩).2
  refine Stores.reshapes (g := a.updateNode i (.turn d)) ?_
    (reshapes_reshape (ha.1.turn d i).wellFormed i)
  obtain ⟨m₁, hm₁, hid, hbears, hv⟩ := ha.2
  refine ⟨_, mem_nodes_updateNode.2 ⟨m₁, hm₁, rfl⟩, ?_⟩
  split
  next hturn =>
    have hname : m.Bears d.signature.name := hturned (hid.symm.trans hturn ▸ hi)
    refine ⟨hid, ?_, ?_⟩
    · rintro _ ⟨d', hd', rfl⟩
      obtain rfl := NodeKind.action.inj hd'
      exact hname
    · have hfilter := Table.lookupEntry_filter_key (declaresSlot d.signature) k m₁.defaults.entries
      exact hfilter.trans ((if_pos (hd hname)).trans hv)
  next => exact ⟨hid, hbears, hv⟩

/-- An edit that leaves a slot alone keeps its default. -/
theorem edit {K : Definition → Prop} (h : g.Stores m k v) (hg : Reachable K g)
    {e : Edit Definition} (hleaves : e.Leaves m k) (he : e.apply g = .ok g') :
    g'.Stores m k v := by
  cases e with
  | setSignature s => exact h.setSignature hg.valid he
  | redefine d =>
    obtain rfl := Except.ok.inj he
    exact h.redefine hg.valid hleaves
  | clone i =>
    obtain rfl := Except.ok.inj he
    exact h
  | _ => exact h.frame (hg.edit_frame he nofun nofun nofun) hleaves

/-- So do any number of them, refused or not. -/
theorem foldl {K : Definition → Prop} (h : g.Stores m k v) (hg : Reachable K g)
    {es : List (Edit Definition)} (hleaves : ∀ e ∈ es, e.Leaves m k)
    (hK : ∀ e ∈ es, ∀ d, e.offers = some d → K d) : (es.foldl Edit.perform g).Stores m k v :=
  (List.foldlRecOn (motive := fun g => Reachable K g ∧ Stores g m k v) es _ ⟨hg, h⟩
    fun _ ha e he => ⟨.edited e (hK e he) ha.1, Reachable.perform_induct
      (P := fun g => Stores g m k v) (fun _ happly => ha.2.edit ha.1 (hleaves e he) happly) ha.2⟩).2

end Stores

end Graph

/-! ## Setting and clearing -/

section Cycle

variable {K : Definition → Prop} {g g' : Graph Definition} {m : Node Definition} {p : Port}
  {v : Value}

/-- A port keeps its place when a default is set for its slot, and gets no connection. -/
theorem Reachable.setDefault_shown (h : Reachable K g) (hm : m ∈ g.nodes) (hp : p ∈ m.inputs)
    (hs : g.setDefault m.id p.key v = .ok g') :
    g'.Stores m p.key v ∧ g'.port? (g.portId p.index) = some ⟨m.id, .input, p⟩ ∧
      g'.isConnected (g.portId p.index) = g.isConnected (g.portId p.index) := by
  have he : (Edit.setDefault m.id p.key v).apply g = .ok g' := hs
  have hframe := h.edit_frame he nofun nofun nofun
  obtain ⟨m', hm', hid⟩ := List.mem_map.1
    ((hframe.remain m.id (List.mem_map_of_mem hm)).resolve_right nofun)
  have hbare : m'.bare = (m.mapDefaults (·.insert p.key v)).bare := by
    refine (hframe.stores m hm m' hm' hid).trans ?_
    simp only [Edit.stored, if_true]
    rfl
  have hdefaults : m'.defaults = m.defaults.insert p.key v :=
    congrArg (fun a => a.defaults) hbare
  have hport : p ∈ m'.inputs := by
    by_contra hgone
    refine ((hframe.resized m hm m' hm' hid).went p hp hgone).2 ?_
    rw [hdefaults]
    exact Table.mem_keys_insert.2 (.inl rfl)
  have hportId : g.portId p.index = g'.portId p.index := by rw [portId, portId, hframe.id]
  have hconnections : g'.connections = g.connections := hframe.wires
  have hkind : m'.kind = m.kind := congrArg (fun a => a.kind) hbare
  refine ⟨⟨m', hm', hid, fun _ hname => hname.of_kind hkind, ?_⟩, ?_, ?_⟩
  · rw [hdefaults, Table.get?_insert, if_pos rfl]
  · rw [hportId, ← hid]
    have hv' := h.valid.edit he
    exact hv'.wellFormed.port?_portId (input_mem_allPorts hm' hport)
  · simp only [isConnected, isWired, hframe.id, hconnections]

/-- After a default has been cleared, the slot is read as the default of its type. -/
theorem Graph.Valid.serves_cleared (hv : g.Valid []) {n : NodeId} {k : SlotKey}
    {r : Graph Definition × Option Value} (hc : g.clearDefault n k = .ok r) :
    r.1.Serves n k fun _ type => type.default := by
  have hv' := hv.clearDefault hc
  obtain ⟨-, m, hm, rfl⟩ := clearDefault_eq_ok.1 hc
  obtain ⟨hmem, rfl⟩ := node?_mem hm
  obtain ⟨m', hm', hbare⟩ := (hv.reshapes_updateDefaults k.index.isSome (·.erase k)).image
    (mem_nodes_updateNode.2 ⟨m, hmem, if_pos rfl⟩)
  have hid : m'.id = m.id := congrArg (fun a => a.id) hbare
  have hdefaults : m'.defaults = m.defaults.erase k := congrArg (fun a => a.defaults) hbare
  rw [← hid] at hv' hm' ⊢
  refine hv'.ascending.serves hm' fun hook type => ?_
  rw [hdefaults, Table.get?_erase, if_pos rfl, Option.getD_none, Value.convert_default]

end Cycle

/-- A default reaches the slot that it is set for. For every value input that a node of a reachable
graph shows without a connection, but for a port of Return that stands for a group, every value is
accepted. The port stays, and in all flows that have not memoized it, it and every unconnected port
of the slot is read as the value, converted to the type of the port, whatever edits follow that
leave the slot alone. As long as the slot is shown the default can be cleared, which answers with
the value; from then on the unconnected ports of the slot are read as the defaults of their types.
-/
theorem Reachable.default_served {g : Graph Definition} (h : Reachable Definition.Built g)
    {m : Node Definition} (hm : m ∈ g.nodes) {p : Port} (hp : p ∈ m.inputs)
    (hvalue : p.decl.isControl = false) (hfree : g.isConnected (g.portId p.index) = false)
    (hsingle : g.ReturnsSingle m p.decl.name) (v : Value) :
    ∃ g', g.setDefault m.id p.key v = .ok g' ∧
      g'.port? (g.portId p.index) = some ⟨m.id, .input, p⟩ ∧
      g'.isConnected (g.portId p.index) = false ∧
      ∀ es : List (Edit Definition), (∀ e ∈ es, e.Leaves m p.key) →
        (∀ e ∈ es, ∀ d, e.offers = some d → d.Built) →
        (es.foldl Edit.perform g').Serves m.id p.key (fun hook type => v.convert hook type) ∧
        ∀ m₁ ∈ (es.foldl Edit.perform g').nodes, m₁.id = m.id → ∀ p₁ ∈ m₁.inputs,
          p₁.key = p.key → p₁.decl.isControl = false →
          (es.foldl Edit.perform g').ReturnsSingle m₁ p₁.decl.name →
            ∃ g₂, (es.foldl Edit.perform g').clearDefault m.id p.key = .ok (g₂, some v) ∧
              g₂.Serves m.id p.key fun _ type => type.default := by
  have hcheck := (h.valid.checkSlot_shown_iff
    (fun d hd => ((h.invariant.2 m hm).1 d hd).distinct) hm hp hvalue).2 hsingle
  obtain ⟨g', hset⟩ : ∃ g', g.setDefault m.id p.key v = .ok g' :=
    ⟨_, setDefault_eq_ok.2 ⟨hcheck, rfl⟩⟩
  obtain ⟨hstores, hport, hwired⟩ := h.setDefault_shown hm hp hset
  have hreachable : Reachable Definition.Built g' := by
    have hperform : (Edit.setDefault m.id p.key v).perform g = g' := by
      simp [Edit.perform, Edit.apply, hset]
    exact hperform ▸ .edited _ (by simp [Edit.offers]) h
  refine ⟨g', hset, hport, hwired.trans hfree, fun es hleaves hbuilt => ?_⟩
  have hlater := hreachable.foldl hbuilt
  obtain ⟨m₁, hm₁, hid, -, hdefault⟩ := hstores.foldl hreachable hleaves hbuilt
  refine ⟨?_, fun m₂ hm₂ hid₂ p₁ hp₁ hkey hvalue₁ hsingle₁ => ?_⟩
  · rw [← hid]
    exact hlater.valid.ascending.serves hm₁ fun hook type => by rw [hdefault]; rfl
  · obtain rfl := hlater.valid.ascending.id_inj hm₂ hm₁ (hid₂.trans hid.symm)
    have hcheck₁ := (hlater.valid.checkSlot_shown_iff
      (fun d hd => ((hlater.invariant.2 m₂ hm₂).1 d hd).distinct) hm₂ hp₁ hvalue₁).2 hsingle₁
    rw [hkey, hid₂] at hcheck₁
    have hclear := clearDefault_eq_ok.2
      ⟨hcheck₁, m₂, hid₂ ▸ node?_of_mem hlater.valid.ascending hm₂, rfl⟩
    rw [hdefault] at hclear
    exact ⟨_, hclear, hlater.valid.serves_cleared hclear⟩

/-- The inner graph of a definition that declares a number and a group of numbers as outputs. -/
def pooledOwner : Graph Definition :=
  (Edit.setSignature ⟨"Owner", [], [], [.value "count" .int, .variadic "pool" .int]⟩).perform
    (.empty 0 .standard)

theorem reachable_pooledOwner : Reachable Definition.Built pooledOwner :=
  .edited _ (by simp [Edit.offers]) (.blank 0 .standard)

/-- A numeral that is given to Return for the number is read as an integer, also when a default has
been set that concerns the group, and is answered when it is cleared. -/
theorem default_served_pooledOwner :
    ∃ g₁ g₂ : Graph Definition,
      [Edit.setDefault ⟨2⟩ ⟨"count", none⟩ (.string "7"),
        .setDefault ⟨2⟩ ⟨"pool", some 0⟩ (.int 1)].foldl Edit.perform pooledOwner = g₁ ∧
      exec nullHost 1 (.top g₁ .empty ⟨32, true⟩ .standard) (.read ⟨0, 2⟩)
        ⟨.start .empty, [], ()⟩ = some (.ok (.int 7), ⟨.start .empty, [], ()⟩) ∧
      g₁.clearDefault ⟨2⟩ ⟨"count", none⟩ = .ok (g₂, some (.string "7")) ∧
      exec nullHost 1 (.top g₂ .empty ⟨32, true⟩ .standard) (.read ⟨0, 2⟩)
        ⟨.start .empty, [], ()⟩ = some (.ok (.int 0), ⟨.start .empty, [], ()⟩) := by
  obtain ⟨hmem, -⟩ := node?_mem (rfl : pooledOwner.node? ⟨2⟩ = some _)
  obtain ⟨g', hset, -, -, hlater⟩ := reachable_pooledOwner.default_served hmem
    (p := ⟨2, .value "count" .int, none⟩) (.tail _ (.head _)) rfl rfl
    (fun _ s hs d hd => by
      obtain rfl := Option.some.inj hs
      obtain rfl := Option.some.inj hd
      rfl) (.string "7")
  obtain rfl := Except.ok.inj hset
  obtain ⟨hserves, hclear⟩ := hlater [.setDefault ⟨2⟩ ⟨"pool", some 0⟩ (.int 1)]
    (by simp [Edit.Leaves, Port.key]) (by simp [Edit.offers])
  obtain ⟨g₂, hclear, hserves₂⟩ := hclear _ (.tail _ (.head _)) rfl _ (.tail _ (.head _)) rfl rfl
    fun _ s hs d hd => by
      obtain rfl := Option.some.inj hs
      obtain rfl := Option.some.inj hd
      rfl
  refine ⟨_, g₂, rfl, hserves ⟨0, 2⟩ _ rfl rfl rfl rfl rfl nullHost _ rfl _ rfl 0, hclear, ?_⟩
  obtain rfl := (Prod.mk.inj (Except.ok.inj hclear)).1
  exact hserves₂ ⟨0, 2⟩ _ rfl rfl rfl rfl rfl nullHost _ rfl _ rfl 0

/-- A group among the outputs of a definition: Return shows a port for it that is not connected, and
its slot is refused when a default is to be set for it. -/
theorem default_refused_pooledOwner : Reachable Definition.Built pooledOwner ∧
    ∃ m ∈ pooledOwner.nodes, ∃ p ∈ m.inputs, m.kind = .result ∧ p.decl.isControl = false ∧
      pooledOwner.isConnected (pooledOwner.portId p.index) = false ∧
      pooledOwner.setDefault m.id p.key (.int 7) = .error (.noSuchPort ⟨2⟩ "pool" none) := by
  obtain ⟨hmem, -⟩ := node?_mem (rfl : pooledOwner.node? ⟨2⟩ = some _)
  exact ⟨reachable_pooledOwner, _, hmem, _, .tail _ (.tail _ (.head _)), rfl, rfl, rfl, rfl⟩

end EffectGraph
