import EffectGraph.Proofs.Exact
import EffectGraph.Proofs.Resizing

/-!
# What an edit leaves alone

An edit changes the connections and the one stored value that it is about, and reshapes nodes on
that account. `Edit.Wires` says which connections there are afterwards, and `Edit.stored` what a
node stores. Beyond that only spare slots come and go: the main result (`Reachable.edit_frame`) says
so of every edit of a reachable graph but those that give the graph a signature, a kind a
definition, or the graph another identity.
-/

namespace EffectGraph

open EffectGraph.Graph

variable {κ : Type}

/-! ## What an edit is about -/

/-- The connections of a graph in which two ports, given in either order, have been connected: the
old ones if they were connected already, and otherwise the old ones without the one that the input
had (for a value) or the output had (for control), and then the new one. -/
def Graph.Rewired (g : Graph κ) (a b : PortId) (cs : List Connection) : Prop :=
  ∃ s d, (g.port? a = some s ∧ g.port? b = some d ∨ g.port? a = some d ∧ g.port? b = some s) ∧
    s.direction = .output ∧ d.direction = .input ∧
    ((∃ c ∈ g.connections, c.source = s.port.index ∧ c.destination = d.port.index) ∧
        cs = g.connections ∨
      (∀ c ∈ g.connections, ¬(c.source = s.port.index ∧ c.destination = d.port.index)) ∧
        (s.port.decl.isControl = true ∧ d.port.decl.isControl = true ∧
            cs = (g.connections.filter fun c => c.source ≠ s.port.index) ++
              [⟨.control, s.port.index, d.port.index⟩] ∨
          s.port.decl.isControl = false ∧ d.port.decl.isControl = false ∧
            cs = (g.connections.filter fun c => c.destination ≠ d.port.index) ++
              [⟨.value, s.port.index, d.port.index⟩]))

namespace Edit

/-- Which connections a graph has after an edit. -/
def Wires (g : Graph κ) (cs : List Connection) : Edit κ → Prop
  | connect a b => g.Rewired a b cs
  | wire source output destination input => ∃ a b, g.output? source output = some a ∧
      g.input? destination input none = some b ∧ g.Rewired a b cs
  | disconnect a b => cs = g.connections.filter fun c => !between a b c
  | isolatePort p => cs = g.connections.filter fun c => !c.touches p.index
  | isolateNode n => ∃ m, g.node? n = some m ∧ cs = g.connections.filter fun c => !touchesNode m c
  | removeNode n => ∃ m, g.node? n = some m ∧ cs = g.connections.filter fun c => !touchesNode m c
  | _ => cs = g.connections

/-- A node with the value that an edit stores on it. -/
def stored (m : Node κ) : Edit κ → Node κ
  | setConst n name v => if m.id = n then { m with consts := m.consts.insert name v } else m
  | setDefault n k v => if m.id = n then { m with defaults := m.defaults.insert k v } else m
  | clearDefault n k => if m.id = n then { m with defaults := m.defaults.erase k } else m
  | setPosition n p => if m.id = n then { m with position := p } else m
  | _ => m

/-- What an edit makes of a graph. -/
structure Frame (e : Edit κ) (g g' : Graph κ) : Prop where
  id : g'.id = g.id
  wires : e.Wires g g'.connections
  /-- The ends of a connection are the ports that they were before. -/
  ends : ∀ c ∈ g'.connections, ∀ i, c.touches i = true →
    ∃ q, g.port? (g.portId i) = some q ∧ g'.port? (g'.portId i) = some q
  remain : ∀ n ∈ g.nodeIds, n ∈ g'.nodeIds ∨ e = .removeNode n
  /-- A node stores what it stored before and what the edit stores on it. -/
  stores : ∀ m ∈ g.nodes, ∀ m' ∈ g'.nodes, m'.id = m.id → m'.bare = (e.stored m).bare
  /-- Only spare slots of a node come and go. -/
  resized : ∀ m ∈ g.nodes, ∀ m' ∈ g'.nodes, m'.id = m.id → g'.Resized m m'
  /-- A slot that comes has no default, unless the edit gives it one. -/
  came : ∀ m ∈ g.nodes, ∀ m' ∈ g'.nodes, m'.id = m.id → ∀ p ∈ m'.inputs, p ∉ m.inputs →
    p.key ∈ m'.defaults.keys → ∃ v, e = .setDefault m.id p.key v
  /-- A slot that goes had no default, unless the edit takes it away. -/
  went : ∀ m ∈ g.nodes, ∀ m' ∈ g'.nodes, m'.id = m.id → ∀ p ∈ m.inputs, p ∉ m'.inputs →
    p.key ∈ m.defaults.keys → e = .clearDefault m.id p.key

theorem stored_id (e : Edit κ) (m : Node κ) : (e.stored m).id = m.id := by
  cases e <;> simp only [stored] <;> split_ifs <;> rfl

/-- A default that a node has only after an edit is set by it. -/
theorem mem_defaults_stored {e : Edit κ} {m : Node κ} {k : SlotKey}
    (hk : k ∈ (e.stored m).defaults.keys) (hnot : k ∉ m.defaults.keys) :
    ∃ v, e = .setDefault m.id k v := by
  cases e with
  | setDefault n j v =>
    simp only [stored] at hk
    split_ifs at hk with hn
    · rcases Table.mem_keys_insert.1 hk with rfl | hk
      · exact ⟨v, by rw [hn]⟩
      · exact absurd hk hnot
    · exact absurd hk hnot
  | clearDefault n j =>
    simp only [stored] at hk
    split_ifs at hk
    · exact absurd (Table.mem_keys_erase.1 hk).2 hnot
    · exact absurd hk hnot
  | _ =>
    simp only [stored] at hk
    first
      | exact absurd hk hnot
      | split_ifs at hk <;> exact absurd hk hnot

/-- A default that a node has only before an edit is taken away by it. -/
theorem not_mem_defaults_stored {e : Edit κ} {m : Node κ} {k : SlotKey}
    (hk : k ∈ m.defaults.keys) (hnot : k ∉ (e.stored m).defaults.keys) :
    e = .clearDefault m.id k := by
  cases e with
  | setDefault n j v =>
    simp only [stored] at hnot
    split_ifs at hnot
    · exact absurd (Table.mem_keys_insert.2 (.inr hk)) hnot
    · exact absurd hk hnot
  | clearDefault n j =>
    simp only [stored] at hnot
    split_ifs at hnot with hn
    · by_cases hkj : k = j
      · rw [hkj, hn]
      · exact absurd (Table.mem_keys_erase.2 ⟨hkj, hk⟩) hnot
    · exact absurd hk hnot
  | _ =>
    simp only [stored] at hnot
    first
      | exact absurd hk hnot
      | split_ifs at hnot <;> exact absurd hk hnot

end Edit

/-! ## Putting frames together -/

namespace Graph

variable {g g₁ g' : Graph κ} {e : Edit κ} {n : NodeId}

/-- A number that a connection ends at denotes the same port before and after an edit that gives no
old number to a new port. -/
theorem WellFormed.port?_of_touches (hg : g.WellFormed) (hg' : g'.WellFormed)
    (hports : ∀ q ∈ g'.allPorts, q ∈ g.allPorts ∨ g.nextPort ≤ q.port.index) {c : Connection}
    (hc : c ∈ g'.connections) (hjoins : ∃ s d, g.Joins c s d) {i : Nat} (hi : c.touches i = true) :
    ∃ q, g.port? (g.portId i) = some q ∧ g'.port? (g'.portId i) = some q := by
  have hend : ∀ p ∈ g.allPorts, ∀ q ∈ g'.allPorts, p.port.index = i → q.port.index = i →
      ∃ q, g.port? (g.portId i) = some q ∧ g'.port? (g'.portId i) = some q := by
    intro p hp q hq hpi hqi
    have hused := hg.used p hp
    have hold := (hports q hq).resolve_right (by omega)
    obtain rfl := hg.port_inj hp hold (hpi.trans hqi.symm)
    exact ⟨p, hpi ▸ hg.port?_portId hp, hpi ▸ hg'.port?_portId hq⟩
  obtain ⟨s, d, hj⟩ := hjoins
  obtain ⟨s', d', hj'⟩ := hg'.joined c hc
  simp only [Connection.touches, Bool.or_eq_true, decide_eq_true_eq] at hi
  rcases hi with hi | hi
  · exact hend s hj.source_mem s' hj'.source_mem (hj.source_index.trans hi)
      (hj'.source_index.trans hi)
  · exact hend d hj.destination_mem d' hj'.destination_mem (hj.destination_index.trans hi)
      (hj'.destination_index.trans hi)

/-- The frame of an edit that stores its value, or drops and makes connections, and then reshapes.
-/
theorem WellFormed.frame (hg : g.WellFormed) (hg' : g'.WellFormed) (hasc : g₁.Ascending)
    (hreshapes : g₁.Reshapes g') (hid : g₁.id = g.id) (hnext : g₁.nextPort = g.nextPort)
    (hports : g₁.allPorts = g.allPorts) (hstored : ∀ m ∈ g.nodes, e.stored m ∈ g₁.nodes)
    (hwires : e.Wires g g'.connections) (hjoins : ∀ c ∈ g'.connections, ∃ s d, g.Joins c s d)
    (hresized : ∀ m ∈ g.nodes, ∀ m' ∈ g'.nodes, m'.id = m.id → g'.Resized m m') : e.Frame g g' := by
  have hid' : g'.id = g.id := hreshapes.id.trans hid
  have hstores : ∀ m ∈ g.nodes, ∀ m' ∈ g'.nodes, m'.id = m.id → m'.bare = (e.stored m).bare :=
    fun m hm m' hm' hmid =>
      hreshapes.bare_eq hasc (hstored m hm) hm' (hmid.trans (e.stored_id m).symm)
  have hdefaults : ∀ m ∈ g.nodes, ∀ m' ∈ g'.nodes, m'.id = m.id →
      m'.defaults = (e.stored m).defaults := fun m hm m' hm' hmid =>
    congrArg (·.defaults) (hstores m hm m' hm' hmid)
  refine ⟨hid', hwires, fun c hc i hi => ?_, fun n hn => .inl ?_, hstores, hresized, ?_, ?_⟩
  · exact hg.port?_of_touches hg'
      (fun q hq => (hreshapes.ports q hq).imp (hports ▸ ·) (hnext ▸ ·)) hc (hjoins c hc) hi
  · obtain ⟨m, hm, rfl⟩ := List.mem_map.1 hn
    rw [hreshapes.nodeIds]
    exact List.mem_map.2 ⟨_, hstored m hm, e.stored_id m⟩
  · intro m hm m' hm' hmid p hp hnot hkey
    rw [hdefaults m hm m' hm' hmid] at hkey
    exact Edit.mem_defaults_stored hkey ((hresized m hm m' hm' hmid).came p hp hnot).2
  · intro m hm m' hm' hmid p hp hnot hkey
    have hgone := ((hresized m hm m' hm' hmid).went p hp hnot).2
    rw [hdefaults m hm m' hm' hmid] at hgone
    exact Edit.not_mem_defaults_stored hkey hgone

variable [HasSignature κ]

/-- The frame of an edit of connections. -/
theorem Valid.frame_of_spares (h : g.Valid []) (h₁ : g₁.Valid []) (hspares : g₁.Spares g')
    (hg' : g'.WellFormed) (hnodes : g₁.nodes = g.nodes) (hid : g₁.id = g.id)
    (hnext : g₁.nextPort = g.nextPort) (hstored : ∀ m, e.stored m = m)
    (hwires : e.Wires g g₁.connections) (hjoins : ∀ c ∈ g₁.connections, ∃ s d, g.Joins c s d) :
    e.Frame g g' := by
  rw [← hspares.wires] at hwires hjoins
  refine h.wellFormed.frame hg' h₁.ascending hspares.toReshapes hid hnext ?_ (fun m hm => ?_)
    hwires hjoins fun m hm => hspares.resized m (hnodes ▸ hm)
  · rw [allPorts, allPorts, hnodes]
  · rw [hstored, hnodes]
    exact hm

/-- The frame of an edit that stores a value and reshapes nothing. -/
theorem Valid.frame_updateNode (h : g.Valid []) {f : Node κ → Node κ} (hid : ∀ m, (f m).id = m.id)
    (hinputs : ∀ m, (f m).inputs = m.inputs) (houtputs : ∀ m, (f m).outputs = m.outputs)
    (hstored : ∀ m, e.stored m = if m.id = n then f m else m) (hwires : e.Wires g g.connections) :
    e.Frame g (g.updateNode n f) := by
  have hwf := h.wellFormed.updateNode (n := n) hid hinputs houtputs
  refine h.wellFormed.frame hwf hwf.ascending (.refl _) rfl rfl
    (allPorts_updateNode hid hinputs houtputs) (fun m hm => ?_) hwires h.wellFormed.joined
    fun m hm m' hm' hmid => ?_
  · rw [hstored]
    exact mem_nodes_updateNode.2 ⟨m, hm, rfl⟩
  · obtain ⟨k, hk, rfl⟩ := mem_nodes_updateNode.1 hm'
    split_ifs at hmid ⊢
    · obtain rfl := h.ascending.id_inj hk hm ((hid k).symm.trans hmid)
      exact .of_ports (hinputs k) (houtputs k)
    · obtain rfl := h.ascending.id_inj hk hm hmid
      exact .refl _ k

/-- After a reshape that costs no connection a node is either another one, which is as it was, or
the reshaped one. -/
theorem Valid.resized_reshape {stale : List NodeId} (h : g₁.Valid stale) (hkeeps : g₁.Keeps n)
    {m m' : Node κ} (hm' : m' ∈ (g₁.reshape n).nodes)
    (hother : m' ∈ g₁.nodes → m'.id ≠ n → g₁.Resized m m')
    (hself : ∀ k ∈ g₁.nodes, k.id = n → m' = g₁.shapedNode k → g₁.Resized m m') :
    (g₁.reshape n).Resized m m' := by
  refine Resized.congr ?_ hkeeps.connections_reshape
  rw [hkeeps.reshape_eq] at hm'
  cases hn : g₁.node? n with
  | none =>
    rw [reshapeOne_of_none hn] at hm'
    exact hother hm' (node?_eq_none_iff.1 hn m' hm')
  | some k =>
    obtain ⟨hk, hid⟩ := node?_mem hn
    rcases (mem_nodes_reshapeOne h.ascending hn).1 hm' with ⟨hm', hne⟩ | he
    · exact hother hm' hne
    · exact hself k hk hid he

/-- The frame of an edit of a default. -/
theorem Valid.frame_updateDefaults (h : g.Valid []) {k : SlotKey}
    {f : Table SlotKey Value → Table SlotKey Value}
    (hkeys : ∀ t, ∀ j ∈ (f t).keys, j = k ∨ j ∈ t.keys)
    (hst : ∀ m ∈ g.nodes, m.id = n → (m.mapDefaults f).Stored)
    (hstored : ∀ m, e.stored m = if m.id = n then m.mapDefaults f else m)
    (hwires : e.Wires g g.connections) :
    e.Frame g ((g.updateNode n (.mapDefaults f)).reshapeIf n k.index.isSome) := by
  have hvalid := h.updateDefaults k hkeys hst
  unfold reshapeIf at hvalid ⊢
  split_ifs at hvalid ⊢
  · have h₁ : (g.updateNode n (.mapDefaults f)).Valid [n] :=
      h.updateNode (fun _ => rfl) (fun _ => rfl) (fun _ => rfl) (fun _ => .inl rfl) hst
    have hshaped : ∀ m ∈ g.nodes, g.Shaped m := fun m hm => h.shaped m hm List.not_mem_nil
    -- The node has the ports of a node in shape, so its reshape costs no connection.
    have hkeeps : (g.updateNode n (.mapDefaults f)).Keeps n := h₁.keeps_of_formed fun m hm hid => by
      obtain ⟨k, hk, rfl⟩ := mem_nodes_updateNode.1 hm
      split_ifs <;> exact (hshaped k hk).formed.congr rfl rfl rfl rfl
    have hconnections := hkeeps.connections_reshape
    refine h.wellFormed.frame hvalid.wellFormed h₁.ascending (reshapes_reshape h₁.wellFormed n) rfl
      rfl (allPorts_updateNode (fun _ => rfl) (fun _ => rfl) fun _ => rfl) (fun m hm => ?_)
      (hconnections ▸ hwires) (hconnections ▸ h.wellFormed.joined)
      fun m hm m' hm' hid => h₁.resized_reshape hkeeps hm' (fun hm' hne => ?_) fun k hk hkn he => ?_
    · rw [hstored]
      exact mem_nodes_updateNode.2 ⟨m, hm, rfl⟩
    · obtain ⟨k, hk, rfl⟩ := mem_nodes_updateNode.1 hm'
      split_ifs at hid hne ⊢ with hkn
      · exact absurd hkn hne
      · obtain rfl := h.ascending.id_inj hk hm hid
        exact .refl _ k
    · obtain ⟨k₀, hk₀, rfl⟩ := mem_nodes_updateNode.1 hk
      have hk₀n : k₀.id = n := by
        split_ifs at hkn with hn <;> exact hkn
      subst he
      rw [if_pos hk₀n] at hk hid ⊢
      obtain rfl := h.ascending.id_inj hk₀ hm hid
      exact h₁.resized_shapedNode ((hshaped k₀ hm).of_signature rfl) hk rfl rfl rfl
  · exact h.frame_updateNode (fun _ => rfl) (fun _ => rfl) (fun _ => rfl) hstored hwires

/-- A node without ports has none to lose. -/
theorem keeps_of_ports_nil (h : ∀ m ∈ g.nodes, m.id = n → m.inputs = [] ∧ m.outputs = []) :
    g.Keeps n := by
  intro m hm c hc
  obtain ⟨hmem, hid⟩ := node?_mem hm
  obtain ⟨hinputs, houtputs⟩ := h m hmem hid
  refine List.any_eq_false.2 fun p hp => ?_
  rcases List.mem_append.1 hp with hp | hp
  · exact absurd (mem_old_of_mem_dropped hp) (hinputs ▸ List.not_mem_nil)
  · exact absurd (mem_old_of_mem_dropped hp) (houtputs ▸ List.not_mem_nil)

theorem Valid.frame_addNodeAt (h : g.Valid []) {kind : NodeKind κ}
    (ha : g.addNodeAt n kind = .ok g') (hstored : ∀ m, e.stored m = m)
    (hwires : e.Wires g g.connections) : e.Frame g g' := by
  have hreshapes := h.reshapes_place ha
  have hvalid := h.addNodeAt ha
  obtain ⟨hpos, hfree, hkind, rfl⟩ := addNodeAt_eq_ok.1 ha
  obtain ⟨hentry, hresult⟩ := checkKind_eq_ok hkind
  have h₁ := h.insertNode hfree hpos hentry hresult
  have hids := node?_eq_none_iff.1 hfree
  have hkeeps : ({ g with nodes := Graph.insertNode (.fresh n kind) g.nodes } : Graph κ).Keeps n :=
    keeps_of_ports_nil fun m hm hid => by
      rcases mem_insertNode.1 hm with rfl | hm
      · exact ⟨rfl, rfl⟩
      · exact absurd hid (hids m hm)
  have hconnections := hkeeps.connections_reshape
  refine h.wellFormed.frame hvalid.wellFormed h₁.ascending hreshapes rfl rfl
    (allPorts_insertNode n kind g) (fun m hm => ?_) (hconnections ▸ hwires)
    (hconnections ▸ h.wellFormed.joined) fun m hm m' hm' hid =>
      h₁.resized_reshape hkeeps hm' (fun hm' hne => ?_) fun k hk hkn he => ?_
  · rw [hstored]
    exact mem_insertNode.2 (.inr hm)
  · rcases mem_insertNode.1 hm' with rfl | hm'
    · exact absurd rfl hne
    · obtain rfl := h.ascending.id_inj hm' hm hid
      exact .refl _ m'
  · subst he
    exact absurd (hid.symm.trans hkn) (hids m hm)

/-! ## Edits of connections -/

theorem Valid.frame_cut (h : g.Valid []) (p : Connection → Bool) (except : List NodeId)
    (hstored : ∀ m, e.stored m = m)
    (hwires : e.Wires g (g.connections.filter fun c => !p c)) : e.Frame g (g.cut p except).1 := by
  have h₁ := h.sever p
  exact h.frame_of_spares h₁ (h₁.spares_refresh _) (h.cut p except).wellFormed rfl rfl rfl hstored
    hwires fun c hc => h.wellFormed.joined c (List.mem_filter.1 hc).1

theorem Valid.connections_cut (h : g.Valid []) (p : Connection → Bool) (except : List NodeId) :
    (g.cut p except).1.connections = g.connections.filter fun c => !p c :=
  ((h.sever p).spares_refresh _).wires

/-- A new connection is one that is said to be made. -/
theorem rewired_of_checkConnection {a b : PortId} {j : Joint} (hj : g.checkConnection a b = .ok j) :
    (∃ c ∈ g.connections, c.source = j.source.port.index ∧
        c.destination = j.destination.port.index) ∧ g.Rewired a b g.connections ∨
      (∀ c ∈ g.connections, ¬(c.source = j.source.port.index ∧
        c.destination = j.destination.port.index)) ∧ g.Rewired a b (g.linked j).connections := by
  obtain ⟨p, q, hp, hq, -, horient, -⟩ := checkConnection_eq_ok.1 hj
  obtain ⟨hends, hout, hin, hsource, hdestination⟩ := orient?_eq_some horient
  have hports : g.port? a = some j.source ∧ g.port? b = some j.destination ∨
      g.port? a = some j.destination ∧ g.port? b = some j.source := by
    rcases hends with ⟨hs, hd⟩ | ⟨hs, hd⟩
    · exact .inl ⟨hs ▸ hp, hd ▸ hq⟩
    · exact .inr ⟨hd ▸ hp, hs ▸ hq⟩
  by_cases hc : ∃ c ∈ g.connections, c.source = j.source.port.index ∧
      c.destination = j.destination.port.index
  · exact .inl ⟨hc, _, _, hports, hout, hin, .inl ⟨hc, rfl⟩⟩
  · have hnew : ∀ c ∈ g.connections, ¬(c.source = j.source.port.index ∧
        c.destination = j.destination.port.index) := fun c hcm hcj => hc ⟨c, hcm, hcj⟩
    refine .inr ⟨hnew, _, _, hports, hout, hin, .inr ⟨hnew, ?_⟩⟩
    cases hk : j.kind with
    | control =>
      refine .inl ⟨hsource.2 hk, hdestination.2 hk, ?_⟩
      simp [linked, Graph.sever, Joint.connection, hk, Joint.replaces]
    | value =>
      refine .inr ⟨by simpa [hk] using hsource, by simpa [hk] using hdestination, ?_⟩
      simp [linked, Graph.sever, Joint.connection, hk, Joint.replaces]

theorem Valid.frame_connect (h : g.Valid []) {a b : PortId} (hc : g.connect a b = .ok g')
    (hstored : ∀ m, e.stored m = m) (hwires : ∀ cs, g.Rewired a b cs → e.Wires g cs) :
    e.Frame g g' := by
  obtain ⟨j, hj, rfl⟩ := connect_eq_ok.1 hc
  have hjoins := Joins.of_checkConnection hj
  rcases join_eq g j with ⟨he, hold⟩ | ⟨hnew, he⟩
  · have hrewired := (rewired_of_checkConnection hj).resolve_right fun hnot => by
      obtain ⟨c, hc, hends⟩ := hold
      exact hnot.1 c hc hends
    rw [he]
    exact h.frame_of_spares h (.refl h.ascending) h.wellFormed rfl rfl rfl hstored
      (hwires _ hrewired.2) h.wellFormed.joined
  · have hrewired := (rewired_of_checkConnection hj).resolve_left fun ⟨⟨c, hc, hends⟩, _⟩ =>
      hnew c hc hends
    have h₁ := h.linked hjoins
    rw [he]
    refine h.frame_of_spares h₁ (h₁.spares_refresh _) (h₁.refresh _).wellFormed rfl rfl rfl hstored
      (hwires _ hrewired.2) fun c hc => ?_
    rcases List.mem_append.1 hc with hc | hc
    · exact h.wellFormed.joined c (List.mem_filter.1 hc).1
    · obtain rfl := List.mem_singleton.1 hc
      exact ⟨_, _, hjoins⟩

theorem Valid.frame_removeNode (h : g.Valid []) {r : Graph κ × Node κ}
    (hr : g.removeNode n = .ok r) : (Edit.removeNode n).Frame g r.1 := by
  have hwf := (h.removeNode hr).wellFormed
  obtain ⟨m, hm, -, hr⟩ := removeNode_eq_ok.1 hr
  rw [← hr] at hwf ⊢
  -- Up to the removal of the node it is the cut of its connections.
  have hcut : (Edit.isolateNode n).Frame g (g.cut (touchesNode m) [n]).1 :=
    h.frame_cut _ _ (fun _ => rfl) ⟨m, hm, rfl⟩
  have hsub : ∀ k ∈ ((g.cut (touchesNode m) [n]).1.without n).nodes,
      k ∈ (g.cut (touchesNode m) [n]).1.nodes := fun k hk => (List.mem_filter.1 hk).1
  have hreshapes : (g.sever (touchesNode m)).Reshapes (g.cut (touchesNode m) [n]).1 :=
    reshapes_refresh (h.sever _).wellFormed _
  refine ⟨hcut.id, ⟨m, hm, h.connections_cut _ _⟩, fun c hc i hi => ?_, fun k hk => ?_,
    fun k hk k' hk' hid => hcut.stores k hk k' (hsub k' hk') hid,
    fun k hk k' hk' hid => (hcut.resized k hk k' (hsub k' hk') hid).congr rfl,
    fun k hk k' hk' hid p hp hnot hkey => ?_, fun k hk k' hk' hid p hp hnot hkey => ?_⟩
  · refine h.wellFormed.port?_of_touches hwf (fun q hq => ?_) hc ?_ hi
    · exact hreshapes.ports q (mem_allPorts_without.1 hq).1
    · refine h.wellFormed.joined c ?_
      rw [show ((g.cut (touchesNode m) [n]).1.without n).connections = _ from
        h.connections_cut (touchesNode m) [n]] at hc
      exact (List.mem_filter.1 hc).1
  · by_cases hkn : k = n
    · exact .inr (hkn ▸ rfl)
    · have hcutIds := (hcut.remain k hk).resolve_right (by simp)
      obtain ⟨k', hk', rfl⟩ := List.mem_map.1 hcutIds
      exact .inl (List.mem_map.2 ⟨k', List.mem_filter.2 ⟨hk', by simpa using hkn⟩, rfl⟩)
  · obtain ⟨v, hv⟩ := hcut.came k hk k' (hsub k' hk') hid p hp hnot hkey
    exact absurd hv (by simp)
  · exact absurd (hcut.went k hk k' (hsub k' hk') hid p hp hnot hkey) (by simp)

end Graph

/-- After an edit of a reachable graph the connections are the old ones but for those that it is
about, all ends are the ports that they were, nodes store what they stored but for the value that it
is about, and no ports come or go but spare slots of variadic groups, as long as the counter of
ports is in range (see `Graph.nextPort`). -/
theorem Reachable.edit_frame {K : Definition → Prop} {g g' : Graph Definition}
    {e : Edit Definition} (h : Reachable K g) (he : e.apply g = .ok g')
    (hsignature : ∀ s, e ≠ .setSignature s) (hredefine : ∀ k, e ≠ .redefine k)
    (hclone : ∀ i, e ≠ .clone i) : e.Frame g g' := by
  have hv := h.valid
  cases e with
  | addNode kind =>
    obtain ⟨r, hr, rfl⟩ := map_eq_ok.1 he
    exact hv.frame_addNodeAt (addNode_eq_ok.1 hr).1 (fun _ => rfl) rfl
  | addNodeAt n kind => exact hv.frame_addNodeAt he (fun _ => rfl) rfl
  | removeNode n =>
    obtain ⟨r, hr, rfl⟩ := map_eq_ok.1 he
    exact hv.frame_removeNode hr
  | setSignature s => exact absurd rfl (hsignature s)
  | connect a b => exact hv.frame_connect he (fun _ => rfl) fun _ hcs => hcs
  | wire source output destination input =>
    obtain ⟨a, b, ha, hb, hc⟩ := wire_eq_ok.1 he
    exact hv.frame_connect hc (fun _ => rfl) fun _ hcs => ⟨a, b, ha, hb, hcs⟩
  | disconnect a b =>
    obtain ⟨r, hr, rfl⟩ := map_eq_ok.1 he
    obtain ⟨-, rfl⟩ := disconnect_eq_ok.1 hr
    exact hv.frame_cut _ _ (fun _ => rfl) rfl
  | isolatePort p =>
    obtain ⟨r, hr, rfl⟩ := map_eq_ok.1 he
    obtain ⟨-, rfl⟩ := isolatePort_eq_ok.1 hr
    exact hv.frame_cut _ _ (fun _ => rfl) rfl
  | isolateNode n =>
    obtain ⟨r, hr, rfl⟩ := map_eq_ok.1 he
    obtain ⟨m, hm, rfl⟩ := isolateNode_eq_ok.1 hr
    exact hv.frame_cut _ _ (fun _ => rfl) ⟨m, hm, rfl⟩
  | setConst n name v =>
    obtain ⟨-, rfl⟩ := setConst_eq_ok.1 he
    exact hv.frame_updateNode (fun _ => rfl) (fun _ => rfl) (fun _ => rfl) (fun _ => rfl) rfl
  | setDefault n k v =>
    obtain ⟨hcheck, rfl⟩ := setDefault_eq_ok.1 he
    exact hv.frame_updateDefaults (f := (·.insert k v)) (fun _ _ hj => Table.mem_keys_insert.1 hj)
      (fun m hm hid => hv.stored_insertDefault v hcheck hm hid) (fun _ => rfl) rfl
  | clearDefault n k =>
    obtain ⟨r, hr, rfl⟩ := map_eq_ok.1 he
    obtain ⟨-, m, -, rfl⟩ := clearDefault_eq_ok.1 hr
    exact hv.frame_updateDefaults (f := (·.erase k))
      (fun _ _ hj => .inr (Table.mem_keys_erase.1 hj).2) (fun m hm _ => hv.stored_eraseDefault k hm)
      (fun _ => rfl) rfl
  | setPosition n p =>
    obtain ⟨-, rfl⟩ := setPosition_eq_ok.1 he
    exact hv.frame_updateNode (fun _ => rfl) (fun _ => rfl) (fun _ => rfl) (fun _ => rfl) rfl
  | redefine kind => exact absurd rfl (hredefine kind)
  | clone id => exact absurd rfl (hclone id)

/-- A default beyond the slots shown brings slots and leaves the connection; the end of the
connection takes its empty neighbour away. -/
theorem edit_frame_gatherChain :
    (∃ g, (Edit.setDefault ⟨2⟩ ⟨"items", some 3⟩ (.int 7)).apply gatherChain = .ok g ∧
      (g.variadicSlots ⟨2⟩ "items").map (·.index) = [5, 8, 9, 10, 11] ∧
      (Edit.setDefault ⟨2⟩ ⟨"items", some 3⟩ (.int 7)).Frame gatherChain g) ∧
    ∃ g, (Edit.disconnect ⟨0, 5⟩ ⟨0, 3⟩).apply gatherChain = .ok g ∧
      (g.variadicSlots ⟨2⟩ "items").map (·.index) = [5] ∧
      (Edit.disconnect ⟨0, 5⟩ ⟨0, 3⟩).Frame gatherChain g :=
  ⟨⟨_, rfl, by decide, reachable_gatherChain.edit_frame rfl (by simp) (by simp) (by simp)⟩,
    ⟨_, rfl, by decide, reachable_gatherChain.edit_frame rfl (by simp) (by simp) (by simp)⟩⟩

end EffectGraph
