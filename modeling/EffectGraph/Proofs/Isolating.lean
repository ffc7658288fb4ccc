import EffectGraph.Proofs.Frame
import EffectGraph.Proofs.Narrowing
import EffectGraph.Proofs.Records

/-!
# Isolating a node

A node is isolated at once (`isolateNode`) or port by port (`isolatePorts`). Both ways drop the same
connections, and in both every other node ends with as many slots as its connections and defaults
call for, so that the other nodes show the same slots. The node itself shows the same slots only if
it showed none on account of a connection: isolated at once it keeps its shape, while port by port
its groups shrink to what its defaults call for (`Reachable.isolate_agree`).
-/

namespace EffectGraph

open EffectGraph.Graph

variable {κ : Type}

/-! ## The slots of a node -/

/-- The inputs of a node under their names and places. The slots of control groups are left out: a
connection of control resizes no group. -/
def Node.slots (m : Node κ) : List SlotKey :=
  (m.inputs.filter fun p => p.slot.isNone || !p.decl.isControl).map Port.key

/-- The slots of a group that have a default. -/
def Node.defaultSlots (m : Node κ) (group : String) : List Nat :=
  m.defaults.keys.filterMap fun k => if k.name = group then k.index else none

/-- How many slots a group shows on account of its defaults alone: one past the highest of them and
an empty one, within the limit of 256, and one slot if there is none. -/
def Node.restWidth (m : Node κ) (group : String) : Nat :=
  (m.defaultSlots group).max?.elim 1 fun h => min (h + 2) 256

variable [HasSignature κ] {g g' g₁ g₂ : Graph κ} {m m₁ m₂ : Node κ} {n : NodeId}
  {stale : List NodeId}

/-- Isolates ports one after another. A port that is gone when its turn comes is passed over. -/
def Graph.isolatePorts (g : Graph κ) (ps : List PortId) : Graph κ :=
  ps.foldl (fun g p => (Edit.isolatePort p).perform g) g

namespace Graph

theorem slots_of_shape {w : String → Nat} (hspecs : m.inputs.map Port.spec = g.inputShape m w) :
    m.slots =
      ((g.inputShape m w).filter fun s => s.slot.isNone || !s.decl.isControl).map specKey := by
  rw [← hspecs, List.filter_map, List.map_map]
  rfl

/-- The shown slots of a declared input depend on the width of the group if it is one of values. -/
theorem filter_slotSpecs_congr {w v : String → Nat} {d : PortDecl}
    (h : d.isVariadic = true → d.isControl = false → w d.name = v d.name) :
    (slotSpecs w d).filter (fun s => s.slot.isNone || !s.decl.isControl) =
      (slotSpecs v d).filter fun s => s.slot.isNone || !s.decl.isControl := by
  unfold slotSpecs
  split
  next hv =>
    cases hc : d.isControl with
    | false => rw [h hv hc]
    | true => simp [List.filter_map, Function.comp_def, hc]
  next => rfl

theorem width_eq_countP_slots (hformed : g.Formed m) (hdistinct : m.Distinct) {d : PortDecl}
    (hd : m.DeclaresGroup d) :
    m.width d.name = m.slots.countP fun k => k.name = d.name && k.index.isSome := by
  rw [Node.slots, List.countP_map, List.countP_filter, Node.width]
  refine List.countP_congr fun p hp => ?_
  simp only [Bool.and_eq_true, Function.comp_apply, Port.key, Bool.or_eq_true,
    Bool.not_eq_eq_eq_not, Bool.not_true]
  -- A slot of the group has its declaration, so it is one of values.
  refine ⟨?_, And.left⟩
  rintro ⟨hname, hslot⟩
  refine ⟨⟨hname, hslot⟩, .inr ?_⟩
  rw [decide_eq_true_eq] at hname
  rw [hformed.decl_of_slot hdistinct hd.hasGroup hp hname hslot]
  obtain ⟨-, -, -, -, hvalue⟩ := hd
  exact hvalue

/-- Two nodes of a kind that are in shape show the same slots exactly if their groups of values have
the same widths. -/
theorem Shaped.slots_eq_iff (h₁ : g₁.Shaped m₁) (h₂ : g₂.Shaped m₂)
    (hsignature : g₂.signature = g₁.signature) (hkind : m₂.kind = m₁.kind)
    (hdistinct : m₁.Distinct) :
    m₁.slots = m₂.slots ↔ ∀ d, m₁.DeclaresGroup d → m₁.width d.name = m₂.width d.name := by
  have hdistinct₂ : m₂.Distinct := fun k hk => hdistinct k (hkind ▸ hk)
  have hdeclares : ∀ {d}, m₁.DeclaresGroup d → m₂.DeclaresGroup d := by
    rintro d ⟨k, hk, hrest⟩
    exact ⟨k, hkind.trans hk, hrest⟩
  constructor
  · intro hslots d hd
    rw [width_eq_countP_slots h₁.formed hdistinct hd, hslots,
      width_eq_countP_slots h₂.formed hdistinct₂ (hdeclares hd)]
  · intro hwidth
    obtain ⟨w₁, hw₁, -⟩ := h₁.inputs
    obtain ⟨w₂, hw₂, -⟩ := h₂.inputs
    have hw : ∀ d, m₁.DeclaresGroup d → w₁ d.name = w₂ d.name := fun d hd => by
      rw [← width_of_shape hw₁ hdistinct hd.hasGroup, hwidth d hd,
        width_of_shape hw₂ hdistinct₂ (hdeclares hd).hasGroup]
    rw [slots_of_shape hw₁, slots_of_shape hw₂, inputShape_congr hsignature hkind]
    congr 1
    unfold inputShape
    cases hk : m₁.kind with
    | entry => rfl
    | result => rfl
    | action k =>
      simp only [List.filter_cons, List.filter_flatMap]
      have hflat : ∀ d ∈ (HasSignature.signature k).inputs, _ := fun d hd =>
        filter_slotSpecs_congr (w := w₁) (v := w₂) fun hv hc => hw d ⟨k, hk, hd, hv, hc⟩
      rw [List.flatMap_congr hflat]

/-! ## Dropping connections -/

/-- A graph after the connections that pass a test were dropped and the nodes concerned reshaped,
those in a list apart. -/
structure Dropped (p : Connection → Bool) (stale : List NodeId) (g g' : Graph κ) : Prop
    extends g.Reshapes g' where
  steady : g'.Steady [] stale
  wires : g'.connections = g.connections.filter fun c => !p c

theorem Steady.dropped_cut (h : g.Steady [] []) (p : Connection → Bool) (except : List NodeId) :
    Dropped p except g (g.cut p except).1 :=
  { reshapes_refresh (h.valid.sever p).wellFormed _ with
    connections := h.valid.connections_cut p except ▸ List.filter_sublist
    steady := (h.cut p except).mono (fun _ hk => hk) (by simp)
    wires := h.valid.connections_cut p except }

theorem Dropped.trans {p q : Connection → Bool} {unsettled : List NodeId}
    (h : Dropped p unsettled g g₁) (h' : Dropped q stale g₁ g₂) :
    Dropped (fun c => p c || q c) stale g g₂ :=
  { h.toReshapes.trans h'.toReshapes with
    steady := h'.steady
    wires := by
      rw [h'.wires, h.wires, List.filter_filter]
      refine List.filter_congr fun c _ => ?_
      cases p c <;> cases q c <;> rfl }

theorem perform_isolatePort (g : Graph κ) (p : PortId) :
    (Edit.isolatePort p).perform g =
      if (g.port? p).isSome then (g.cut (·.touches p.index) []).1 else g := by
  simp only [Edit.perform, Edit.apply, isolatePort, getPort]
  cases g.port? p <;> rfl

/-- Isolating a port drops its connections. A port that is gone has none. -/
theorem Steady.dropped_isolatePort (h : g.Steady [] []) {p : PortId} (hp : p.graph = g.id) :
    Dropped (·.touches p.index) [] g ((Edit.isolatePort p).perform g) := by
  rw [perform_isolatePort]
  split
  · exact h.dropped_cut _ []
  next hgone =>
    have hfree : ∀ c ∈ g.connections, c.touches p.index = false := by
      intro c hc
      by_contra ht
      obtain ⟨q, hmem, hindex⟩ := h.valid.wellFormed.mem_of_isWired
        (List.any_eq_true.2 ⟨c, hc, by simpa using ht⟩)
      have hfound := port?_eq_some_iff.2
        ⟨hp, h.valid.wellFormed.portAt?_eq_some_iff.2 ⟨hmem, hindex⟩⟩
      exact hgone (by rw [hfound]; rfl)
    exact { Reshapes.refl g with
      steady := h
      wires := (List.filter_eq_self.2 fun c hc => by simp [hfree c hc]).symm }

theorem Steady.dropped_isolatePorts (h : g.Steady [] []) {ps : List PortId}
    (hps : ∀ p ∈ ps, p.graph = g.id) :
    Dropped (fun c => ps.any fun p => c.touches p.index) [] g (g.isolatePorts ps) := by
  induction ps generalizing g with
  | nil =>
    exact { Reshapes.refl g with
      steady := h
      wires := (List.filter_eq_self.2 fun _ _ => rfl).symm }
  | cons p ps ih =>
    have hone := h.dropped_isolatePort (hps p List.mem_cons_self)
    have hrest := ih hone.steady fun q hq => (hps q (List.mem_cons_of_mem _ hq)).trans hone.id.symm
    exact hone.trans hrest

omit [HasSignature κ] in
/-- A port that was connected before reshapes is no new one. -/
theorem Reshapes.mem_allPorts_of_isWired (h : g.Reshapes g') (hg : g.WellFormed) {q : PlacedPort}
    (hq : q ∈ g'.allPorts) (hwired : g.isWired q.port.index = true) : q ∈ g.allPorts := by
  refine (h.ports q hq).resolve_right fun hnew => ?_
  obtain ⟨p, hp, hindex⟩ := hg.mem_of_isWired hwired
  have := hg.used p hp
  omega

/-- Two graphs that were reached by dropping the same connections of a graph have the same slots in
use: a connected port is the one of old in both. -/
theorem Dropped.mem_usedSlots {p : Connection → Bool} {stale₁ stale₂ : List NodeId}
    (hg : g.WellFormed) (h₁ : Dropped p stale₁ g g₁) (h₂ : Dropped p stale₂ g g₂)
    (hm₁ : m₁ ∈ g₁.nodes) (hm₂ : m₂ ∈ g₂.nodes) (hid : m₁.id = m₂.id) {group : String} {i : Nat}
    (hi : i ∈ g₁.usedSlots m₁ group) : i ∈ g₂.usedSlots m₂ group := by
  have hwires : g₂.connections = g₁.connections := h₂.wires.trans h₁.wires.symm
  rw [Graph.mem_usedSlots] at hi ⊢
  rcases hi with ⟨p, hp, hname, hslot, hwired⟩ | hreserves
  · refine .inl ⟨p, ?_, hname, hslot, by rwa [isWired, hwires]⟩
    have hwired₂ : g₂.isWired p.index = true := by rwa [isWired, hwires]
    obtain ⟨q, hq, hindex⟩ := h₂.steady.valid.wellFormed.mem_of_isWired hwired₂
    have hwiredg := isWired_of_subset h₁.connections.subset hwired
    have hold := h₁.mem_allPorts_of_isWired hg (input_mem_allPorts hm₁ hp) hwiredg
    have hqold := h₂.mem_allPorts_of_isWired hg hq (hindex ▸ hwiredg)
    obtain rfl := hg.port_inj hqold hold hindex
    obtain ⟨k, hk, hkid, hpk⟩ := exists_of_input hq rfl
    obtain rfl := h₂.steady.valid.ascending.id_inj hk hm₂ (hkid.symm.trans hid)
    exact hpk
  · obtain ⟨m, hm, hbare⟩ := h₁.origin hm₁
    have hsame : m₂.bare = m₁.bare :=
      (h₂.bare_eq hg.ascending hm hm₂ (hid.symm.trans (congrArg (·.id) hbare).symm)).trans hbare
    have hdefaults : m₂.defaults = m₁.defaults := congrArg (·.defaults) hsame
    have hheld : m₂.held = m₁.held := congrArg (·.held) hsame
    rw [Node.Reserves, hdefaults, hheld]
    exact .inr hreserves

/-! ## The nodes afterwards -/

omit [HasSignature κ] in
theorem Reshapes.exists_node? (h : g.Reshapes g') (hg' : g'.Ascending) (hm : g.node? n = some m) :
    ∃ m', g'.node? n = some m' ∧ m'.bare = m.bare := by
  obtain ⟨hmem, hid⟩ := node?_mem hm
  obtain ⟨m', hm', hbare⟩ := h.image hmem
  have hid' : m'.id = n := (congrArg (·.id) hbare).trans hid
  exact ⟨m', hid' ▸ node?_of_mem hg' hm', hbare⟩

omit [HasSignature κ] in
theorem Reshapes.node?_eq_none (h : g.Reshapes g') (hn : g.node? n = none) : g'.node? n = none :=
  node?_eq_none_iff.2 fun m' hm' hid => by
    obtain ⟨m, hm, hbare⟩ := h.origin hm'
    exact node?_eq_none_iff.1 hn m hm ((congrArg (·.id) hbare).trans hid)

/-- Where both have settled a node, it shows the same slots in two graphs that were reached by
dropping the same connections. -/
theorem Dropped.slots_eq {p : Connection → Bool} {stale₁ stale₂ : List NodeId}
    (hg : g.WellFormed) (h₁ : Dropped p stale₁ g g₁) (h₂ : Dropped p stale₂ g g₂)
    (hn₁ : n ∉ stale₁) (hn₂ : n ∉ stale₂) :
    (g₁.node? n).map Node.slots = (g₂.node? n).map Node.slots := by
  cases hm : g.node? n with
  | none => rw [h₁.node?_eq_none hm, h₂.node?_eq_none hm]
  | some m =>
    obtain ⟨m₁, hm₁, hbare₁⟩ := h₁.exists_node? h₁.steady.valid.ascending hm
    obtain ⟨m₂, hm₂, hbare₂⟩ := h₂.exists_node? h₂.steady.valid.ascending hm
    obtain ⟨hmem₁, rfl⟩ := node?_mem hm₁
    obtain ⟨hmem₂, hid⟩ := node?_mem hm₂
    have hkind : m₂.kind = m₁.kind := congrArg (·.kind) (hbare₂.trans hbare₁.symm)
    rw [hm₁, hm₂, Option.map_some, Option.map_some, Option.some_inj]
    refine ((h₁.steady.valid.shaped m₁ hmem₁ List.not_mem_nil).slots_eq_iff
      (h₂.steady.valid.shaped m₂ hmem₂ List.not_mem_nil) (h₂.signature.trans h₁.signature.symm)
      hkind (h₁.steady.distinct m₁ hmem₁)).2 fun d hd => ?_
    have hd₂ : m₂.DeclaresGroup d := by
      obtain ⟨k, hk, hrest⟩ := hd
      exact ⟨k, hkind.trans hk, hrest⟩
    rw [h₁.steady.settled m₁ hmem₁ hn₁ d hd, h₂.steady.settled m₂ hmem₂ (hid.symm ▸ hn₂) d hd₂,
      arity, arity]
    exact arityOf_congr fun i => ⟨h₁.mem_usedSlots hg h₂ hmem₁ hmem₂ hid.symm,
      h₂.mem_usedSlots hg h₁ hmem₂ hmem₁ hid⟩

/-- A refresh of other nodes leaves a node as it is. -/
theorem Valid.node?_refresh (h : g.Valid []) {ns : List NodeId} (hn : n ∉ ns)
    (hm : g.node? n = some m) : (g.refresh ns).node? n = some m := by
  refine (List.foldlRecOn (motive := fun g : Graph κ => g.Valid [] ∧ g.node? n = some m)
    (sortIds ns) _ ⟨h, hm⟩ fun g ⟨hv, hm⟩ k hk => ?_).2
  split
  · have hkn : n ≠ k := fun he => hn (he ▸ mem_sortIds.1 hk)
    have hv' : (g.reshapeOne k).1.Valid [] := hv.reshapeOne_mono k
    rw [(hv.keeps List.not_mem_nil).reshape_eq]
    refine ⟨hv', ?_⟩
    cases hk : g.node? k with
    | none => rwa [reshapeOne_of_none hk]
    | some _ =>
      obtain ⟨hmem, rfl⟩ := node?_mem hm
      exact node?_of_mem hv'.ascending
        ((mem_nodes_reshapeOne hv.ascending hk).2 (.inl ⟨hmem, hkn⟩))
  · exact ⟨hv, hm⟩

omit [HasSignature κ] in
theorem mem_defaultSlots {group : String} {i : Nat} :
    i ∈ m.defaultSlots group ↔ (⟨group, some i⟩ : SlotKey) ∈ m.defaults.keys := by
  simp only [Node.defaultSlots, List.mem_filterMap]
  constructor
  · rintro ⟨⟨name, index⟩, hk, h⟩
    split at h
    next hname =>
      simp only at hname h
      rw [← hname, ← h]
      exact hk
    next => simp at h
  · intro hk
    exact ⟨_, hk, by simp⟩

omit [HasSignature κ] in
theorem restWidth_eq_arityOf (m : Node κ) (group : String) :
    m.restWidth group = arityOf (m.defaultSlots group) := by
  unfold Node.restWidth arityOf
  cases (m.defaultSlots group).max? <;> rfl

/-- Once all its connections are gone and it is settled, a node shows of each group what its
defaults call for. -/
theorem Dropped.width_eq_restWidth (hg : g.WellFormed) (h : Dropped (touchesNode m) [] g g')
    (hm : g.node? n = some m) (hm' : g'.node? n = some m') (hheld : m.held = .empty) {d : PortDecl}
    (hd : m'.DeclaresGroup d) : m'.width d.name = m.restWidth d.name := by
  obtain ⟨hmem, hid⟩ := node?_mem hm
  obtain ⟨hmem', rfl⟩ := node?_mem hm'
  have hbare := h.bare_eq hg.ascending hmem hmem' hid.symm
  have hdefaults : m'.defaults = m.defaults := congrArg (·.defaults) hbare
  have hheld' : m'.held = .empty := (congrArg (·.held) hbare).trans hheld
  rw [h.steady.settled m' hmem' List.not_mem_nil d hd, restWidth_eq_arityOf, arity]
  refine arityOf_congr fun i => ?_
  rw [Graph.mem_usedSlots, mem_defaultSlots, Node.Reserves, hdefaults, hheld']
  refine ⟨fun hused => ?_, fun hk => .inr (.inl hk)⟩
  rcases hused with ⟨p, hp, -, -, hwired⟩ | hk | hempty
  · -- A connected port would be one of the node's of old, and those have lost their connections.
    have hold := h.mem_allPorts_of_isWired hg (input_mem_allPorts hmem' hp)
      (isWired_of_subset h.connections.subset hwired)
    obtain ⟨k, hk, hkid, hpk⟩ := exists_of_input hold rfl
    obtain rfl := hg.ascending.id_inj hk hmem (hkid.symm.trans hid.symm)
    obtain ⟨c, hc, ht⟩ := List.any_eq_true.1 hwired
    rw [h.wires, List.mem_filter] at hc
    have htouches : touchesNode k c = true :=
      List.any_eq_true.2 ⟨p, List.mem_append_left _ hpk, ht⟩
    simp [htouches] at hc
  · exact hk
  · simp [Table.empty, Table.get?, lookupEntry] at hempty

end Graph

/-- Isolating a node at once drops the same connections as isolating its ports one after another, in
any order, and leaves the same slots on every other node. The node itself keeps its ports, where
port by port its groups would shrink to what its defaults call for; so its slots agree exactly if
its groups showed no more than that before. -/
theorem Reachable.isolate_agree {g : Graph Definition} (h : Reachable Definition.Built g)
    (hexact : g.Exact) {n : NodeId} {m : Node Definition} (hm : g.node? n = some m)
    {ps : List PortId} (hps : ps.Perm (m.ports.map (g.portId ·.index))) :
    ∃ r, g.isolateNode n = .ok r ∧ r.1.connections = (g.isolatePorts ps).connections ∧
      (∀ k, k ≠ n →
        (r.1.node? k).map Node.slots = ((g.isolatePorts ps).node? k).map Node.slots) ∧
      r.1.node? n = some m ∧
      (∀ d, m.DeclaresGroup d →
        ((g.isolatePorts ps).variadicSlots n d.name).length = m.restWidth d.name) ∧
      ((r.1.node? n).map Node.slots = ((g.isolatePorts ps).node? n).map Node.slots ↔
        ∀ d, m.DeclaresGroup d → (g.variadicSlots n d.name).length = m.restWidth d.name) := by
  have hsteady := h.steady_iff_exact.2 hexact
  have hwf := h.valid.wellFormed
  have hbulk := hsteady.dropped_cut (touchesNode m) [n]
  have htouches : (fun c : Connection => ps.any fun p => c.touches p.index) = touchesNode m := by
    funext c
    rw [hps.any_eq, List.any_map]
    rfl
  have heach : Dropped (touchesNode m) [] g (g.isolatePorts ps) := by
    refine htouches ▸ hsteady.dropped_isolatePorts fun p hp => ?_
    obtain ⟨q, -, rfl⟩ := List.mem_map.1 (hps.mem_iff.1 hp)
    rfl
  obtain ⟨m', hm', hbare⟩ := heach.exists_node? heach.steady.valid.ascending hm
  obtain ⟨hmem, hid⟩ := node?_mem hm
  obtain ⟨hmem', hid'⟩ := node?_mem hm'
  have hkind : m'.kind = m.kind := congrArg (·.kind) hbare
  have hwidth : ∀ d, m.DeclaresGroup d → m'.width d.name = m.restWidth d.name := by
    rintro d ⟨k, hk, hrest⟩
    exact heach.width_eq_restWidth hwf hm hm' (h.invariant.2 m hmem).2 ⟨k, hkind.trans hk, hrest⟩
  have hself : (g.cut (touchesNode m) [n]).1.node? n = some m :=
    (h.valid.sever (touchesNode m)).node?_refresh (by simp) hm
  refine ⟨_, isolateNode_eq_ok.2 ⟨m, hm, rfl⟩, hbulk.wires.trans heach.wires.symm,
    fun k hk => hbulk.slots_eq hwf heach (by simpa using hk) List.not_mem_nil, hself,
    fun d hd => ?_, ?_⟩
  · rw [← hid', length_variadicSlots heach.steady.valid.ascending hmem', hwidth d hd]
  · rw [hself, hm', Option.map_some, Option.map_some, Option.some_inj,
      (h.valid.shaped m hmem List.not_mem_nil).slots_eq_iff
        (heach.steady.valid.shaped m' hmem' List.not_mem_nil) heach.signature hkind
        (hsteady.distinct m hmem)]
    refine forall_congr' fun d => forall_congr' fun hd => ?_
    rw [hwidth d hd, ← hid, length_variadicSlots h.valid.ascending hmem]

theorem reachable_exact_gatherChain :
    Reachable Definition.Built gatherChain ∧ gatherChain.Exact := by
  have hbuilt : ∀ e ∈ [Edit.addNode (.action Definition.gather), .addNode (.action .gather),
      .connect ⟨0, 3⟩ ⟨0, 5⟩], ∀ k, e.offers = some k → k.Built := by
    simp [Edit.offers, NodeKind.action?, built_gather]
  have hreachable : Reachable Definition.Built gatherChain := .foldl hbuilt (.blank 0 .standard)
  refine ⟨hreachable, hreachable.steady_iff_exact.1 ?_⟩
  have hempty : (Graph.empty 0 .standard : Graph Definition).Steady [] [] :=
    (Reachable.blank 0 .standard).steady_iff_exact.2 fun m hm => absurd hm List.not_mem_nil
  refine List.foldlRecOn (motive := fun g : Graph Definition => g.Steady [] []) _ _ hempty
    fun g hg e he => Reachable.perform_induct (fun g' happly => hg.edit ?_ ?_ ?_ happly) hg
  · simp only [List.mem_cons, List.not_mem_nil, or_false] at he
    rcases he with rfl | rfl | rfl <;> simp
  · simp only [List.mem_cons, List.not_mem_nil, or_false] at he
    rcases he with rfl | rfl | rfl <;> simp
  · exact fun k hk => (hbuilt e he k hk).distinct

/-- Isolating the source of the chain at once or from its last port to its first: both ways the
other node gives up a slot. -/
theorem isolate_agree_gatherChain : ∃ r, gatherChain.isolateNode ⟨1⟩ = .ok r ∧
    (r.1.variadicSlots ⟨2⟩ "items").length = 1 ∧
    ∀ k, (r.1.node? k).map Node.slots =
      ((gatherChain.isolatePorts [⟨0, 3⟩, ⟨0, 2⟩, ⟨0, 1⟩, ⟨0, 0⟩]).node? k).map Node.slots := by
  obtain ⟨r, hr, -, hothers, -, -, hself⟩ := reachable_exact_gatherChain.1.isolate_agree
    reachable_exact_gatherChain.2 (rfl : gatherChain.node? ⟨1⟩ = some _)
    (by decide : List.Perm [⟨0, 3⟩, ⟨0, 2⟩, ⟨0, 1⟩, ⟨0, 0⟩] _)
  refine ⟨r, hr, ?_, fun k => ?_⟩
  · obtain rfl := Except.ok.inj hr
    decide
  · by_cases hk : k = ⟨1⟩
    · subst hk
      refine hself.2 ?_
      rintro d ⟨kind, hkind, hd, -⟩
      obtain rfl : Definition.gather = kind := NodeKind.action.inj hkind
      obtain rfl := List.mem_singleton.1 hd
      decide
    · exact hothers k hk

/-- Isolated at once, the destination of the chain keeps the slot that its connection asked for;
port by port it gives it up. -/
theorem isolate_disagree_gatherChain : Reachable Definition.Built gatherChain ∧ gatherChain.Exact ∧
    ∃ m r, gatherChain.node? ⟨2⟩ = some m ∧ gatherChain.isolateNode ⟨2⟩ = .ok r ∧
      (r.1.node? ⟨2⟩).map Node.slots ≠
        ((gatherChain.isolatePorts (m.ports.map (gatherChain.portId ·.index))).node? ⟨2⟩).map
          Node.slots :=
  ⟨reachable_exact_gatherChain.1, reachable_exact_gatherChain.2, _, _, rfl, rfl, by decide⟩

end EffectGraph
