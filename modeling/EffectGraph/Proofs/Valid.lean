import EffectGraph.Proofs.Shape

/-!
# The invariant of edits

`Valid stale g` is what the edits keep: the graph is well formed, stored values belong to declared
inputs and constants, there is at most one Entry and one Return, and every node is in shape except
those listed in `stale`, which an edit has still to reshape. A reshape takes its node off the list
(`Valid.reshape`).
-/

namespace EffectGraph

variable {κ : Type} [HasSignature κ]

/-- What is stored on a node is declared by its kind and below the limit of slots. -/
structure Node.Stored (n : Node κ) : Prop where
  below : ∀ k ∈ n.defaults.keys, ∀ i, k.index = some i → i < slotLimit
  held : ∀ group i, n.held.get? group = some i → i < slotLimit
  consts : ∀ k, n.kind = .action k →
    ∀ name ∈ n.consts.keys, ((HasSignature.signature k).const? name).isSome = true
  defaults : ∀ k, n.kind = .action k →
    ∀ key ∈ n.defaults.keys, Graph.declaresSlot (HasSignature.signature k) key = true

namespace Graph

/-- What the edits of a graph keep, with the nodes that have still to be reshaped. -/
structure Valid (stale : List NodeId) (g : Graph κ) : Prop where
  wellFormed : g.WellFormed
  slots : ∀ q ∈ g.allPorts, ∀ i, q.port.slot = some i → i < slotLimit
  stored : ∀ n ∈ g.nodes, n.Stored
  positive : ∀ n ∈ g.nodes, n.id.number ≠ 0
  shaped : ∀ n ∈ g.nodes, n.id ∉ stale → g.Shaped n
  loneEntry : ∀ m ∈ g.nodes, ∀ n ∈ g.nodes, m.kind = .entry → n.kind = .entry → m = n
  loneResult : ∀ m ∈ g.nodes, ∀ n ∈ g.nodes, m.kind = .result → n.kind = .result → m = n

variable {g : Graph κ} {stale : List NodeId} {n : NodeId}

omit [HasSignature κ] in
/-- If each node of a kind has a counterpart of that kind and with its id in a graph that has at
most one of the kind, there is at most one. -/
theorem lone_of_origin {g' : Graph κ} {kind : NodeKind κ} (hasc : g'.Ascending)
    (h : ∀ m ∈ g.nodes, ∀ n ∈ g.nodes, m.kind = kind → n.kind = kind → m = n)
    (ho : ∀ k ∈ g'.nodes, k.kind = kind → ∃ m ∈ g.nodes, m.id = k.id ∧ m.kind = kind) :
    ∀ a ∈ g'.nodes, ∀ b ∈ g'.nodes, a.kind = kind → b.kind = kind → a = b := by
  intro a ha b hb hka hkb
  obtain ⟨a₀, ha₀, hida, hka₀⟩ := ho a ha hka
  obtain ⟨b₀, hb₀, hidb, hkb₀⟩ := ho b hb hkb
  obtain rfl := h a₀ ha₀ b₀ hb₀ hka₀ hkb₀
  exact hasc.id_inj ha hb (hida.symm.trans hidb)

theorem Valid.ascending (h : g.Valid stale) : g.Ascending := h.wellFormed.ascending

theorem Valid.mono {stale' : List NodeId} (h : g.Valid stale) (hs : ∀ n ∈ stale, n ∈ stale') :
    g.Valid stale' :=
  { h with shaped := fun n hn hnot => h.shaped n hn fun hmem => hnot (hs _ hmem) }

/-- A change that keeps the nodes and the signature leaves only well-formedness to be shown. -/
theorem Valid.of_nodes {g' : Graph κ} (h : g.Valid stale) (hwf : g'.WellFormed)
    (hnodes : g'.nodes = g.nodes) (hsignature : g'.signature = g.signature) : g'.Valid stale where
  wellFormed := hwf
  slots := by
    rw [allPorts, hnodes]
    exact h.slots
  stored := hnodes ▸ h.stored
  positive := hnodes ▸ h.positive
  shaped m hm hs := (h.shaped m (hnodes ▸ hm) hs).of_signature hsignature
  loneEntry := hnodes ▸ h.loneEntry
  loneResult := hnodes ▸ h.loneResult

theorem Valid.slots_inputs (h : g.Valid stale) {m : Node κ} (hm : m ∈ g.nodes) :
    ∀ p ∈ m.inputs, ∀ i, p.slot = some i → i < slotLimit := by
  intro p hp i hi
  exact h.slots _ (input_mem_allPorts hm hp) i hi

theorem Valid.usedSlots_lt (h : g.Valid stale) {m : Node κ} (hm : m ∈ g.nodes) {group : String}
    {i : Nat} (hi : i ∈ g.usedSlots m group) : i < slotLimit := by
  rcases mem_usedSlots.1 hi with ⟨p, hp, -, hslot, -⟩ | (hk | hheld)
  · exact h.slots_inputs hm p hp i hslot
  · exact (h.stored m hm).below _ hk i rfl
  · exact (h.stored m hm).held group i hheld

/-! ## Reshapes -/

/-- A reshape brings its node into shape. -/
theorem Valid.shaped_shapedNode (h : g.Valid stale) {m : Node κ} (hm : m ∈ g.nodes) :
    (g.reshapeOne n).1.Shaped (g.shapedNode m) := by
  refine ⟨?_, g.arity m, ?_, fun group => ⟨arityOf_pos _, arityOf_le _⟩, fun group i hi => ?_⟩
  · have := reusePorts_specs (g.wantedOutputs m) m.outputs (g.reusedInputs m).nextPort
    refine Eq.trans this ?_
    simp only [wantedOutputs, shapedNode_kind, reshapeOne_signature]
  · have := reusePorts_specs (g.wantedInputs m) m.inputs g.nextPort
    refine Eq.trans this ?_
    rw [wantedInputs_eq]
    simp only [inputShape, shapedNode_kind, reshapeOne_signature]
  · have hused : i ∈ g.usedSlots m group := mem_usedSlots.2 (.inr hi)
    exact lt_arityOf hused (h.usedSlots_lt hm hused)

theorem Valid.slots_reshapeOne (h : g.Valid stale) {q : PlacedPort}
    (hq : q ∈ (g.reshapeOne n).1.allPorts) {i : Nat} (hi : q.port.slot = some i) :
    i < slotLimit := by
  cases hm : g.node? n with
  | none => rw [reshapeOne_of_none hm] at hq; exact h.slots q hq i hi
  | some m =>
    obtain ⟨k, hk, hqk⟩ := mem_allPorts.1 hq
    rcases (mem_nodes_reshapeOne h.ascending hm).1 hk with ⟨hk, -⟩ | rfl
    · exact h.slots q (mem_allPorts.2 ⟨k, hk, hqk⟩) i hi
    · obtain ⟨-, ⟨-, hp⟩ | ⟨-, hp⟩⟩ := mem_placedPorts.1 hqk
      · have hspec := spec_mem_of_mem_reusedInputs hp
        rw [wantedInputs_eq] at hspec
        exact Nat.lt_of_lt_of_le (mem_inputShape hspec hi).1 (arityOf_le _)
      · have := slot_of_mem_wantedOutputs (spec_mem_of_mem_reusedOutputs hp)
        rw [show q.port.slot = none from this] at hi
        simp at hi

theorem Valid.reshapeOne (h : g.Valid stale) (n : NodeId) :
    (g.reshapeOne n).1.Valid (stale.filter (· ≠ n)) := by
  cases hm : g.node? n with
  | none =>
    rw [reshapeOne_of_none hm]
    refine { h with shaped := fun k hk hnot => h.shaped k hk fun hmem => hnot ?_ }
    exact List.mem_filter.2 ⟨hmem, by simpa using node?_eq_none_iff.1 hm k hk⟩
  | some m =>
    obtain ⟨hmem, hid⟩ := node?_mem hm
    have hnodes := fun k => mem_nodes_reshapeOne h.ascending hm (k := k)
    -- Every node afterwards is one from before, up to its ports.
    have horigin : ∀ k ∈ (g.reshapeOne n).1.nodes, ∃ k₀ ∈ g.nodes, k₀.id = k.id ∧ k₀.kind = k.kind ∧
        (k₀.Stored → k.Stored) ∧ (k.id ≠ n → k = k₀) ∧
        (k.id = n → k = g.shapedNode m ∧ k₀ = m) := by
      intro k hk
      rcases (hnodes k).1 hk with ⟨hk, hkn⟩ | rfl
      · exact ⟨k, hk, rfl, rfl, fun hs => hs, fun _ => rfl, fun he => absurd he hkn⟩
      · exact ⟨m, hmem, rfl, rfl, fun hs => ⟨hs.below, hs.held, hs.consts, hs.defaults⟩,
          fun hne => absurd hid hne, fun _ => ⟨rfl, rfl⟩⟩
    have hkinds : ∀ kind, ∀ k ∈ (g.reshapeOne n).1.nodes, k.kind = kind →
        ∃ k₀ ∈ g.nodes, k₀.id = k.id ∧ k₀.kind = kind := by
      intro kind k hk hkind
      obtain ⟨k₀, hk₀, hid₀, hkind₀, -⟩ := horigin k hk
      exact ⟨k₀, hk₀, hid₀, hkind₀.trans hkind⟩
    have hwf := h.wellFormed.reshapeOne n
    refine ⟨hwf, fun q hq i hi => h.slots_reshapeOne hq hi, ?_, ?_, ?_,
      lone_of_origin hwf.ascending h.loneEntry (hkinds _),
      lone_of_origin hwf.ascending h.loneResult (hkinds _)⟩
    · intro k hk
      obtain ⟨k₀, hk₀, -, -, hs, -⟩ := horigin k hk
      exact hs (h.stored k₀ hk₀)
    · intro k hk
      obtain ⟨k₀, hk₀, hkid, -⟩ := horigin k hk
      exact hkid ▸ h.positive k₀ hk₀
    · intro k hk hnot
      obtain ⟨k₀, hk₀, hkid, -, -, hother, hsame⟩ := horigin k hk
      by_cases hkn : k.id = n
      · obtain ⟨rfl, rfl⟩ := hsame hkn
        exact h.shaped_shapedNode hmem
      · obtain rfl := hother hkn
        have hshaped := h.shaped k hk₀ fun hs => hnot (List.mem_filter.2 ⟨hs, by simpa using hkn⟩)
        exact hshaped.of_signature reshapeOne_signature

theorem reshapeNested_nil (depth : Nat) (g : Graph κ) : reshapeNested depth g [] = g := by
  cases depth <;> rfl

/-- A reshape starts with its node and goes on with the nodes that shrink. -/
theorem reshape_eq (g : Graph κ) (n : NodeId) :
    g.connections = [] ∧ g.reshape n = (g.reshapeOne n).1 ∨
      ∃ depth, g.reshape n = reshapeNested depth (g.reshapeOne n).1 (g.reshapeOne n).2 := by
  unfold reshape
  cases hl : g.connections.length with
  | zero => exact .inl ⟨List.length_eq_zero_iff.1 hl, rfl⟩
  | succ depth => exact .inr ⟨depth, rfl⟩

theorem Valid.reshapeOne_mono (h : g.Valid stale) (n : NodeId) : (g.reshapeOne n).1.Valid stale :=
  (h.reshapeOne n).mono fun _ hk => (List.mem_filter.1 hk).1

theorem Valid.reshape (h : g.Valid stale) (n : NodeId) :
    (g.reshape n).Valid (stale.filter (· ≠ n)) := by
  rcases reshape_eq g n with ⟨-, he⟩ | ⟨depth, he⟩
  · rw [he]
    exact h.reshapeOne n
  · rw [he]
    exact reshapeNested_induct (fun _ k hk => hk.reshapeOne_mono k) _ _ _ (h.reshapeOne n)

theorem Valid.reshape_stale (h : g.Valid (n :: stale)) : (g.reshape n).Valid stale :=
  (h.reshape n).mono fun k hk => by
    obtain ⟨hmem, hne⟩ := List.mem_filter.1 hk
    exact (List.mem_cons.1 hmem).resolve_left (by simpa using hne)

theorem Valid.refresh (h : g.Valid stale) (ns : List NodeId) : (g.refresh ns).Valid stale :=
  refresh_induct (fun _ k hk => hk.reshapeOne_mono k) h ns

/-- The reshape of a node costs no connection. -/
def Keeps (g : Graph κ) (n : NodeId) : Prop :=
  ∀ m, g.node? n = some m → ∀ c ∈ g.connections, g.loses m c = false

theorem Valid.keeps_of_formed (h : g.Valid stale)
    (hn : ∀ m ∈ g.nodes, m.id = n → g.Formed m) : g.Keeps n := by
  intro m hm c hc
  obtain ⟨hmem, hid⟩ := node?_mem hm
  exact (hn m hmem hid).not_loses (h.slots_inputs hmem) hc

theorem Valid.keeps (h : g.Valid stale) (hn : n ∉ stale) : g.Keeps n :=
  h.keeps_of_formed fun m hm hid => (h.shaped m hm (hid ▸ hn)).formed

/-- The nodes that a reshape makes shrink are at the destinations of the connections it costs. -/
theorem mem_reshapeOne_snd {m : Node κ} {k : NodeId} (hm : g.node? n = some m) :
    k ∈ (g.reshapeOne n).2 ↔ k ≠ n ∧ ∃ c ∈ g.connections, g.loses m c = true ∧
      (g.reshapeOne n).1.resizedBy? c = some k := by
  have hone : g.reshapeOne n = ((g.reshapeOne n).1, sortIds
      (((g.connections.filter (g.loses m)).filterMap (g.reshapeOne n).1.resizedBy?).filter
        fun k => k ≠ n)) := by
    unfold Graph.reshapeOne
    simp only [hm]
    rfl
  rw [hone]
  simp only [mem_sortIds, List.mem_filter, List.mem_filterMap, decide_eq_true_eq, and_assoc]
  tauto

theorem Keeps.reshapeOne_snd (h : g.Keeps n) : (g.reshapeOne n).2 = [] := by
  cases hm : g.node? n with
  | none => rw [reshapeOne_of_none hm]
  | some m =>
    refine List.eq_nil_iff_forall_not_mem.2 fun k hk => ?_
    obtain ⟨-, c, hc, hloses, -⟩ := (mem_reshapeOne_snd hm).1 hk
    rw [h m hm c hc] at hloses
    exact Bool.noConfusion hloses

theorem Keeps.reshape_eq (h : g.Keeps n) : g.reshape n = (g.reshapeOne n).1 := by
  rcases Graph.reshape_eq g n with ⟨-, he⟩ | ⟨depth, he⟩
  · exact he
  · rw [he, h.reshapeOne_snd, reshapeNested_nil]

theorem Keeps.connections_reshapeOne (h : g.Keeps n) :
    (g.reshapeOne n).1.connections = g.connections := by
  cases hm : g.node? n with
  | none => rw [reshapeOne_of_none hm]
  | some m =>
    rw [reshapeOne_connections hm]
    exact List.filter_eq_self.2 fun c hc => by simp [h m hm c hc]

theorem Keeps.connections_reshape (h : g.Keeps n) : (g.reshape n).connections = g.connections := by
  rw [h.reshape_eq, h.connections_reshapeOne]

end Graph

end EffectGraph
