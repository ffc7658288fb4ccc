import EffectGraph.Proofs.Ports
import EffectGraph.Proofs.Reuse

/-!
# One reshape

What `reshapeOne` does to a graph, said once: which nodes, ports and connections there are
afterwards. All later statements about edits go through these lemmas and do not open the definition.
-/

namespace EffectGraph

variable {κ : Type}

/-- A node without its ports. -/
def Node.bare (n : Node κ) : Node κ := { n with inputs := [], outputs := [] }

@[simp] theorem Node.bare_id (n : Node κ) : n.bare.id = n.id := rfl

@[simp] theorem Node.bare_kind (n : Node κ) : n.bare.kind = n.kind := rfl

variable [HasSignature κ]

namespace Graph

/-! ## The parts of a reshape -/

/-- The inputs of a node after a reshape, with the inputs it loses. -/
def reusedInputs (g : Graph κ) (m : Node κ) : Reused :=
  reusePorts (g.wantedInputs m) m.inputs g.nextPort

/-- The outputs of a node after a reshape, with the outputs it loses. -/
def reusedOutputs (g : Graph κ) (m : Node κ) : Reused :=
  reusePorts (g.wantedOutputs m) m.outputs (g.reusedInputs m).nextPort

/-- A node after a reshape. -/
def shapedNode (g : Graph κ) (m : Node κ) : Node κ :=
  { m with inputs := (g.reusedInputs m).ports, outputs := (g.reusedOutputs m).ports }

/-- The ports that a node loses in a reshape. -/
def droppedPorts (g : Graph κ) (m : Node κ) : List Port :=
  (g.reusedInputs m).dropped ++ (g.reusedOutputs m).dropped

/-- Whether a connection is lost in the reshape of a node. -/
def loses (g : Graph κ) (m : Node κ) (c : Connection) : Bool :=
  (g.droppedPorts m).any fun p => c.touches p.index

variable {g : Graph κ} {n : NodeId} {m : Node κ}

@[simp] theorem shapedNode_id (g : Graph κ) (m : Node κ) : (g.shapedNode m).id = m.id := rfl

@[simp] theorem shapedNode_kind (g : Graph κ) (m : Node κ) : (g.shapedNode m).kind = m.kind := rfl

theorem reshapeOne_of_none (h : g.node? n = none) : g.reshapeOne n = (g, []) := by
  simp [reshapeOne, h]

theorem reshapeOne_of_node? (h : g.node? n = some m) :
    (g.reshapeOne n).1 =
      { g.updateNode n g.shapedNode with
        nodes := (g.updateNode n fun k =>
          { k with inputs := (g.reusedInputs m).ports, outputs := (g.reusedOutputs m).ports }).nodes
        connections := g.connections.filter fun c => !g.loses m c
        nextPort := (g.reusedOutputs m).nextPort } := by
  simp only [reshapeOne, h]
  rfl

@[simp] theorem reshapeOne_id : (g.reshapeOne n).1.id = g.id := by
  cases h : g.node? n with
  | none => rw [reshapeOne_of_none h]
  | some m => rw [reshapeOne_of_node? h]; rfl

@[simp] theorem reshapeOne_signature : (g.reshapeOne n).1.signature = g.signature := by
  cases h : g.node? n with
  | none => rw [reshapeOne_of_none h]
  | some m => rw [reshapeOne_of_node? h]; rfl

@[simp] theorem reshapeOne_hook : (g.reshapeOne n).1.hook = g.hook := by
  cases h : g.node? n with
  | none => rw [reshapeOne_of_none h]
  | some m => rw [reshapeOne_of_node? h]; rfl

theorem reshapeOne_connections (h : g.node? n = some m) :
    (g.reshapeOne n).1.connections = g.connections.filter fun c => !g.loses m c := by
  rw [reshapeOne_of_node? h]

theorem reshapeOne_nextPort (h : g.node? n = some m) :
    (g.reshapeOne n).1.nextPort = (g.reusedOutputs m).nextPort := by
  rw [reshapeOne_of_node? h]

/-- A reshape replaces the node where it stands. -/
theorem reshapeOne_nodes (hg : g.Ascending) (h : g.node? n = some m) :
    ∃ l₁ l₂, g.nodes = l₁ ++ m :: l₂ ∧ (∀ k ∈ l₁ ++ l₂, k.id ≠ n) ∧
      (g.reshapeOne n).1.nodes = l₁ ++ g.shapedNode m :: l₂ := by
  obtain ⟨l₁, l₂, hl, hne, hupd⟩ := node?_split hg h
  refine ⟨l₁, l₂, hl, hne, ?_⟩
  rw [reshapeOne_of_node? h]
  exact hupd _

theorem mem_nodes_reshapeOne (hg : g.Ascending) (h : g.node? n = some m) {k : Node κ} :
    k ∈ (g.reshapeOne n).1.nodes ↔ k ∈ g.nodes ∧ k.id ≠ n ∨ k = g.shapedNode m := by
  obtain ⟨l₁, l₂, hl, hne, hl'⟩ := reshapeOne_nodes hg h
  obtain ⟨-, hid⟩ := node?_mem h
  simp only [hl, hl', List.mem_append, List.mem_cons] at *
  constructor
  · rintro (hk | hk | hk)
    · exact .inl ⟨.inl hk, hne k (.inl hk)⟩
    · exact .inr hk
    · exact .inl ⟨.inr (.inr hk), hne k (.inr hk)⟩
  · rintro (⟨hk | rfl | hk, hkn⟩ | hk)
    · exact .inl hk
    · exact absurd hid hkn
    · exact .inr (.inr hk)
    · exact .inr (.inl hk)

@[simp] theorem reshapeOne_nodeIds (hg : g.Ascending) : (g.reshapeOne n).1.nodeIds = g.nodeIds := by
  cases h : g.node? n with
  | none => rw [reshapeOne_of_none h]
  | some m =>
    obtain ⟨l₁, l₂, hl, -, hl'⟩ := reshapeOne_nodes hg h
    simp [nodeIds, hl, hl']

/-! ## The ports after a reshape -/

theorem mem_ports_of_shapedNode {q : PlacedPort} (h : q ∈ placedPorts (g.shapedNode m)) :
    q ∈ placedPorts m ∨ g.nextPort ≤ q.port.index := by
  obtain ⟨hid, ⟨hd, hp⟩ | ⟨hd, hp⟩⟩ := mem_placedPorts.1 h
  · rcases mem_of_mem_reusePorts hp with hp | hp
    · exact .inl (mem_placedPorts.2 ⟨hid, .inl ⟨hd, hp⟩⟩)
    · exact .inr hp
  · rcases mem_of_mem_reusePorts hp with hp | hp
    · exact .inl (mem_placedPorts.2 ⟨hid, .inr ⟨hd, hp⟩⟩)
    · obtain ⟨_, -, -, hnext⟩ := reusePorts_perm (g.wantedInputs m) m.inputs g.nextPort
      have : (g.reusedInputs m).nextPort = _ := hnext
      exact .inr (by omega)

theorem mem_shapedNode_of_mem {q : PlacedPort} (h : q ∈ placedPorts m) :
    q ∈ placedPorts (g.shapedNode m) ∨ q.port ∈ g.droppedPorts m := by
  obtain ⟨hid, ⟨hd, hp⟩ | ⟨hd, hp⟩⟩ := mem_placedPorts.1 h
  · rcases mem_reusePorts_of_mem_old (g.wantedInputs m) g.nextPort hp with hp | hp
    · exact .inl (mem_placedPorts.2 ⟨hid, .inl ⟨hd, hp⟩⟩)
    · exact .inr (List.mem_append_left _ hp)
  · rcases mem_reusePorts_of_mem_old (g.wantedOutputs m) (g.reusedInputs m).nextPort hp with
      hp | hp
    · exact .inl (mem_placedPorts.2 ⟨hid, .inr ⟨hd, hp⟩⟩)
    · exact .inr (List.mem_append_right _ hp)

theorem mem_allPorts_of_reshapeOne (hg : g.Ascending) {q : PlacedPort}
    (hq : q ∈ (g.reshapeOne n).1.allPorts) : q ∈ g.allPorts ∨ g.nextPort ≤ q.port.index := by
  cases h : g.node? n with
  | none => rw [reshapeOne_of_none h] at hq; exact .inl hq
  | some m =>
    obtain ⟨k, hk, hqk⟩ := mem_allPorts.1 hq
    rcases (mem_nodes_reshapeOne hg h).1 hk with ⟨hk, -⟩ | rfl
    · exact .inl (mem_allPorts.2 ⟨k, hk, hqk⟩)
    · exact (mem_ports_of_shapedNode hqk).imp_left fun hp =>
        mem_allPorts.2 ⟨m, (node?_mem h).1, hp⟩

/-- A port survives a reshape unless its node loses it. -/
theorem mem_allPorts_reshapeOne (hg : g.Ascending) (h : g.node? n = some m) {q : PlacedPort}
    (hq : q ∈ g.allPorts) : q ∈ (g.reshapeOne n).1.allPorts ∨ q.port ∈ g.droppedPorts m := by
  obtain ⟨k, hk, hqk⟩ := mem_allPorts.1 hq
  by_cases hkn : k.id = n
  · obtain ⟨hm, hid⟩ := node?_mem h
    obtain rfl := hg.id_inj hk hm (hkn.trans hid.symm)
    exact (mem_shapedNode_of_mem hqk).imp_left fun hp =>
      mem_allPorts.2 ⟨_, (mem_nodes_reshapeOne hg h).2 (.inr rfl), hp⟩
  · exact .inl (mem_allPorts.2 ⟨k, (mem_nodes_reshapeOne hg h).2 (.inl ⟨hk, hkn⟩), hqk⟩)

omit [HasSignature κ] in
theorem numbers_eq (g : Graph κ) : g.numbers = g.nodes.flatMap fun n => n.ports.map (·.index) := by
  simp [numbers, allPorts, List.map_flatMap, numbers_placedPorts]

/-- The numbers in use after a reshape, with those of the lost ports, are the numbers in use before
it and the next ones in turn. -/
theorem numbers_reshapeOne (hg : g.Ascending) (h : g.node? n = some m) :
    ∃ count, ((g.reshapeOne n).1.numbers ++ (g.droppedPorts m).map (·.index)).Perm
        (g.numbers ++ List.range' g.nextPort count) ∧
      (g.reshapeOne n).1.nextPort = g.nextPort + count := by
  obtain ⟨l₁, l₂, hl, -, hl'⟩ := reshapeOne_nodes hg h
  obtain ⟨newIn, hpermIn, hnumIn, hnextIn⟩ := reusePorts_perm (g.wantedInputs m) m.inputs g.nextPort
  obtain ⟨newOut, hpermOut, hnumOut, hnextOut⟩ :=
    reusePorts_perm (g.wantedOutputs m) m.outputs (g.reusedInputs m).nextPort
  have hnext : (g.reusedInputs m).nextPort = g.nextPort + newIn.length := hnextIn
  refine ⟨newIn.length + newOut.length, ?_, ?_⟩
  · have hin := hpermIn.map fun p => p.index
    have hout := hpermOut.map fun p => p.index
    rw [hnext] at hnumOut
    simp only [List.map_append, hnumIn, hnumOut] at hin hout
    rw [← List.range'_append_1, numbers_eq, numbers_eq, hl, hl']
    simp only [List.flatMap_append, List.flatMap_cons, droppedPorts, Node.ports, shapedNode,
      List.map_append]
    -- The parts stand in another order on the two sides, so the numbers are counted.
    exact List.perm_iff_count.2 fun i => by
      have h₁ := List.perm_iff_count.1 hin i
      have h₂ := List.perm_iff_count.1 hout i
      simp only [List.count_append, reusedInputs, reusedOutputs] at *
      omega
  · rw [reshapeOne_nextPort h]
    have : (g.reusedOutputs m).nextPort = (g.reusedInputs m).nextPort + newOut.length := hnextOut
    omega

/-! ## Well-formedness -/

omit [HasSignature κ] in
theorem ascending_iff (g : Graph κ) :
    g.Ascending ↔ g.nodeIds.Pairwise fun a b => a.number < b.number := by
  rw [Ascending, nodeIds, List.pairwise_map]

theorem Numbered.reshapeOne (hg : g.Numbered) (n : NodeId) : (g.reshapeOne n).1.Numbered := by
  cases h : g.node? n with
  | none => rw [reshapeOne_of_none h]; exact hg
  | some m =>
    obtain ⟨count, hperm, hnext⟩ := numbers_reshapeOne hg.ascending h
    have hnew : (g.numbers ++ List.range' g.nextPort count).Nodup := by
      refine List.nodup_append.2 ⟨hg.distinct, List.nodup_range', fun i hi j hj hij => ?_⟩
      obtain ⟨q, hq, rfl⟩ := List.mem_map.1 hi
      have := hg.used q hq
      have := (List.mem_range'_1.1 hj).1
      omega
    refine ⟨?_, ?_, ?_⟩
    · rw [ascending_iff, reshapeOne_nodeIds hg.ascending]
      exact (ascending_iff g).1 hg.ascending
    · exact ((hperm.nodup_iff.2 hnew).sublist (List.sublist_append_left _ _))
    · intro q hq
      have hmem : q.port.index ∈ g.numbers ++ List.range' g.nextPort count :=
        hperm.subset (List.mem_append_left _ (List.mem_map_of_mem hq))
      rcases List.mem_append.1 hmem with hi | hi
      · obtain ⟨p, hp, hpi⟩ := List.mem_map.1 hi
        have := hg.used p hp
        omega
      · have := (List.mem_range'_1.1 hi).2
        omega

theorem WellFormed.reshapeOne (hg : g.WellFormed) (n : NodeId) : (g.reshapeOne n).1.WellFormed := by
  cases h : g.node? n with
  | none => rw [reshapeOne_of_none h]; exact hg
  | some m =>
    have hnumbered := hg.numbered.reshapeOne n
    refine ⟨hnumbered.ascending, hnumbered.distinct, hnumbered.used, ?_, ?_⟩
    · intro c hc
      rw [reshapeOne_connections h, List.mem_filter] at hc
      obtain ⟨s, d, hj⟩ := hg.joined c hc.1
      -- A connection that is not lost ends at no dropped port, so both its ends survive.
      have hkept : ∀ q ∈ g.allPorts, c.touches q.port.index = true →
          q ∈ (g.reshapeOne n).1.allPorts := by
        intro q hq ht
        refine (mem_allPorts_reshapeOne hg.ascending h hq).resolve_right fun hd => ?_
        have : g.loses m c = true := List.any_eq_true.2 ⟨q.port, hd, ht⟩
        simp [this] at hc
      refine ⟨s, d, { hj with source_mem := ?_, destination_mem := ?_, feeds := ?_ }⟩
      · exact hkept s hj.source_mem (by simp [Connection.touches, hj.source_index])
      · exact hkept d hj.destination_mem (by simp [Connection.touches, hj.destination_index])
      · rw [reshapeOne_hook]
        exact hj.feeds
    · rw [reshapeOne_connections h]
      exact hg.single.sublist List.filter_sublist

/-! ## Nested reshapes -/

/-- What one reshape keeps, any number of nested ones keep. -/
theorem reshapeNested_induct {P : Graph κ → Prop} (step : ∀ g n, P g → P (g.reshapeOne n).1) :
    ∀ depth g ns, P g → P (reshapeNested depth g ns) := by
  intro depth
  induction depth with
  | zero =>
    intro g ns hg
    exact List.foldlRecOn ns _ hg fun g hg n _ => step g n hg
  | succ depth ih =>
    intro g ns hg
    exact List.foldlRecOn ns _ hg fun g hg n _ => ih _ _ (step g n hg)

theorem reshape_induct {P : Graph κ → Prop} (step : ∀ g n, P g → P (g.reshapeOne n).1)
    {g : Graph κ} (hg : P g) (n : NodeId) : P (g.reshape n) :=
  reshapeNested_induct step _ _ _ hg

theorem refresh_induct {P : Graph κ → Prop} (step : ∀ g n, P g → P (g.reshapeOne n).1)
    {g : Graph κ} (hg : P g) (ns : List NodeId) : P (g.refresh ns) := by
  refine List.foldlRecOn (sortIds ns) _ hg fun g hg n _ => ?_
  split
  · exact reshape_induct step hg n
  · exact hg

/-- What reshapes leave alone: everything but the ports of nodes, and of the connections they may
only take some away. -/
structure Reshapes (g g' : Graph κ) : Prop where
  id : g'.id = g.id
  signature : g'.signature = g.signature
  hook : g'.hook = g.hook
  bare : g'.nodes.map Node.bare = g.nodes.map Node.bare
  connections : g'.connections.Sublist g.connections
  nextPort : g.nextPort ≤ g'.nextPort
  ports : ∀ q ∈ g'.allPorts, q ∈ g.allPorts ∨ g.nextPort ≤ q.port.index

omit [HasSignature κ] in
theorem Reshapes.refl (g : Graph κ) : g.Reshapes g :=
  ⟨rfl, rfl, rfl, rfl, .refl _, Nat.le_refl _, fun _ hq => .inl hq⟩

omit [HasSignature κ] in
theorem Reshapes.trans {g₁ g₂ g₃ : Graph κ} (h : g₁.Reshapes g₂) (h' : g₂.Reshapes g₃) :
    g₁.Reshapes g₃ := by
  refine ⟨h'.id.trans h.id, h'.signature.trans h.signature, h'.hook.trans h.hook,
    h'.bare.trans h.bare, h'.connections.trans h.connections, Nat.le_trans h.nextPort h'.nextPort,
    fun q hq => ?_⟩
  rcases h'.ports q hq with hq | hq
  · exact h.ports q hq
  · exact .inr (Nat.le_trans h.nextPort hq)

omit [HasSignature κ] in
theorem Reshapes.nodeIds {g' : Graph κ} (h : g.Reshapes g') : g'.nodeIds = g.nodeIds := by
  have := congrArg (List.map fun m : Node κ => m.id) h.bare
  simpa [Graph.nodeIds, Function.comp_def] using this

omit [HasSignature κ] in
/-- A node afterwards was there before, with the same stored values. -/
theorem Reshapes.origin {g' : Graph κ} (h : g.Reshapes g') {k : Node κ} (hk : k ∈ g'.nodes) :
    ∃ m ∈ g.nodes, m.bare = k.bare := by
  have : k.bare ∈ g.nodes.map Node.bare := h.bare ▸ List.mem_map_of_mem hk
  simpa using this

omit [HasSignature κ] in
theorem Reshapes.image {g' : Graph κ} (h : g.Reshapes g') {m : Node κ} (hm : m ∈ g.nodes) :
    ∃ k ∈ g'.nodes, k.bare = m.bare := by
  have : m.bare ∈ g'.nodes.map Node.bare := h.bare ▸ List.mem_map_of_mem hm
  simpa using this

theorem reshapes_reshapeOne (hg : g.Ascending) (n : NodeId) : g.Reshapes (g.reshapeOne n).1 := by
  cases h : g.node? n with
  | none => rw [reshapeOne_of_none h]; exact .refl g
  | some m =>
    refine ⟨reshapeOne_id, reshapeOne_signature, reshapeOne_hook, ?_, ?_, ?_,
      fun q hq => mem_allPorts_of_reshapeOne hg hq⟩
    · obtain ⟨l₁, l₂, hl, -, hl'⟩ := reshapeOne_nodes hg h
      simp [hl, hl', Node.bare, shapedNode]
    · rw [reshapeOne_connections h]
      exact List.filter_sublist
    · obtain ⟨count, -, hnext⟩ := numbers_reshapeOne hg h
      omega

theorem reshapes_reshape (hg : g.WellFormed) (n : NodeId) : g.Reshapes (g.reshape n) :=
  (reshape_induct (P := fun k => k.WellFormed ∧ g.Reshapes k)
    (fun _ m hk => ⟨hk.1.reshapeOne m, hk.2.trans (reshapes_reshapeOne hk.1.ascending m)⟩)
    ⟨hg, .refl g⟩ n).2

theorem reshapes_refresh (hg : g.WellFormed) (ns : List NodeId) : g.Reshapes (g.refresh ns) :=
  (refresh_induct (P := fun k => k.WellFormed ∧ g.Reshapes k)
    (fun _ m hk => ⟨hk.1.reshapeOne m, hk.2.trans (reshapes_reshapeOne hk.1.ascending m)⟩)
    ⟨hg, .refl g⟩ ns).2

end Graph

end EffectGraph
