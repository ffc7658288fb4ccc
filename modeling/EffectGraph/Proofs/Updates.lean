import EffectGraph.Proofs.Valid

/-!
# Edits keep the invariant

One lemma per edit: from a valid graph it leads to a valid graph. An edit that changes what a node
stores or of what kind it is puts the node on the list of those to be reshaped, and its reshape
takes it off again.
-/

namespace EffectGraph

variable {κ : Type}

namespace Graph

variable {g : Graph κ} {n : NodeId}

/-! ## Changes that keep the ports -/

theorem WellFormed.congr {g' : Graph κ} (h : g.WellFormed) (hids : g'.nodeIds = g.nodeIds)
    (hports : g'.allPorts = g.allPorts) (hconnections : g'.connections = g.connections)
    (hnext : g'.nextPort = g.nextPort) (hhook : g'.hook = g.hook) : g'.WellFormed := by
  refine ⟨?_, ?_, ?_, ?_, ?_⟩
  · rw [ascending_iff, hids]
    exact (ascending_iff g).1 h.ascending
  · rw [numbers, hports]
    exact h.distinct
  · rw [hports, hnext]
    exact h.used
  · rw [hconnections]
    intro c hc
    obtain ⟨s, d, hj⟩ := h.joined c hc
    exact ⟨s, d, { hj with
      source_mem := hports ▸ hj.source_mem
      destination_mem := hports ▸ hj.destination_mem
      feeds := hhook ▸ hj.feeds }⟩
  · rw [hconnections]
    exact h.single

theorem WellFormed.sever (h : g.WellFormed) (p : Connection → Bool) : (g.sever p).WellFormed := by
  refine ⟨h.ascending, h.distinct, h.used, fun c hc => ?_, ?_⟩
  · obtain ⟨s, d, hj⟩ := h.joined c (List.mem_filter.1 hc).1
    exact ⟨s, d, { hj with }⟩
  · exact h.single.sublist List.filter_sublist

theorem nodeIds_updateNode {f : Node κ → Node κ} (hid : ∀ m, (f m).id = m.id) :
    (g.updateNode n f).nodeIds = g.nodeIds := by
  simp only [nodeIds, updateNode, List.map_map]
  refine List.map_congr_left fun m _ => ?_
  simp only [Function.comp_apply]
  split
  · exact hid m
  · rfl

theorem allPorts_updateNode {f : Node κ → Node κ} (hid : ∀ m, (f m).id = m.id)
    (hinputs : ∀ m, (f m).inputs = m.inputs) (houtputs : ∀ m, (f m).outputs = m.outputs) :
    (g.updateNode n f).allPorts = g.allPorts := by
  simp only [allPorts, updateNode, List.flatMap_map]
  congr 1
  funext m
  split
  · simp [placedPorts, hid, hinputs, houtputs]
  · rfl

theorem WellFormed.updateNode (h : g.WellFormed) {f : Node κ → Node κ}
    (hid : ∀ m, (f m).id = m.id) (hinputs : ∀ m, (f m).inputs = m.inputs)
    (houtputs : ∀ m, (f m).outputs = m.outputs) : (g.updateNode n f).WellFormed :=
  h.congr (nodeIds_updateNode hid) (allPorts_updateNode hid hinputs houtputs) rfl rfl rfl

variable [HasSignature κ] {stale : List NodeId}

theorem Valid.sever (h : g.Valid stale) (p : Connection → Bool) : (g.sever p).Valid stale :=
  h.of_nodes (h.wellFormed.sever p) rfl rfl

/-- A change of what a node stores or of its kind leaves a valid graph in which the node is to be
reshaped. -/
theorem Valid.updateNode (h : g.Valid stale) {f : Node κ → Node κ} (hid : ∀ m, (f m).id = m.id)
    (hinputs : ∀ m, (f m).inputs = m.inputs) (houtputs : ∀ m, (f m).outputs = m.outputs)
    (hkind : ∀ m, (f m).kind = m.kind ∨ ∃ k, (f m).kind = .action k)
    (hstored : ∀ m ∈ g.nodes, m.id = n → (f m).Stored) :
    (g.updateNode n f).Valid (n :: stale) := by
  have hports := allPorts_updateNode (g := g) (n := n) hid hinputs houtputs
  -- Every node afterwards is one from before, changed if it is the one named.
  have horigin : ∀ k ∈ (g.updateNode n f).nodes, ∃ m ∈ g.nodes, m.id = k.id ∧
      (k.kind = m.kind ∨ ∃ a, k.kind = .action a) ∧ (k.id = n ∨ k = m) ∧ (m.id = n → k = f m) := by
    intro k hk
    obtain ⟨m, hm, rfl⟩ := mem_nodes_updateNode.1 hk
    refine ⟨m, hm, ?_⟩
    by_cases hmn : m.id = n
    · simp only [hmn, if_true]
      exact ⟨hmn ▸ (hid m).symm, hkind m, .inl (hmn ▸ hid m), fun _ => trivial⟩
    · simp [hmn]
  have hwf := h.wellFormed.updateNode (n := n) hid hinputs houtputs
  have hkinds : ∀ kind : NodeKind κ, (∀ a, kind ≠ .action a) →
      ∀ k ∈ (g.updateNode n f).nodes, k.kind = kind →
        ∃ m ∈ g.nodes, m.id = k.id ∧ m.kind = kind := by
    intro kind hpseudo k hk hkind
    obtain ⟨m, hm, hmk, hor, -⟩ := horigin k hk
    have hsame := hor.resolve_right fun ⟨a, ha⟩ => hpseudo a (hkind.symm.trans ha)
    exact ⟨m, hm, hmk, hsame.symm.trans hkind⟩
  refine ⟨hwf, hports ▸ h.slots, ?_, ?_, ?_,
    lone_of_origin hwf.ascending h.loneEntry (hkinds _ (by simp)),
    lone_of_origin hwf.ascending h.loneResult (hkinds _ (by simp))⟩
  · intro k hk
    obtain ⟨m, hm, hmk, -, hor, hsame⟩ := horigin k hk
    by_cases hmn : m.id = n
    · exact hsame hmn ▸ hstored m hm hmn
    · obtain rfl := hor.resolve_left fun hkn => hmn (hmk.trans hkn)
      exact h.stored k hm
  · intro k hk
    obtain ⟨m, hm, hmk, -⟩ := horigin k hk
    exact hmk ▸ h.positive m hm
  · intro k hk hnot
    obtain ⟨m, hm, -, -, hor, -⟩ := horigin k hk
    simp only [List.mem_cons, not_or] at hnot
    obtain rfl := hor.resolve_left hnot.1
    exact (h.shaped k hm hnot.2).of_signature rfl

/-- A change that keeps the kind of a node and no further slots open leaves a valid graph. -/
theorem Valid.updateNode_shaped (h : g.Valid stale) {f : Node κ → Node κ}
    (hid : ∀ m, (f m).id = m.id) (hinputs : ∀ m, (f m).inputs = m.inputs)
    (houtputs : ∀ m, (f m).outputs = m.outputs) (hkind : ∀ m, (f m).kind = m.kind)
    (hreserves : ∀ m group i, (f m).Reserves group i → m.Reserves group i)
    (hstored : ∀ m ∈ g.nodes, m.id = n → (f m).Stored) : (g.updateNode n f).Valid stale := by
  have hvalid := h.updateNode (n := n) hid hinputs houtputs (fun m => .inl (hkind m)) hstored
  refine { hvalid with shaped := fun k hk hnot => ?_ }
  obtain ⟨m, hm, rfl⟩ := mem_nodes_updateNode.1 hk
  split at hnot
  next hmn =>
    rw [if_pos hmn]
    exact (h.shaped m hm (hid m ▸ hnot)).congr rfl (hkind m) (hinputs m) (houtputs m) (hreserves m)
  next hmn =>
    rw [if_neg hmn]
    exact (h.shaped m hm hnot).of_signature rfl

/-! ## New nodes -/

omit [HasSignature κ] in
theorem perm_insertNode (m : Node κ) (ns : List (Node κ)) : (insertNode m ns).Perm (m :: ns) := by
  induction ns with
  | nil => exact .refl _
  | cons n ns ih =>
    rw [insertNode]
    split
    · exact .refl _
    · exact (ih.cons n).trans (.swap m n ns)

omit [HasSignature κ] in
theorem mem_insertNode {m k : Node κ} {ns : List (Node κ)} :
    k ∈ insertNode m ns ↔ k = m ∨ k ∈ ns :=
  (perm_insertNode m ns).mem_iff.trans List.mem_cons

omit [HasSignature κ] in
theorem insertNode_pairwise {m : Node κ} {ns : List (Node κ)}
    (h : ns.Pairwise fun a b => a.id.number < b.id.number) (hm : ∀ k ∈ ns, k.id ≠ m.id) :
    (insertNode m ns).Pairwise fun a b => a.id.number < b.id.number := by
  induction ns with
  | nil => simp [insertNode]
  | cons n ns ih =>
    obtain ⟨hhead, htail⟩ := List.pairwise_cons.1 h
    rw [insertNode]
    split
    next hlt =>
      refine List.pairwise_cons.2 ⟨fun k hk => ?_, h⟩
      rcases List.mem_cons.1 hk with rfl | hk
      · exact hlt
      · exact UInt32.lt_trans hlt (hhead k hk)
    next hnlt =>
      refine List.pairwise_cons.2 ⟨fun k hk => ?_, ih htail fun k hk => hm k (.tail _ hk)⟩
      rcases mem_insertNode.1 hk with rfl | hk
      · have hne : n.id.number ≠ k.id.number := fun he => hm n (.head _) (congrArg NodeId.mk he)
        exact UInt32.lt_of_le_of_ne (UInt32.not_lt.1 hnlt) hne
      · exact hhead k hk

omit [HasSignature κ] in
theorem allPorts_insertNode (id : NodeId) (kind : NodeKind κ) (g : Graph κ) :
    ({ g with nodes := insertNode (.fresh id kind) g.nodes } : Graph κ).allPorts = g.allPorts := by
  simp only [allPorts]
  induction g.nodes with
  | nil => rfl
  | cons n ns ih =>
    rw [insertNode]
    split
    · rfl
    · simp only [List.flatMap_cons, ih]

theorem Stored.fresh (id : NodeId) (kind : NodeKind κ) : (Node.fresh id kind).Stored := by
  refine ⟨?_, ?_, ?_, ?_⟩ <;> simp [Node.fresh]

omit [HasSignature κ] in
theorem entryNode?_eq_none_iff : g.entryNode? = none ↔ ∀ m ∈ g.nodes, m.kind ≠ .entry := by
  simp only [entryNode?, Option.map_eq_none_iff, List.find?_eq_none]
  refine forall₂_congr fun m _ => ?_
  cases m.kind <;> simp

omit [HasSignature κ] in
theorem resultNode?_eq_none_iff : g.resultNode? = none ↔ ∀ m ∈ g.nodes, m.kind ≠ .result := by
  simp only [resultNode?, Option.map_eq_none_iff, List.find?_eq_none]
  refine forall₂_congr fun m _ => ?_
  cases m.kind <;> simp

/-- The graph with a new node that has still to get its ports. -/
theorem Valid.insertNode (h : g.Valid stale) {kind : NodeKind κ} (hfree : g.node? n = none)
    (hpos : n.number ≠ 0) (hentry : kind = .entry → g.entryNode? = none)
    (hresult : kind = .result → g.resultNode? = none) :
    ({ g with nodes := Graph.insertNode (.fresh n kind) g.nodes } : Graph κ).Valid
      (n :: stale) := by
  have hports := allPorts_insertNode n kind g
  have hids := node?_eq_none_iff.1 hfree
  have hconn : ∀ c ∈ g.connections, ∃ s d,
      ({ g with nodes := Graph.insertNode (.fresh n kind) g.nodes } : Graph κ).Joins c s d := by
    intro c hc
    obtain ⟨s, d, hj⟩ := h.wellFormed.joined c hc
    exact ⟨s, d, { hj with
      source_mem := hports ▸ hj.source_mem, destination_mem := hports ▸ hj.destination_mem }⟩
  refine ⟨⟨insertNode_pairwise h.ascending hids, ?_, hports ▸ h.wellFormed.used, hconn,
    h.wellFormed.single⟩, hports ▸ h.slots, ?_, ?_, ?_, ?_, ?_⟩
  · rw [numbers, hports]
    exact h.wellFormed.distinct
  · intro k hk
    rcases mem_insertNode.1 hk with rfl | hk
    · exact Stored.fresh n kind
    · exact h.stored k hk
  · intro k hk
    rcases mem_insertNode.1 hk with rfl | hk
    · exact hpos
    · exact h.positive k hk
  · intro k hk hnot
    simp only [List.mem_cons, not_or] at hnot
    have hkg := (mem_insertNode.1 hk).resolve_left fun he => hnot.1 (he ▸ rfl)
    exact (h.shaped k hkg hnot.2).of_signature rfl
  · intro a ha b hb hka hkb
    rcases mem_insertNode.1 ha with rfl | hag <;> rcases mem_insertNode.1 hb with rfl | hbg
    · rfl
    · exact absurd hkb (entryNode?_eq_none_iff.1 (hentry hka) b hbg)
    · exact absurd hka (entryNode?_eq_none_iff.1 (hentry hkb) a hag)
    · exact h.loneEntry a hag b hbg hka hkb
  · intro a ha b hb hka hkb
    rcases mem_insertNode.1 ha with rfl | hag <;> rcases mem_insertNode.1 hb with rfl | hbg
    · rfl
    · exact absurd hkb (resultNode?_eq_none_iff.1 (hresult hka) b hbg)
    · exact absurd hka (resultNode?_eq_none_iff.1 (hresult hkb) a hag)
    · exact h.loneResult a hag b hbg hka hkb

end Graph

end EffectGraph
