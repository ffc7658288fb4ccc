import EffectGraph.Proofs.Reachable

/-!
# New signatures are never refused

A new signature makes the missing pseudo-nodes and a connection between them. That can fail only
for want of a free node id, and node ids outlast port numbers: every action node has two ports,
ports are numbered with 32 bits like nodes, and no number is given out twice
(`Valid.setSignature_ok`).
-/

namespace EffectGraph

variable {κ : Type}

namespace Graph

/-! ## Free ids -/

theorem not_mem_firstGap {ids : List NodeId} {candidate : UInt32}
    (hasc : ids.Pairwise fun a b => a.number < b.number)
    (hge : ∀ n ∈ ids, candidate ≤ n.number)
    (hroom : candidate.toNat + ids.length < UInt32.size) :
    candidate ≤ firstGap candidate ids ∧ ∀ n ∈ ids, n.number ≠ firstGap candidate ids := by
  induction ids generalizing candidate with
  | nil => exact ⟨UInt32.le_refl _, by simp⟩
  | cons n ns ih =>
    obtain ⟨hhead, htail⟩ := List.pairwise_cons.1 hasc
    have hn := hge n List.mem_cons_self
    rw [firstGap]
    by_cases he : n.number = candidate
    · rw [if_pos he]
      rw [List.length_cons] at hroom
      have hnext : (candidate + 1).toNat = candidate.toNat + 1 := by
        rw [UInt32.toNat_add, UInt32.toNat_one]
        exact Nat.mod_eq_of_lt (by simp only [UInt32.size] at hroom; omega)
      have hafter : ∀ m ∈ ns, candidate + 1 ≤ m.number := by
        intro m hm
        have hlt := UInt32.lt_iff_toNat_lt.1 (hhead m hm)
        rw [UInt32.le_iff_toNat_le, hnext]
        rw [he] at hlt
        omega
      obtain ⟨hle, hfree⟩ := ih htail hafter (by omega)
      have hlt : candidate < firstGap (candidate + 1) ns := by
        have := UInt32.le_iff_toNat_le.1 hle
        rw [UInt32.lt_iff_toNat_lt]
        omega
      refine ⟨UInt32.le_of_lt hlt, fun m hm => ?_⟩
      rcases List.mem_cons.1 hm with rfl | hm
      · rw [he]
        exact UInt32.ne_of_lt hlt
      · exact hfree m hm
    · have hlt : candidate < n.number := UInt32.lt_of_le_of_ne hn (Ne.symm he)
      rw [if_neg he, if_pos hlt]
      refine ⟨UInt32.le_refl _, fun m hm => ?_⟩
      rcases List.mem_cons.1 hm with rfl | hm
      · exact he
      · exact (UInt32.ne_of_lt (UInt32.lt_trans hlt (hhead m hm))).symm

/-- The next id is free as long as not all ids are in use. -/
theorem nextNodeId_free {g : Graph κ} (hg : g.Ascending) (hpos : ∀ m ∈ g.nodes, m.id.number ≠ 0)
    (hroom : g.nodes.length + 1 < UInt32.size) :
    g.node? g.nextNodeId = none ∧ g.nextNodeId.number ≠ 0 := by
  have hasc : g.nodeIds.Pairwise fun a b => a.number < b.number := (ascending_iff g).1 hg
  have hge : ∀ n ∈ g.nodeIds, (1 : UInt32) ≤ n.number := by
    intro n hn
    obtain ⟨m, hm, rfl⟩ := List.mem_map.1 hn
    have hne : m.id.number.toNat ≠ 0 := fun h => hpos m hm (UInt32.toNat_inj.1 h)
    rw [UInt32.le_iff_toNat_le, UInt32.toNat_one]
    omega
  have hlength : g.nodeIds.length = g.nodes.length := List.length_map _
  obtain ⟨hle, hfree⟩ := not_mem_firstGap hasc hge (by rw [UInt32.toNat_one]; omega)
  refine ⟨node?_eq_none_iff.2 fun m hm hid => ?_, fun hzero => ?_⟩
  · exact hfree m.id (List.mem_map_of_mem hm) (congrArg NodeId.number hid)
  · have hone := UInt32.le_iff_toNat_le.1 hle
    have hz : (firstGap 1 g.nodeIds).toNat = 0 := congrArg UInt32.toNat hzero
    rw [hz, UInt32.toNat_one] at hone
    omega

variable {g : Graph κ}

theorem WellFormed.length_numbers_le (h : g.WellFormed) : g.numbers.length ≤ g.nextPort := by
  have hsub : g.numbers ⊆ List.range g.nextPort := by
    intro i hi
    obtain ⟨q, hq, rfl⟩ := List.mem_map.1 hi
    exact List.mem_range.2 (h.used q hq)
  have := (h.distinct.subperm hsub).length_le
  rwa [List.length_range] at this

/-- If at most one node is of a kind then at most one passes a test for it. -/
theorem countP_kind_le_one {kind : NodeKind κ} {test : Node κ → Bool}
    (htest : ∀ m, test m = true ↔ m.kind = kind) (hg : g.Ascending)
    (hlone : ∀ m ∈ g.nodes, ∀ n ∈ g.nodes, m.kind = kind → n.kind = kind → m = n) :
    g.nodes.countP test ≤ 1 := by
  refine countP_le_one (List.Pairwise.imp_of_mem (fun hm hn hlt hboth => ?_) hg)
  have he := hlone _ hm _ hn ((htest _).1 hboth.1) ((htest _).1 hboth.2)
  rw [he] at hlt
  exact UInt32.lt_irrefl _ hlt

def isPseudo (m : Node κ) : Bool := m.kind.action?.isNone

theorem countP_isPseudo_le (ns : List (Node κ)) : ns.countP isPseudo ≤
    ns.countP (·.kind matches .entry) + ns.countP (·.kind matches .result) := by
  induction ns with
  | nil => simp
  | cons m ns ih =>
    simp only [List.countP_cons]
    cases hk : m.kind <;> simp [isPseudo, hk, NodeKind.action?] <;> omega

variable [HasSignature κ] {stale : List NodeId}

/-- An action node has an entrance and an exit for control, and a pseudo-node has one of the two. -/
theorem Shaped.two_le_ports {m : Node κ} (h : g.Shaped m) :
    2 ≤ m.ports.length + if isPseudo m then 1 else 0 := by
  obtain ⟨w, hin, -⟩ := h.inputs
  have hout := congrArg List.length h.outputs
  have hin := congrArg List.length hin
  simp only [List.length_map, inputShape, wantedOutputs] at hin hout
  simp only [Node.ports, List.length_append]
  cases hk : m.kind <;>
    simp only [hk, List.length_cons, List.length_map, List.length_nil] at hin hout <;>
    simp [isPseudo, hk, NodeKind.action?] <;> omega

/-- There are at most half as many nodes as ports, the pseudo-nodes apart. -/
theorem Valid.length_nodes_le (h : g.Valid []) : 2 * g.nodes.length ≤ g.nextPort + 2 := by
  have hsum : ∀ ns : List (Node κ), (∀ m ∈ ns, g.Shaped m) →
      2 * ns.length ≤ (ns.map fun m => m.ports.length).sum + ns.countP isPseudo := by
    intro ns hns
    induction ns with
    | nil => simp
    | cons m ns ih =>
      have hm := (hns m List.mem_cons_self).two_le_ports
      have hrest := ih fun k hk => hns k (List.mem_cons_of_mem _ hk)
      rw [List.length_cons, List.map_cons, List.sum_cons, List.countP_cons]
      omega
  have htotal := hsum g.nodes fun m hm => h.shaped m hm List.not_mem_nil
  have hlength : g.numbers.length = (g.nodes.map fun m => m.ports.length).sum := by
    simp [numbers_eq, List.length_flatMap]
  have hnumbers := h.wellFormed.length_numbers_le
  have hpseudo := countP_isPseudo_le g.nodes
  have hentry := countP_kind_le_one matches_entry h.ascending h.loneEntry
  have hresult := countP_kind_le_one matches_result h.ascending h.loneResult
  have hboth : g.nodes.countP isPseudo ≤ 1 + 1 :=
    Nat.le_trans hpseudo (Nat.add_le_add hentry hresult)
  omega

/-! ## The pseudo-nodes -/

omit [HasSignature κ] in
theorem length_insertNode (m : Node κ) (ns : List (Node κ)) :
    (insertNode m ns).length = ns.length + 1 := by
  induction ns with
  | nil => rfl
  | cons n ns ih =>
    rw [insertNode]
    split
    · rfl
    · rw [List.length_cons, ih, List.length_cons]

omit [HasSignature κ] in
theorem Reshapes.length_nodes {g' : Graph κ} (h : g.Reshapes g') :
    g'.nodes.length = g.nodes.length := by
  have := congrArg List.length h.bare
  simpa using this

/-- A pseudo-node that is missing can be made while there is a free id. -/
theorem Valid.ensure_ok {present : Option NodeId} (h : g.Valid (present.toList ++ stale))
    (kind : NodeKind κ) (hsignature : g.signature.isSome = true)
    (hkind : kind = .entry ∧ present = g.entryNode? ∨ kind = .result ∧ present = g.resultNode?)
    (hroom : g.nodes.length + 1 < UInt32.size) :
    ∃ r, g.ensure kind present = .ok r ∧ r.1.signature = g.signature ∧
      r.1.nodes.length ≤ g.nodes.length + 1 := by
  cases present with
  | some n =>
    have hframe := reshapes_reshape h.wellFormed n
    refine ⟨(g.reshape n, none), rfl, hframe.signature, ?_⟩
    rw [hframe.length_nodes]
    omega
  | none =>
    obtain ⟨hfree, hpos⟩ := nextNodeId_free h.ascending h.positive hroom
    have hcheck : g.checkKind kind = .ok () := by
      rcases hkind with ⟨rfl, hnone⟩ | ⟨rfl, hnone⟩ <;>
        simp [checkKind, ← hnone, Option.isSome_iff_ne_none.1 hsignature]
    have hadd : g.addNodeAt g.nextNodeId kind = .ok (g.place g.nextNodeId kind) :=
      addNodeAt_eq_ok.2 ⟨hpos, hfree, hcheck, rfl⟩
    have hframe := h.reshapes_place hadd
    refine ⟨(g.place g.nextNodeId kind, some g.nextNodeId), ?_, hframe.signature, ?_⟩
    · exact ensure_eq_ok.2 (.inr ⟨rfl, _, _, addNode_eq_ok.2 ⟨hadd, rfl⟩, rfl⟩)
    · rw [hframe.length_nodes]
      exact Nat.le_of_eq (length_insertNode _ _)

theorem Valid.exit_of_entry (h : g.Valid []) {m : Node κ} (hm : m ∈ g.nodes)
    (hk : m.kind = .entry) : ∃ p ∈ m.outputs, p.decl = .control exitName ∧
      g.output? m.id exitName = some (g.portId p.index) := by
  have hspecs := (h.shaped m hm List.not_mem_nil).outputs
  simp only [wantedOutputs, hk] at hspecs
  obtain ⟨p, ps, hp, hspec, -⟩ := List.map_eq_cons_iff.1 hspecs
  have hdecl : p.decl = .control exitName := congrArg PortSpec.decl hspec
  refine ⟨p, hp ▸ List.mem_cons_self, hdecl, ?_⟩
  simp [output?, node?_of_mem h.ascending hm, hp, hdecl, PortDecl.control]

theorem Valid.enter_of_result (h : g.Valid []) {m : Node κ} (hm : m ∈ g.nodes)
    (hk : m.kind = .result) : ∃ p ∈ m.inputs, p.decl = .control enterName ∧
      g.input? m.id enterName none = some (g.portId p.index) := by
  obtain ⟨w, hspecs, -⟩ := (h.shaped m hm List.not_mem_nil).inputs
  simp only [inputShape, hk] at hspecs
  obtain ⟨p, ps, hp, hspec, -⟩ := List.map_eq_cons_iff.1 hspecs
  have hdecl : p.decl = .control enterName := congrArg PortSpec.decl hspec
  have hslot : p.slot = none := congrArg PortSpec.slot hspec
  refine ⟨p, hp ▸ List.mem_cons_self, hdecl, ?_⟩
  simp [input?, node?_of_mem h.ascending hm, hp, hdecl, hslot, PortDecl.control]

theorem Valid.wire_ok (h : g.Valid []) {e t : Node κ} (he : e ∈ g.nodes) (ht : t ∈ g.nodes)
    (hek : e.kind = .entry) (htk : t.kind = .result) :
    ∃ g', g.wire e.id exitName t.id enterName = .ok g' := by
  obtain ⟨p, hp, hpd, hout⟩ := h.exit_of_entry he hek
  obtain ⟨q, hq, hqd, hin⟩ := h.enter_of_result ht htk
  have hport := h.wellFormed.port?_portId (output_mem_allPorts he hp)
  have hport' := h.wellFormed.port?_portId (input_mem_allPorts ht hq)
  have hne : e.id ≠ t.id := by
    intro hid
    obtain rfl := h.ascending.id_inj he ht hid
    rw [hek] at htk
    cases htk
  have hjoint : orient? ⟨e.id, .output, p⟩ ⟨t.id, .input, q⟩ =
      some ⟨⟨e.id, .output, p⟩, ⟨t.id, .input, q⟩, .control⟩ := by
    simp [orient?, PlacedPort.role, hpd, hqd, PortDecl.control, PortRole.of]
  have hcheck := checkConnection_eq_ok.2 ⟨_, _, hport, hport', hne, hjoint, by simp⟩
  exact ⟨_, wire_eq_ok.2 ⟨_, _, hout, hin, connect_eq_ok.2 ⟨_, hcheck, rfl⟩⟩⟩

/-- A new signature is never refused, since node ids do not run out before port numbers. -/
theorem Valid.setSignature_ok (h : g.Valid []) (hports : g.nextPort < UInt32.size)
    (s : Signature) : ∃ g', g.setSignature s = .ok g' := by
  have hnodes := h.length_nodes_le
  have hsize : UInt32.size = 4294967296 := rfl
  have hsigned := h.signed s
  obtain ⟨r, hr, hsig, hlen⟩ := (h.signed s).ensure_ok .entry rfl (.inl ⟨rfl, rfl⟩)
    (by show g.nodes.length + 1 < _; omega)
  replace hlen : r.1.nodes.length ≤ g.nodes.length + 1 := hlen
  obtain ⟨-, hkeeps⟩ := hsigned.ensure hr
  have hentry : r.2 = none ∨ ∃ e ∈ r.1.nodes, r.2 = some e.id ∧ e.kind = .entry := by
    cases he : r.2 with
    | none => exact .inl rfl
    | some n =>
      obtain ⟨e, hmem, rfl, hkind⟩ := hsigned.mem_ensure hr he
      exact .inr ⟨e, hmem, rfl, hkind⟩
  have hv := h.ensure_entry hr
  obtain ⟨r', hr', -, -⟩ := hv.ensure_ok .result (by rw [hsig]; rfl)
    (.inr ⟨rfl, rfl⟩) (by omega)
  have hv' := h.ensure_both hr hr'
  have hwire : r.2 = none ∨ r'.2 = none ∨ ∃ e t, r.2 = some e ∧ r'.2 = some t ∧
      ∃ g', r'.1.wire e exitName t enterName = .ok g' := by
    rcases hentry with hnone | ⟨e, he, hre, hek⟩
    · exact .inl hnone
    · cases ht : r'.2 with
      | none => exact .inr (.inl rfl)
      | some n =>
        obtain ⟨t, htmem, rfl, htk⟩ := hv.mem_ensure hr' ht
        obtain ⟨e', he', hid, hek'⟩ := (hv.ensure hr').2 e he
        refine .inr (.inr ⟨e.id, t.id, hre, rfl, ?_⟩)
        rw [← hid]
        exact hv'.wire_ok he' htmem (hek'.trans hek) htk
  rcases hwire with hnone | hnone | ⟨e, t, he, ht, g', hg'⟩
  · exact ⟨r'.1, setSignature_eq_ok.2 ⟨r, r', hr, hr', .inr ⟨.inl hnone, rfl⟩⟩⟩
  · exact ⟨r'.1, setSignature_eq_ok.2 ⟨r, r', hr, hr', .inr ⟨.inr hnone, rfl⟩⟩⟩
  · exact ⟨g', setSignature_eq_ok.2 ⟨r, r', hr, hr', .inl ⟨e, t, he, ht, hg'⟩⟩⟩

end Graph

end EffectGraph
