import EffectGraph.Proofs.Joining
import Mathlib.Data.List.Flatten

/-!
# Every edit keeps the invariant

Edits of nodes, of stored values, of kinds and of the signature. Together with the edits of
connections these are all public edits of a graph.
-/

namespace EffectGraph

variable {κ : Type}

/-- A node with other defaults. -/
def Node.mapDefaults (f : Table SlotKey Value → Table SlotKey Value) (m : Node κ) : Node κ :=
  { m with defaults := f m.defaults }

variable [HasSignature κ]

namespace Graph

variable {g : Graph κ} {stale : List NodeId} {n : NodeId}

/-! ## Nodes -/

theorem Valid.place (h : g.Valid stale) {kind : NodeKind κ} (hfree : g.node? n = none)
    (hpos : n.number ≠ 0) (hentry : kind = .entry → g.entryNode? = none)
    (hresult : kind = .result → g.resultNode? = none) : (g.place n kind).Valid stale :=
  (h.insertNode hfree hpos hentry hresult).reshape_stale

/-- What the checks before a new node establish. -/
theorem addNodeAt_eq_ok {kind : NodeKind κ} {g' : Graph κ} :
    g.addNodeAt n kind = .ok g' ↔
      n.number ≠ 0 ∧ g.node? n = none ∧ g.checkKind kind = .ok () ∧ g.place n kind = g' := by
  unfold addNodeAt
  by_cases hz : n.number = 0
  · simp [hz]
  · cases hn : g.node? n with
    | some m => simp [hz]
    | none =>
      simp only [hz, Option.isSome_none, Bool.false_eq_true, if_false, bind_eq_ok, Except.ok.injEq,
        ne_eq, not_false_eq_true, true_and]
      exact ⟨fun ⟨_, hk, he⟩ => ⟨hk, he⟩, fun ⟨hk, he⟩ => ⟨(), hk, he⟩⟩

omit [HasSignature κ] in
theorem checkKind_eq_ok {kind : NodeKind κ} (h : g.checkKind kind = .ok ()) :
    (kind = .entry → g.entryNode? = none) ∧ (kind = .result → g.resultNode? = none) := by
  cases kind with
  | action k => simp
  | entry =>
    refine ⟨fun _ => ?_, by simp⟩
    simp only [checkKind] at h
    split at h
    · simp at h
    · cases he : g.entryNode? with
      | none => rfl
      | some m => simp [he] at h
  | result =>
    refine ⟨by simp, fun _ => ?_⟩
    simp only [checkKind] at h
    split at h
    · simp at h
    · cases he : g.resultNode? with
      | none => rfl
      | some m => simp [he] at h

theorem Valid.addNodeAt (h : g.Valid stale) {kind : NodeKind κ} {g' : Graph κ}
    (ha : g.addNodeAt n kind = .ok g') : g'.Valid stale := by
  obtain ⟨hpos, hfree, hkind, rfl⟩ := addNodeAt_eq_ok.1 ha
  obtain ⟨hentry, hresult⟩ := checkKind_eq_ok hkind
  exact h.place hfree hpos hentry hresult

theorem addNode_eq_ok {kind : NodeKind κ} {r : Graph κ × NodeId} :
    g.addNode kind = .ok r ↔ g.addNodeAt g.nextNodeId kind = .ok r.1 ∧ r.2 = g.nextNodeId := by
  simp only [addNode, bind_eq_ok, Except.ok.injEq]
  constructor
  · rintro ⟨g', hg', rfl⟩
    exact ⟨hg', rfl⟩
  · rintro ⟨hg', hn⟩
    exact ⟨r.1, hg', by rw [← hn]⟩

theorem Valid.addNode (h : g.Valid stale) {kind : NodeKind κ} {r : Graph κ × NodeId}
    (ha : g.addNode kind = .ok r) : r.1.Valid stale :=
  h.addNodeAt (addNode_eq_ok.1 ha).1

omit [HasSignature κ] in
theorem setPosition_eq_ok {p : Position} {g' : Graph κ} :
    g.setPosition n p = .ok g' ↔ (∃ m, g.node? n = some m) ∧
      (g.updateNode n fun m => { m with position := p }) = g' := by
  simp only [setPosition, bind_eq_ok, getNode_eq_ok, Except.ok.injEq]
  exact ⟨fun ⟨m, hm, h⟩ => ⟨⟨m, hm⟩, h⟩, fun ⟨⟨m, hm⟩, h⟩ => ⟨m, hm, h⟩⟩

theorem Valid.setPosition (h : g.Valid stale) {p : Position} {g' : Graph κ}
    (hp : g.setPosition n p = .ok g') : g'.Valid stale := by
  obtain ⟨-, rfl⟩ := setPosition_eq_ok.1 hp
  refine h.updateNode_shaped (fun _ => rfl) (fun _ => rfl) (fun _ => rfl) (fun _ => rfl)
    (fun _ _ _ hi => hi) fun m hm _ => ?_
  have hs := h.stored m hm
  exact ⟨hs.below, hs.held, hs.consts, hs.defaults⟩

/-! ## Removal -/

/-- The nodes without one of them. -/
def without (g : Graph κ) (n : NodeId) : Graph κ :=
  { g with nodes := g.nodes.filter fun m => m.id ≠ n }

theorem removeNode_eq_ok {r : Graph κ × Node κ} :
    g.removeNode n = .ok r ↔ ∃ m, g.node? n = some m ∧
      (g.cut (touchesNode m) [n]).1.node? n = some r.2 ∧
      (g.cut (touchesNode m) [n]).1.without n = r.1 := by
  simp only [removeNode, bind_eq_ok, isolateNode_eq_ok, getNode_eq_ok, Except.ok.injEq]
  constructor
  · rintro ⟨_, ⟨m, hm, rfl⟩, k, hk, rfl⟩
    exact ⟨m, hm, hk, rfl⟩
  · rintro ⟨m, hm, hk, hr⟩
    exact ⟨_, ⟨m, hm, rfl⟩, r.2, hk, Prod.ext hr rfl⟩

/-- No connection of a node is left once its connections are cut. -/
theorem Valid.not_touches_cut (h : g.Valid stale) {m : Node κ} (hm : g.node? n = some m)
    (except : List NodeId) {c : Connection} (hc : c ∈ (g.cut (touchesNode m) except).1.connections)
    {q : PlacedPort} (hq : q ∈ (g.cut (touchesNode m) except).1.allPorts) (hn : q.node = n) :
    c.touches q.port.index = false := by
  have hsever := h.wellFormed.sever (touchesNode m)
  have hframe : (g.sever (touchesNode m)).Reshapes (g.cut (touchesNode m) except).1 :=
    reshapes_refresh hsever _
  have hcs := hframe.connections.subset hc
  obtain ⟨s, d, hj⟩ := hsever.joined c hcs
  by_contra ht
  have hends : q.port.index = s.port.index ∨ q.port.index = d.port.index := by
    simp only [Connection.touches, Bool.not_eq_false, Bool.or_eq_true, decide_eq_true_eq] at ht
    rw [hj.source_index, hj.destination_index]
    exact ht.imp Eq.symm Eq.symm
  -- The connection was there before the refresh, so its ends have old numbers.
  have hused : q.port.index < (g.sever (touchesNode m)).nextPort := by
    rcases hends with he | he <;> rw [he]
    · exact hsever.used s hj.source_mem
    · exact hsever.used d hj.destination_mem
  -- The port is an old one of the node, and the cut dropped all connections of those.
  have hold := (hframe.ports q hq).resolve_right (Nat.not_le.2 hused)
  obtain ⟨k, hk, hqk⟩ := mem_allPorts.1 hold
  obtain ⟨hid, hp⟩ := mem_placedPorts.1 hqk
  obtain ⟨hmem, hmn⟩ := node?_mem hm
  obtain rfl := h.ascending.id_inj hk hmem (hid.symm.trans (hn.trans hmn.symm))
  have hport : q.port ∈ k.ports := List.mem_append.2 (hp.imp And.right And.right)
  have : touchesNode k c = true := List.any_eq_true.2 ⟨q.port, hport, by simpa using ht⟩
  simp [Graph.sever, this] at hcs

omit [HasSignature κ] in
theorem mem_allPorts_without {q : PlacedPort} :
    q ∈ (g.without n).allPorts ↔ q ∈ g.allPorts ∧ q.node ≠ n := by
  simp only [mem_allPorts, without, List.mem_filter, decide_eq_true_eq]
  constructor
  · rintro ⟨k, ⟨hk, hkn⟩, hq⟩
    exact ⟨⟨k, hk, hq⟩, (mem_placedPorts.1 hq).1 ▸ hkn⟩
  · rintro ⟨⟨k, hk, hq⟩, hn⟩
    exact ⟨k, ⟨hk, (mem_placedPorts.1 hq).1 ▸ hn⟩, hq⟩

/-- A node without connections may be taken out. -/
theorem Valid.without (h : g.Valid stale)
    (hfree : ∀ c ∈ g.connections, ∀ q ∈ g.allPorts, q.node = n → c.touches q.port.index = false) :
    (g.without n).Valid stale := by
  have hsub : ∀ k ∈ (g.without n).nodes, k ∈ g.nodes := fun k hk => (List.mem_filter.1 hk).1
  have hports : ∀ q ∈ (g.without n).allPorts, q ∈ g.allPorts := fun q hq =>
    (mem_allPorts_without.1 hq).1
  have hnodes : (g.without n).nodes.Sublist g.nodes := List.filter_sublist
  have hall : (g.without n).allPorts.Sublist g.allPorts := hnodes.flatMap _
  refine ⟨⟨h.ascending.sublist hnodes, h.wellFormed.distinct.sublist (hall.map _),
    fun q hq => h.wellFormed.used q (hports q hq), fun c hc => ?_, h.wellFormed.single⟩,
    fun q hq => h.slots q (hports q hq), fun k hk => h.stored k (hsub k hk),
    fun k hk => h.positive k (hsub k hk), fun k hk hs => ?_,
    fun a ha b hb => h.loneEntry a (hsub a ha) b (hsub b hb),
    fun a ha b hb => h.loneResult a (hsub a ha) b (hsub b hb)⟩
  · obtain ⟨s, d, hj⟩ := h.wellFormed.joined c hc
    refine ⟨s, d, { hj with source_mem := ?_, destination_mem := ?_ }⟩
    · refine mem_allPorts_without.2 ⟨hj.source_mem, fun hn => ?_⟩
      have := hfree c hc s hj.source_mem hn
      simp [Connection.touches, hj.source_index] at this
    · refine mem_allPorts_without.2 ⟨hj.destination_mem, fun hn => ?_⟩
      have := hfree c hc d hj.destination_mem hn
      simp [Connection.touches, hj.destination_index] at this
  · exact (h.shaped k (hsub k hk) hs).of_signature rfl

theorem Valid.removeNode (h : g.Valid stale) {r : Graph κ × Node κ}
    (hr : g.removeNode n = .ok r) : r.1.Valid stale := by
  obtain ⟨m, hm, -, hr⟩ := removeNode_eq_ok.1 hr
  rw [← hr]
  exact (h.cut _ _).without fun c hc q hq hn => h.not_touches_cut hm _ hc hq hn

/-! ## Stored values -/

theorem setConst_eq_ok {name : String} {v : Value} {g' : Graph κ} :
    g.setConst n name v = .ok g' ↔ (∃ m, g.node? n = some m ∧
        ∃ k, m.kind = .action k ∧ ((HasSignature.signature k).const? name).isSome = true) ∧
      (g.updateNode n fun m => { m with consts := m.consts.insert name v }) = g' := by
  have hany : ∀ m : Node κ, (m.signature?.any fun s => (s.const? name).isSome) = true ↔
      ∃ k, m.kind = .action k ∧ ((HasSignature.signature k).const? name).isSome = true := by
    intro m
    cases hk : m.kind <;> simp [Node.signature?, hk, NodeKind.action?]
  simp only [setConst, bind_eq_ok, getNode_eq_ok]
  constructor
  · rintro ⟨m, hm, h⟩
    by_cases hc : (m.signature?.any fun s => (s.const? name).isSome) = true
    · rw [if_pos hc] at h
      exact ⟨⟨m, hm, (hany m).1 hc⟩, Except.ok.inj h⟩
    · rw [if_neg hc] at h
      exact absurd h (by simp)
  · rintro ⟨⟨m, hm, hc⟩, rfl⟩
    exact ⟨m, hm, if_pos ((hany m).2 hc)⟩

theorem Valid.setConst (h : g.Valid stale) {name : String} {v : Value} {g' : Graph κ}
    (hs : g.setConst n name v = .ok g') : g'.Valid stale := by
  obtain ⟨⟨m, hm, k, hk, hc⟩, rfl⟩ := setConst_eq_ok.1 hs
  refine h.updateNode_shaped (fun _ => rfl) (fun _ => rfl) (fun _ => rfl) (fun _ => rfl)
    (fun _ _ _ hi => hi) fun m' hm' hid => ?_
  obtain ⟨hmem, hmn⟩ := node?_mem hm
  obtain rfl := h.ascending.id_inj hm' hmem (hid.trans hmn.symm)
  have hst := h.stored m' hm'
  refine ⟨hst.below, hst.held, fun k' hk' j hj => ?_, hst.defaults⟩
  rcases Table.mem_keys_insert.1 hj with rfl | hj
  · obtain rfl : k = k' := by simpa [hk] using hk'
    exact hc
  · exact hst.consts k' hk' j hj

/-- What the check of a slot key establishes. -/
theorem checkSlot_eq_ok {k : SlotKey} {b : Bool} :
    g.checkSlot n k = .ok b ↔ ∃ m d, g.node? n = some m ∧ g.slotDecl? m k.name = some d ∧
      d.isVariadic = k.index.isSome ∧ b = k.index.isSome ∧
      ∀ i, k.index = some i → i < slotLimit := by
  simp only [checkSlot, bind_eq_ok, getNode_eq_ok]
  constructor
  · rintro ⟨m, hm, h⟩
    split at h
    · simp at h
    next d hd =>
      refine ⟨m, d, hm, hd, ?_⟩
      split at h
      · simp at h
      next hv =>
        refine ⟨by simpa using hv, ?_⟩
        split at h
        next hk => simp_all
        next i hk =>
          split at h
          next hi =>
            simp only [Except.ok.injEq] at h
            exact ⟨by simp [hk, ← h], fun j hj => by simp_all⟩
          next => simp at h
  · rintro ⟨m, d, hm, hd, hv, rfl, hlimit⟩
    refine ⟨m, hm, ?_⟩
    simp only [hd, hv, ne_eq, not_true_eq_false, if_false]
    cases hk : k.index with
    | none => rfl
    | some i => simp [hlimit i hk]

/-- The slot of a default is declared by the kind of its node. -/
theorem declaresSlot_of_slotDecl? {m : Node κ} {k : SlotKey} {d : PortDecl} {a : κ}
    (hd : g.slotDecl? m k.name = some d) (hv : d.isVariadic = k.index.isSome)
    (ha : m.kind = .action a) : declaresSlot (HasSignature.signature a) k = true := by
  simp only [slotDecl?, ha] at hd
  simp [declaresSlot, hd, hv]

theorem setDefault_eq_ok {k : SlotKey} {v : Value} {g' : Graph κ} :
    g.setDefault n k v = .ok g' ↔ g.checkSlot n k = .ok k.index.isSome ∧
      (g.updateNode n (.mapDefaults (·.insert k v))).reshapeIf n
        k.index.isSome = g' := by
  simp only [setDefault, bind_eq_ok, Except.ok.injEq]
  constructor
  · rintro ⟨b, hb, rfl⟩
    obtain ⟨_, _, -, -, -, rfl, -⟩ := checkSlot_eq_ok.1 hb
    exact ⟨hb, rfl⟩
  · rintro ⟨hb, rfl⟩
    exact ⟨_, hb, rfl⟩

theorem clearDefault_eq_ok {k : SlotKey} {r : Graph κ × Option Value} :
    g.clearDefault n k = .ok r ↔ g.checkSlot n k = .ok k.index.isSome ∧ ∃ m, g.node? n = some m ∧
      ((g.updateNode n (.mapDefaults (·.erase k))).reshapeIf n
        k.index.isSome, m.defaults.get? k) = r := by
  simp only [clearDefault, bind_eq_ok, getNode_eq_ok, Except.ok.injEq]
  constructor
  · rintro ⟨b, hb, m, hm, rfl⟩
    obtain ⟨_, _, -, -, -, rfl, -⟩ := checkSlot_eq_ok.1 hb
    exact ⟨hb, m, hm, rfl⟩
  · rintro ⟨hb, m, hm, rfl⟩
    exact ⟨_, hb, m, hm, rfl⟩

/-- A default of a group's slot changes the shape of its node, which is reshaped; the default of a
single input does not. -/
theorem Valid.updateDefaults (h : g.Valid stale) (k : SlotKey)
    {f : Table SlotKey Value → Table SlotKey Value}
    (hkeys : ∀ t, ∀ j ∈ (f t).keys, j = k ∨ j ∈ t.keys)
    (hstored : ∀ m ∈ g.nodes, m.id = n → (m.mapDefaults f).Stored) :
    ((g.updateNode n (.mapDefaults f)).reshapeIf n k.index.isSome).Valid stale := by
  unfold reshapeIf
  cases hk : k.index with
  | none =>
    simp only [Option.isSome_none, Bool.false_eq_true, if_false]
    refine h.updateNode_shaped (fun _ => rfl) (fun _ => rfl) (fun _ => rfl) (fun _ => rfl) ?_
      hstored
    rintro m group i (hi | hi)
    · rcases hkeys _ _ hi with he | hi
      · simp [← he] at hk
      · exact .inl hi
    · exact .inr hi
  | some i =>
    simp only [Option.isSome_some, if_true]
    exact (h.updateNode (f := .mapDefaults f) (fun _ => rfl) (fun _ => rfl) (fun _ => rfl)
      (fun _ => .inl rfl) hstored).reshape_stale

theorem Valid.stored_insertDefault (h : g.Valid stale) {k : SlotKey} (v : Value)
    (hcheck : g.checkSlot n k = .ok k.index.isSome) {m' : Node κ} (hm' : m' ∈ g.nodes)
    (hid : m'.id = n) : (m'.mapDefaults (·.insert k v)).Stored := by
  obtain ⟨m, d, hm, hd, hv, -, hlimit⟩ := checkSlot_eq_ok.1 hcheck
  obtain ⟨hmem, hmn⟩ := node?_mem hm
  obtain rfl := h.ascending.id_inj hm' hmem (hid.trans hmn.symm)
  have hst := h.stored m' hm'
  refine ⟨fun j hj => ?_, hst.held, hst.consts, fun a ha j hj => ?_⟩
  · rcases Table.mem_keys_insert.1 hj with rfl | hj
    · exact hlimit
    · exact hst.below j hj
  · rcases Table.mem_keys_insert.1 hj with rfl | hj
    · exact declaresSlot_of_slotDecl? hd hv ha
    · exact hst.defaults a ha j hj

theorem Valid.stored_eraseDefault (h : g.Valid stale) (k : SlotKey) {m : Node κ}
    (hm : m ∈ g.nodes) : (m.mapDefaults (·.erase k)).Stored := by
  have hst := h.stored m hm
  exact ⟨fun j hj => hst.below j (Table.mem_keys_erase.1 hj).2, hst.held, hst.consts,
    fun a ha j hj => hst.defaults a ha j (Table.mem_keys_erase.1 hj).2⟩

theorem Valid.setDefault (h : g.Valid stale) {k : SlotKey} {v : Value} {g' : Graph κ}
    (hs : g.setDefault n k v = .ok g') : g'.Valid stale := by
  obtain ⟨hcheck, rfl⟩ := setDefault_eq_ok.1 hs
  exact h.updateDefaults k (f := (·.insert k v)) (fun _ _ hj => Table.mem_keys_insert.1 hj)
    fun m hm hid => h.stored_insertDefault v hcheck hm hid

theorem Valid.clearDefault (h : g.Valid stale) {k : SlotKey} {r : Graph κ × Option Value}
    (hc : g.clearDefault n k = .ok r) : r.1.Valid stale := by
  obtain ⟨-, m, -, rfl⟩ := clearDefault_eq_ok.1 hc
  exact h.updateDefaults k (f := (·.erase k))
    (fun _ _ hj => .inr (Table.mem_keys_erase.1 hj).2) fun m hm _ => h.stored_eraseDefault k hm

end Graph

end EffectGraph
