import EffectGraph.Proofs.Editing

/-!
# Signatures and kinds keep the invariant

Edits that change what ports a node is to have: a new signature of the graph, a new definition of a
kind, and slots that are held open while a graph is rebuilt. Each puts the nodes concerned on the
list of those to be reshaped and then reshapes them.
-/

namespace EffectGraph

variable {κ : Type} [HasSignature κ]

/-- A node turned to another kind, without the stored values that the kind does not declare. -/
def Node.turn (kind : κ) (m : Node κ) : Node κ :=
  { m with
    kind := .action kind
    consts := m.consts.filter fun name _ => ((HasSignature.signature kind).const? name).isSome
    defaults := m.defaults.filter fun k _ => Graph.declaresSlot (HasSignature.signature kind) k }

@[simp] theorem Node.turn_id (kind : κ) (m : Node κ) : (m.turn kind).id = m.id := rfl

namespace Graph

variable {g : Graph κ} {stale : List NodeId} {n : NodeId}

theorem valid_empty (id : Nat) (hook : ConversionHook) (s : Option Signature) :
    ({ Graph.empty id hook with signature := s } : Graph κ).Valid [] := by
  refine ⟨⟨.nil, .nil, ?_, ?_, .nil⟩, ?_, ?_, ?_, ?_, ?_, ?_⟩ <;>
    simp [Graph.empty, Graph.allPorts]

theorem Valid.clone (h : g.Valid stale) (id : Nat) : (g.clone id).Valid stale :=
  h.of_nodes (h.wellFormed.congr rfl rfl rfl rfl rfl) rfl rfl

/-! ## The pseudo-nodes -/

omit [HasSignature κ] in
theorem matches_entry (m : Node κ) : (m.kind matches .entry) = true ↔ m.kind = .entry := by
  cases m.kind <;> simp

omit [HasSignature κ] in
theorem matches_result (m : Node κ) : (m.kind matches .result) = true ↔ m.kind = .result := by
  cases m.kind <;> simp

section Search

variable {kind : NodeKind κ} {test : Node κ → Bool} (htest : ∀ m, test m = true ↔ m.kind = kind)

include htest

omit [HasSignature κ] in
/-- A search for a kind finds the node of that kind if there is one only. -/
theorem find?_kind_of_mem
    (hlone : ∀ m ∈ g.nodes, ∀ n ∈ g.nodes, m.kind = kind → n.kind = kind → m = n) {m : Node κ}
    (hm : m ∈ g.nodes) (hk : m.kind = kind) : g.nodes.find? test = some m :=
  find?_eq_of_unique hm ((htest m).2 hk) fun k hkg hkind => hlone k hkg m hm ((htest k).1 hkind) hk

omit [HasSignature κ] in
theorem mem_of_find?_kind (h : (g.nodes.find? test).map (·.id) = some n) :
    ∃ m ∈ g.nodes, m.id = n ∧ m.kind = kind := by
  obtain ⟨k, hf, rfl⟩ := Option.map_eq_some_iff.1 h
  exact ⟨k, List.mem_of_find?_eq_some hf, rfl, (htest k).1 (List.find?_some hf)⟩

end Search

theorem Valid.entryNode?_of_mem (h : g.Valid stale) {m : Node κ} (hm : m ∈ g.nodes)
    (hk : m.kind = .entry) : g.entryNode? = some m.id :=
  congrArg (Option.map Node.id) (find?_kind_of_mem matches_entry h.loneEntry hm hk)

theorem Valid.resultNode?_of_mem (h : g.Valid stale) {m : Node κ} (hm : m ∈ g.nodes)
    (hk : m.kind = .result) : g.resultNode? = some m.id :=
  congrArg (Option.map Node.id) (find?_kind_of_mem matches_result h.loneResult hm hk)

omit [HasSignature κ] in
theorem mem_of_entryNode? (h : g.entryNode? = some n) :
    ∃ m ∈ g.nodes, m.id = n ∧ m.kind = .entry := mem_of_find?_kind matches_entry h

omit [HasSignature κ] in
theorem mem_of_resultNode? (h : g.resultNode? = some n) :
    ∃ m ∈ g.nodes, m.id = n ∧ m.kind = .result := mem_of_find?_kind matches_result h

/-- A new signature leaves only Entry and Return to be reshaped. -/
theorem Valid.signed (h : g.Valid []) (s : Signature) :
    ({ g with signature := some s } : Graph κ).Valid
      (g.entryNode?.toList ++ g.resultNode?.toList) := by
  have hwf : ({ g with signature := some s } : Graph κ).WellFormed :=
    h.wellFormed.congr rfl rfl rfl rfl rfl
  refine { h with wellFormed := hwf, slots := h.slots, shaped := fun m hm hs => ?_ }
  have hshaped := h.shaped m hm List.not_mem_nil
  obtain ⟨w, hw, hbounds, hcover⟩ := hshaped.inputs
  cases hk : m.kind with
  | action k =>
    refine ⟨?_, w, ?_, hbounds, hcover⟩
    · rw [hshaped.outputs]
      simp only [wantedOutputs, hk]
    · rw [hw]
      simp only [inputShape, hk]
  | entry => simp [h.entryNode?_of_mem hm hk] at hs
  | result => simp [h.resultNode?_of_mem hm hk] at hs

/-- A graph keeps its nodes and their kinds. -/
def KeepsKinds (g g' : Graph κ) : Prop :=
  ∀ m ∈ g.nodes, ∃ k ∈ g'.nodes, k.id = m.id ∧ k.kind = m.kind

omit [HasSignature κ] in
theorem Reshapes.keepsKinds {g' : Graph κ} (h : g.Reshapes g') : g.KeepsKinds g' := by
  intro m hm
  obtain ⟨k, hk, he⟩ := h.image hm
  exact ⟨k, hk, congrArg (·.id) he, congrArg (·.kind) he⟩

/-- The placement of a node adds it and reshapes it. -/
theorem Valid.reshapes_place (h : g.Valid stale) {kind : NodeKind κ} {g' : Graph κ}
    (ha : g.addNodeAt n kind = .ok g') :
    ({ g with nodes := Graph.insertNode (.fresh n kind) g.nodes } : Graph κ).Reshapes g' := by
  obtain ⟨hpos, hfree, hkind, rfl⟩ := addNodeAt_eq_ok.1 ha
  obtain ⟨hentry, hresult⟩ := checkKind_eq_ok hkind
  exact reshapes_reshape (h.insertNode hfree hpos hentry hresult).wellFormed n

theorem Valid.keepsKinds_addNodeAt (h : g.Valid stale) {kind : NodeKind κ} {g' : Graph κ}
    (ha : g.addNodeAt n kind = .ok g') : g.KeepsKinds g' := by
  intro m hm
  exact (h.reshapes_place ha).keepsKinds m (mem_insertNode.2 (.inr hm))

theorem ensure_eq_ok {kind : NodeKind κ} {present : Option NodeId} {r : Graph κ × Option NodeId} :
    g.ensure kind present = .ok r ↔
      (∃ n, present = some n ∧ r = (g.reshape n, none)) ∨
        present = none ∧ ∃ g' n, g.addNode kind = .ok (g', n) ∧ r = (g', some n) := by
  cases present with
  | some n => simp [ensure, eq_comm]
  | none =>
    simp only [ensure, bind_eq_ok, Except.ok.injEq, Prod.exists, reduceCtorEq, false_and,
      exists_false, true_and, false_or]
    constructor
    · rintro ⟨g', n, ha, rfl⟩
      exact ⟨g', n, ha, rfl⟩
    · rintro ⟨g', n, ha, rfl⟩
      exact ⟨g', n, ha, rfl⟩

/-- A pseudo-node that is there is reshaped, and one that is made has its ports. -/
theorem Valid.ensure {present : Option NodeId} (h : g.Valid (present.toList ++ stale))
    {kind : NodeKind κ} {r : Graph κ × Option NodeId} (he : g.ensure kind present = .ok r) :
    r.1.Valid stale ∧ g.KeepsKinds r.1 := by
  rcases ensure_eq_ok.1 he with ⟨n, rfl, rfl⟩ | ⟨rfl, g', n, ha, rfl⟩
  · exact ⟨h.reshape_stale, (reshapes_reshape h.wellFormed n).keepsKinds⟩
  · obtain ⟨ha, -⟩ := addNode_eq_ok.1 ha
    have h : g.Valid stale := h
    exact ⟨h.addNodeAt ha, h.keepsKinds_addNodeAt ha⟩

theorem setSignature_eq_ok {s : Signature} {g' : Graph κ} :
    g.setSignature s = .ok g' ↔
      ∃ r r', Graph.ensure { g with signature := some s } .entry g.entryNode? = .ok r ∧
        r.1.ensure .result r.1.resultNode? = .ok r' ∧
        ((∃ e t, r.2 = some e ∧ r'.2 = some t ∧ r'.1.wire e exitName t enterName = .ok g') ∨
          (r.2 = none ∨ r'.2 = none) ∧ g' = r'.1) := by
  have hentry : Graph.entryNode? { g with signature := some s } = g.entryNode? := rfl
  simp only [setSignature, bind_eq_ok, hentry]
  refine exists_congr fun r => ?_
  constructor
  · rintro ⟨hr, r', hr', h⟩
    refine ⟨r', hr, hr', ?_⟩
    split at h
    next e t he ht => exact .inl ⟨e, t, he, ht, h⟩
    next hnone =>
      refine .inr ⟨?_, (Except.ok.inj h).symm⟩
      cases he : r.2 with
      | none => exact .inl rfl
      | some e =>
        cases ht : r'.2 with
        | none => exact .inr rfl
        | some t => exact absurd ht (hnone e t he)
  · rintro ⟨r', hr, hr', h⟩
    refine ⟨hr, r', hr', ?_⟩
    rcases h with ⟨e, t, he, ht, h⟩ | ⟨hnone, rfl⟩
    · simp only [he, ht, h]
    · rcases hnone with he | ht
      · simp only [he]
      · cases r.2 <;> simp only [ht]

/-- Once Entry has its new shape, only Return is left to be reshaped, if it is there. -/
theorem Valid.ensure_entry (h : g.Valid []) {s : Signature} {r : Graph κ × Option NodeId}
    (hr : Graph.ensure { g with signature := some s } .entry g.entryNode? = .ok r) :
    r.1.Valid (r.1.resultNode?.toList ++ []) := by
  obtain ⟨hv, hkeeps⟩ := (h.signed s).ensure hr
  rw [List.append_nil]
  -- Return is found after the first step where it was found before.
  refine hv.mono fun n hn => ?_
  obtain ⟨m, hm, rfl, hkind⟩ := mem_of_resultNode? (Option.mem_toList.1 hn)
  obtain ⟨k, hk, hid, hkk⟩ := hkeeps m hm
  rw [hv.resultNode?_of_mem hk (hkk.trans hkind), hid]
  simp

/-- After a new signature Entry and Return are reshaped first, in a graph of which nothing else is
stale. -/
theorem Valid.ensure_both (h : g.Valid []) {s : Signature} {r r' : Graph κ × Option NodeId}
    (hr : Graph.ensure { g with signature := some s } .entry g.entryNode? = .ok r)
    (hr' : r.1.ensure .result r.1.resultNode? = .ok r') : r'.1.Valid [] :=
  ((h.ensure_entry hr).ensure hr').1

theorem Valid.setSignature (h : g.Valid []) {s : Signature} {g' : Graph κ}
    (hs : g.setSignature s = .ok g') : g'.Valid [] := by
  obtain ⟨r, r', hr, hr', hwire⟩ := setSignature_eq_ok.1 hs
  have hv := h.ensure_both hr hr'
  rcases hwire with ⟨e, t, -, -, hwire⟩ | ⟨-, rfl⟩
  · exact hv.wire hwire
  · exact hv

/-- Each value connection of the graph may be made under the hook. -/
def WiredUnder (g : Graph κ) (hook : ConversionHook) : Prop :=
  ∀ c ∈ g.connections, ∀ s d, g.Joins c s d → c.kind = .value →
    ValueType.feeds hook s.port.decl.type d.port.decl.type = true

/-- A graph may be given another hook under which its connections may be made. -/
theorem Valid.rehook (h : g.Valid stale) {hook : ConversionHook} (hw : g.WiredUnder hook) :
    ({ g with hook := hook } : Graph κ).Valid stale := by
  have hwf : ({ g with hook := hook } : Graph κ).WellFormed := by
    refine ⟨h.ascending, h.wellFormed.distinct, h.wellFormed.used, fun c hc => ?_,
      h.wellFormed.single⟩
    obtain ⟨a, b, hj⟩ := h.wellFormed.joined c hc
    exact ⟨a, b, { hj with feeds := hw c hc a b hj }⟩
  exact h.of_nodes hwf rfl rfl

/-- A graph without value connections may be given another hook. -/
theorem Valid.withHook (h : g.Valid stale) (hook : ConversionHook)
    (hcontrol : ∀ c ∈ g.connections, c.kind = .control) :
    ({ g with hook := hook } : Graph κ).Valid stale :=
  h.rehook fun c hc _ _ _ hk => by simp [hcontrol c hc] at hk

/-- The output of Entry that is found under the name of its exit is the control output. -/
theorem Valid.output?_exit (h : g.Valid []) {m : Node κ} (hm : m ∈ g.nodes)
    (hk : m.kind = .entry) {a : PortId} (ha : g.output? m.id exitName = some a) {q : PlacedPort}
    (hq : g.port? a = some q) : q.port.decl.isControl = true := by
  have hspecs := (h.shaped m hm List.not_mem_nil).outputs
  simp only [wantedOutputs, hk] at hspecs
  obtain ⟨p, ps, hp, hspec, -⟩ := List.map_eq_cons_iff.1 hspecs
  have hdecl : p.decl = .control exitName := congrArg PortSpec.decl hspec
  simp only [output?, node?_of_mem h.ascending hm, Option.bind_some, hp, List.find?_cons, hdecl,
    PortDecl.control, decide_true, Option.map_some, Option.some.injEq] at ha
  subst ha
  obtain ⟨-, hat⟩ := port?_eq_some_iff.1 hq
  have hmem := output_mem_allPorts hm (hp ▸ List.mem_cons_self (a := p) (l := ps))
  obtain rfl := Option.some.inj (hat.symm.trans (h.wellFormed.portAt?_eq_some_iff.2 ⟨hmem, rfl⟩))
  simp [hdecl, PortDecl.control]

theorem Valid.connections_addNodeAt (h : g.Valid stale) {kind : NodeKind κ} {g' : Graph κ}
    (ha : g.addNodeAt n kind = .ok g') : g'.connections.Sublist g.connections :=
  (h.reshapes_place ha).connections

theorem Valid.connections_ensure {present : Option NodeId} (h : g.Valid (present.toList ++ stale))
    {kind : NodeKind κ} {r : Graph κ × Option NodeId} (he : g.ensure kind present = .ok r) :
    r.1.connections.Sublist g.connections := by
  rcases ensure_eq_ok.1 he with ⟨n, rfl, rfl⟩ | ⟨rfl, g', n, ha, rfl⟩
  · exact (reshapes_reshape h.wellFormed n).connections
  · exact h.connections_addNodeAt (addNode_eq_ok.1 ha).1

theorem Valid.mem_ensure {present : Option NodeId} (h : g.Valid (present.toList ++ stale))
    {kind : NodeKind κ} {r : Graph κ × Option NodeId} (he : g.ensure kind present = .ok r)
    (hn : r.2 = some n) : ∃ m ∈ r.1.nodes, m.id = n ∧ m.kind = kind := by
  rcases ensure_eq_ok.1 he with ⟨k, rfl, rfl⟩ | ⟨rfl, g', k, ha, rfl⟩
  · simp at hn
  · obtain rfl := Option.some.inj hn
    obtain ⟨ha, hk⟩ := addNode_eq_ok.1 ha
    rw [show k = g.nextNodeId from hk]
    exact (h.reshapes_place ha).keepsKinds _ (mem_insertNode.2 (.inl rfl))

/-- The only connection of a new inner graph is the one from Entry to Return. -/
theorem controls_withSignature {id : Nat} {hook : ConversionHook} {s : Signature}
    (h : Graph.withSignature id hook s = .ok g) : ∀ c ∈ g.connections, c.kind = .control := by
  have hempty : (Graph.empty id hook : Graph κ).Valid [] := valid_empty id hook none
  obtain ⟨r, r', hr, hr', hwire⟩ := setSignature_eq_ok.1 h
  have hv := hempty.ensure_entry hr
  have hv' := hempty.ensure_both hr hr'
  have hsigned : Valid ((Graph.empty id hook : Graph κ).entryNode?.toList ++ [])
      { (Graph.empty id hook : Graph κ) with signature := some s } := hempty.signed s
  -- There are no connections before the last one is made, since a blank graph has none.
  have hnone : r'.1.connections = [] := by
    have h₁ := hsigned.connections_ensure hr
    exact List.sublist_nil.1 ((hv.connections_ensure hr').trans h₁)
  rcases hwire with ⟨e, t, he, ht, hwire⟩ | ⟨-, rfl⟩
  · obtain ⟨a, b, ha, hb, hc⟩ := wire_eq_ok.1 hwire
    obtain ⟨j, hj, rfl⟩ := connect_eq_ok.1 hc
    obtain ⟨p, q, hp, hq, -, horient, -⟩ := checkConnection_eq_ok.1 hj
    obtain ⟨m, hm, rfl, hkind⟩ : ∃ m ∈ r'.1.nodes, m.id = e ∧ m.kind = .entry := by
      obtain ⟨m, hm, hid, hkind⟩ := hsigned.mem_ensure hr he
      obtain ⟨k, hk, hkid, hkk⟩ := (hv.ensure hr').2 m hm
      exact ⟨k, hk, hkid.trans hid, hkk.trans hkind⟩
    have hpc := hv'.output?_exit hm hkind ha hp
    obtain ⟨hends, -, -, hsc, hdc⟩ := orient?_eq_some horient
    -- Whichever end the exit of Entry is, it is a control port.
    have hjk : j.kind = .control := by
      rcases hends with ⟨hs, -⟩ | ⟨-, hd⟩
      · exact hsc.1 (hs ▸ hpc)
      · exact hdc.1 (hd ▸ hpc)
    intro c hc
    rcases join_eq r'.1 j with ⟨he, -⟩ | ⟨-, he⟩
    · simp [he, hnone] at hc
    · rw [he] at hc
      have hwf := hv'.wellFormed.linked (.of_checkConnection hj)
      have hmem := (reshapes_refresh hwf _).connections.subset hc
      obtain rfl : c = j.connection := by simpa [linked, Graph.sever, hnone] using hmem
      exact hjk
  · simp [hnone]

/-! ## New definitions of kinds -/

theorem redefineNode_eq (g : Graph κ) (kind : κ) (n : NodeId) :
    g.redefineNode kind n = (g.updateNode n (.turn kind)).reshape n := rfl

theorem Valid.turn (h : g.Valid stale) (kind : κ) (n : NodeId) :
    (g.updateNode n (.turn kind)).Valid (n :: stale) := by
  refine h.updateNode (fun _ => rfl) (fun _ => rfl) (fun _ => rfl) (fun _ => .inr ⟨kind, rfl⟩)
    fun m hm _ => ?_
  have hst := h.stored m hm
  refine ⟨fun k hk => hst.below k (Table.mem_keys_filter.1 hk).1, hst.held, ?_, ?_⟩
  · rintro k hk name hname
    obtain rfl : kind = k := by simpa [Node.turn] using hk
    exact (Table.mem_keys_filter.1 hname).2
  · rintro k hk key hkey
    obtain rfl : kind = k := by simpa [Node.turn] using hk
    exact (Table.mem_keys_filter.1 hkey).2

theorem Valid.redefineNode (h : g.Valid stale) (kind : κ) (n : NodeId) :
    (g.redefineNode kind n).Valid stale :=
  (h.turn kind n).reshape_stale

theorem Valid.redefine (h : g.Valid stale) (kind : κ) : (g.redefine kind).1.Valid stale :=
  List.foldlRecOn _ _ h fun _ hg n _ => hg.redefineNode kind n

/-! ## Holding slots open -/

/-- A node that also holds a slot of a group open. -/
def raised (group : String) (index : Nat) (m : Node κ) : Node κ :=
  { m with held := m.held.insert group (max ((m.held.get? group).getD index) index) }

theorem hold_eq_ok {group : String} {index : Nat} {g' : Graph κ} :
    g.hold n group index = .ok g' ↔ g.checkSlot n ⟨group, some index⟩ = .ok true ∧
      (g.updateNode n (raised group index)).reshape n = g' := by
  simp only [hold, bind_eq_ok, Except.ok.injEq]
  constructor
  · rintro ⟨b, hb, rfl⟩
    obtain ⟨_, _, -, -, -, rfl, -⟩ := checkSlot_eq_ok.1 hb
    exact ⟨hb, rfl⟩
  · rintro ⟨hb, rfl⟩
    exact ⟨_, hb, rfl⟩

theorem Valid.stored_raised (h : g.Valid stale) {group : String} {index : Nat}
    (hindex : index < slotLimit) {m : Node κ} (hm : m ∈ g.nodes) :
    (raised group index m).Stored := by
  have hst := h.stored m hm
  refine ⟨hst.below, fun name i hi => ?_, hst.consts, hst.defaults⟩
  simp only [raised, Table.get?_insert] at hi
  split at hi
  next =>
    obtain rfl := Option.some.inj hi
    cases hget : m.held.get? group with
    | none => simpa using hindex
    | some j =>
      have := hst.held group j hget
      simp only [Option.getD_some]
      omega
  next => exact hst.held name i hi

theorem Valid.hold (h : g.Valid stale) {group : String} {index : Nat} {g' : Graph κ}
    (hh : g.hold n group index = .ok g') : g'.Valid stale := by
  obtain ⟨hcheck, rfl⟩ := hold_eq_ok.1 hh
  obtain ⟨_, _, -, -, -, -, hlimit⟩ := checkSlot_eq_ok.1 hcheck
  exact Valid.reshape_stale (h.updateNode (fun _ => rfl) (fun _ => rfl) (fun _ => rfl)
    (fun _ => .inl rfl) fun m hm _ => h.stored_raised (hlimit index rfl) hm)

/-- The graph in which no slot is held open, before nodes are reshaped. -/
def unheld (g : Graph κ) : Graph κ :=
  { g with nodes := g.nodes.map fun n => { n with held := .empty } }

/-- The nodes that hold slots open. -/
def holding (g : Graph κ) : List NodeId := (g.nodes.filter fun n => !n.held.isEmpty).map (·.id)

omit [HasSignature κ] in
theorem mem_nodes_unheld {k : Node κ} :
    k ∈ g.unheld.nodes ↔ ∃ m ∈ g.nodes, { m with held := .empty } = k := by
  simp [unheld]

omit [HasSignature κ] in
theorem allPorts_unheld : g.unheld.allPorts = g.allPorts := by
  simp only [allPorts, unheld, List.flatMap_map]
  rfl

theorem Valid.unheld (h : g.Valid stale) : g.unheld.Valid stale := by
  have hids : g.unheld.nodeIds = g.nodeIds := by simp [nodeIds, Graph.unheld, Function.comp_def]
  refine ⟨h.wellFormed.congr hids allPorts_unheld rfl rfl rfl,
    fun q hq => h.slots q (allPorts_unheld ▸ hq), fun k hk => ?_, fun k hk => ?_,
    fun k hk hs => ?_, fun a ha b hb hka hkb => ?_, fun a ha b hb hka hkb => ?_⟩
  · obtain ⟨m, hm, rfl⟩ := mem_nodes_unheld.1 hk
    have hst := h.stored m hm
    exact ⟨hst.below, fun group i hi => by simp at hi, hst.consts, hst.defaults⟩
  · obtain ⟨m, hm, rfl⟩ := mem_nodes_unheld.1 hk
    exact h.positive m hm
  · obtain ⟨m, hm, rfl⟩ := mem_nodes_unheld.1 hk
    refine (h.shaped m hm hs).congr rfl rfl rfl rfl fun group i hi => ?_
    exact hi.imp_right fun hheld => by simp at hheld
  · obtain ⟨m, hm, rfl⟩ := mem_nodes_unheld.1 ha
    obtain ⟨n, hn, rfl⟩ := mem_nodes_unheld.1 hb
    rw [h.loneEntry m hm n hn hka hkb]
  · obtain ⟨m, hm, rfl⟩ := mem_nodes_unheld.1 ha
    obtain ⟨n, hn, rfl⟩ := mem_nodes_unheld.1 hb
    rw [h.loneResult m hm n hn hka hkb]

theorem Valid.release (h : g.Valid stale) : g.release.Valid stale :=
  List.foldlRecOn _ _ h.unheld fun _ hg n _ => (hg.reshape n).mono fun _ hk =>
    (List.mem_filter.1 hk).1

end Graph

end EffectGraph
