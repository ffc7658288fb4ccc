import EffectGraph.Proofs.Kinds

/-!
# The width of variadic groups

A node is settled (`Settled`) if each of its groups of values has as many slots as the slots in use
ask for. Edits of connections and stored values unsettle some nodes and reshape those; `Steady`
keeps the list of the nodes that are still to be reshaped. A reshape takes its node off the list and
unsettles no other, except for Entry, whose reshape may cost connections: then the nodes at their
destinations come onto the list and are reshaped in turn.
-/

namespace EffectGraph

/-- The inputs have different names. -/
def Signature.Distinct (s : Signature) : Prop := (s.inputs.map (·.name)).Nodup

variable {κ : Type}

/-- How many slots a node shows of a group. -/
def Node.width (m : Node κ) (group : String) : Nat :=
  m.inputs.countP fun p => p.decl.name = group && p.slot.isSome

variable [HasSignature κ]

/-- The kind of the node declares a variadic group of values. -/
def Node.DeclaresGroup (m : Node κ) (d : PortDecl) : Prop :=
  ∃ k, m.kind = .action k ∧ d ∈ (HasSignature.signature k).inputs ∧ d.isVariadic = true ∧
    d.isControl = false

/-- The kind of the node declares a variadic group, of values or of controls. -/
def Node.HasGroup (m : Node κ) (d : PortDecl) : Prop :=
  ∃ k, m.kind = .action k ∧ d ∈ (HasSignature.signature k).inputs ∧ d.isVariadic = true

theorem Node.DeclaresGroup.hasGroup {m : Node κ} {d : PortDecl} (h : m.DeclaresGroup d) :
    m.HasGroup d :=
  let ⟨k, hk, hmem, hv, _⟩ := h
  ⟨k, hk, hmem, hv⟩

/-- The inputs that the kind of the node declares have different names. -/
def Node.Distinct (m : Node κ) : Prop :=
  ∀ k, m.kind = .action k → (HasSignature.signature k).Distinct

namespace Graph

variable {g g' : Graph κ} {m m' : Node κ} {n : NodeId}

/-- Each group of values of the node has as many slots as the slots in use ask for. -/
def Settled (g : Graph κ) (m : Node κ) : Prop :=
  ∀ d, m.DeclaresGroup d → m.width d.name = g.arity m d.name

/-- A group of the node has as many slots as the slots in use ask for. -/
def SettledAt (g : Graph κ) (m : Node κ) (d : PortDecl) : Prop :=
  m.width d.name = g.arity m d.name

/-! ## Widths and arities -/

theorem countP_slotSpecs (w : String → Nat) (group : String) (d : PortDecl) :
    (slotSpecs w d).countP (fun s => s.decl.name = group && s.slot.isSome) =
      if d.isVariadic = true ∧ d.name = group then w group else 0 := by
  unfold slotSpecs
  by_cases hv : d.isVariadic = true
  · by_cases hn : d.name = group
    · simp [hv, hn, List.countP_map, Function.comp_def]
    · simp [hv, hn, List.countP_map, Function.comp_def]
  · simp [hv, PortSpec.single]

theorem countP_flatMap_slotSpecs {w : String → Nat} {ds : List PortDecl} {d : PortDecl}
    (hnodup : (ds.map (·.name)).Nodup) (hd : d ∈ ds) (hv : d.isVariadic = true) :
    (ds.flatMap (slotSpecs w)).countP (fun s => s.decl.name = d.name && s.slot.isSome) =
      w d.name := by
  induction ds with
  | nil => simp at hd
  | cons e es ih =>
    obtain ⟨hhead, htail⟩ := List.nodup_cons.1 (List.map_cons ▸ hnodup)
    rw [List.flatMap_cons, List.countP_append, countP_slotSpecs]
    rcases List.mem_cons.1 hd with rfl | hd
    -- Names differ, so the group contributes all its slots and the rest none.
    · have hzero : (es.flatMap (slotSpecs w)).countP
          (fun s => s.decl.name = d.name && s.slot.isSome) = 0 := by
        refine List.countP_eq_zero.2 fun s hs hp => hhead ?_
        obtain ⟨e, he, hse⟩ := List.mem_flatMap.1 hs
        simp only [Bool.and_eq_true, decide_eq_true_eq, (mem_slotSpecs hse).1] at hp
        exact List.mem_map.2 ⟨e, he, hp.1⟩
      simp [hv, hzero]
    · have hne : e.name ≠ d.name := fun he => hhead (he ▸ List.mem_map_of_mem hd)
      simp [hne, ih htail hd]

/-- A node that is formed shows of each group as many slots as its shape has. -/
theorem width_of_shape {w : String → Nat} (hspecs : m.inputs.map Port.spec = g.inputShape m w)
    (hdistinct : m.Distinct) {d : PortDecl} (hd : m.HasGroup d) :
    m.width d.name = w d.name := by
  obtain ⟨k, hk, hmem, hv⟩ := hd
  have hcount : m.width d.name = (m.inputs.map Port.spec).countP
      (fun s => s.decl.name = d.name && s.slot.isSome) := by
    rw [List.countP_map]
    rfl
  rw [hcount, hspecs, inputShape, hk, List.countP_cons,
    countP_flatMap_slotSpecs (hdistinct k hk) hmem hv]
  simp [PortSpec.control, PortSpec.single]

omit [HasSignature κ] in
theorem arityOf_congr {u v : List Nat} (h : ∀ i, i ∈ u ↔ i ∈ v) : arityOf u = arityOf v := by
  have hmax : u.max? = v.max? := by
    cases hu : u.max? with
    | none =>
      obtain rfl := List.max?_eq_none_iff.1 hu
      exact (List.max?_eq_none_iff.2 (List.eq_nil_iff_forall_not_mem.2 fun i hi =>
        List.not_mem_nil ((h i).2 hi))).symm
    | some a =>
      obtain ⟨ha, hle⟩ := List.max?_eq_some_iff.1 hu
      exact (List.max?_eq_some_iff.2 ⟨(h a).1 ha, fun b hb => hle b ((h b).2 hb)⟩).symm
  simp only [arityOf, hmax]

omit [HasSignature κ] in
/-- A group stays settled if the node keeps its ports and what it stores, and the slots of the group
are connected as before. -/
theorem SettledAt.of_wired {d : PortDecl} (h : g.SettledAt m d) (hinputs : m'.inputs = m.inputs)
    (hreserves : ∀ group i, m'.Reserves group i ↔ m.Reserves group i)
    (hwired : ∀ p ∈ m.inputs, p.decl.name = d.name → p.slot.isSome = true →
      (g'.isWired p.index = true ↔ g.isWired p.index = true)) : g'.SettledAt m' d := by
  have hwidth : m'.width d.name = m.width d.name := by rw [Node.width, Node.width, hinputs]
  have hsettled : m.width d.name = g.arity m d.name := h
  rw [SettledAt, hwidth, hsettled, arity, arity]
  refine arityOf_congr fun i => ?_
  rw [mem_usedSlots, mem_usedSlots, hinputs, hreserves]
  refine or_congr_left (exists_congr fun p => and_congr_right fun hp => ?_)
  refine and_congr_right fun hname => and_congr_right fun hslot => ?_
  exact (hwired p hp hname (by simp [hslot])).symm

/-- A slot of a group has the declaration of the group. -/
theorem Formed.decl_of_slot (h : g.Formed m) (hdistinct : m.Distinct) {d : PortDecl}
    (hd : m.HasGroup d) {p : Port} (hp : p ∈ m.inputs) (hname : p.decl.name = d.name)
    (hslot : p.slot.isSome = true) : p.decl = d := by
  obtain ⟨w, hw⟩ := h.inputs
  obtain ⟨k, hk, hmem, -⟩ := hd
  obtain ⟨i, hi⟩ := Option.isSome_iff_exists.1 hslot
  have hspec : p.spec ∈ g.inputShape m w := hw ▸ List.mem_map_of_mem hp
  obtain ⟨-, k', hk', hdecl, -⟩ := mem_inputShape hspec hi
  obtain rfl : k = k' := by simpa [hk] using hk'
  exact List.inj_on_of_nodup_map (hdistinct k hk) hdecl hmem hname

/-- A node that keeps its ports and what it stores stays settled if the slots of its groups are
connected as before. -/
theorem Settled.of_wired (h : g.Settled m) (hkind : m'.kind = m.kind)
    (hinputs : m'.inputs = m.inputs)
    (hreserves : ∀ group i, m'.Reserves group i ↔ m.Reserves group i)
    (hwired : ∀ d, m.DeclaresGroup d → ∀ p ∈ m.inputs, p.decl.name = d.name →
      p.slot.isSome = true → (g'.isWired p.index = true ↔ g.isWired p.index = true)) :
    g'.Settled m' := by
  intro d hd
  have hdm : m.DeclaresGroup d := by
    obtain ⟨k, hk, hrest⟩ := hd
    exact ⟨k, hkind ▸ hk, hrest⟩
  have hsettled : g.SettledAt m d := h d hdm
  exact hsettled.of_wired hinputs hreserves (hwired d hdm)

/-- Whether a node is settled depends on the graph through its connections alone. -/
theorem Settled.of_connections (h : g.Settled m) (hc : g'.connections = g.connections) :
    g'.Settled m := by
  refine h.of_wired rfl rfl (fun _ _ => Iff.rfl) fun _ _ p _ _ _ => ?_
  rw [isWired, isWired, hc]

omit [HasSignature κ] in
/-- A port stays connected if no connection is dropped that ends at it. -/
theorem isWired_iff_of_filter {p : Connection → Bool} {i : Nat}
    (hc : g'.connections = g.connections.filter fun c => !p c)
    (hp : ∀ c ∈ g.connections, c.touches i = true → p c = false) :
    g'.isWired i = true ↔ g.isWired i = true := by
  simp only [isWired, hc, List.any_eq_true, List.mem_filter]
  constructor
  · rintro ⟨c, ⟨hmem, -⟩, ht⟩
    exact ⟨c, hmem, ht⟩
  · rintro ⟨c, hmem, ht⟩
    exact ⟨c, ⟨hmem, by simp [hp c hmem ht]⟩, ht⟩

theorem hasVariadic_of_hasGroup {d : PortDecl} (hd : m.HasGroup d) : m.hasVariadic = true := by
  obtain ⟨k, hk, hmem, hv⟩ := hd
  simp only [Node.hasVariadic, Node.signature?, hk, NodeKind.action?, Option.map_some,
    Option.any_some, List.any_eq_true]
  exact ⟨d, hmem, hv⟩

theorem hasVariadic_of_declaresGroup {d : PortDecl} (hd : m.DeclaresGroup d) :
    m.hasVariadic = true := hasVariadic_of_hasGroup hd.hasGroup

/-- A value connection that leads to a node with a group may resize it. -/
theorem WellFormed.resizedBy?_eq (hwf : g.WellFormed) (hm : m ∈ g.nodes)
    (hv : m.hasVariadic = true) {p : Port} (hp : p ∈ m.inputs) {c : Connection}
    (hkind : c.kind = .value) (hdest : c.destination = p.index) : g.resizedBy? c = some m.id := by
  have hport : g.portAt? c.destination = some ⟨m.id, .input, p⟩ :=
    hwf.portAt?_eq_some_iff.2 ⟨input_mem_allPorts hm hp, hdest.symm⟩
  simp [resizedBy?, hkind, hport, node?_of_mem hwf.ascending hm, hv]

omit [HasSignature κ] in
/-- A connection that ends at an input of a node leads to it. -/
theorem WellFormed.destination_of_touches (hwf : g.WellFormed) (hm : m ∈ g.nodes) {p : Port}
    (hp : p ∈ m.inputs) {c : Connection} {s t : PlacedPort} (hj : g.Joins c s t)
    (ht : c.touches p.index = true) : t = ⟨m.id, .input, p⟩ := by
  have hplaced := input_mem_allPorts hm hp
  simp only [Connection.touches, Bool.or_eq_true, decide_eq_true_eq] at ht
  rcases ht with ht | ht
  · have hs := hwf.port_inj hj.source_mem hplaced (hj.source_index.trans ht)
    have := hj.source_output
    simp [hs] at this
  · exact hwf.port_inj hj.destination_mem hplaced (hj.destination_index.trans ht)

/-- A connection that ends at a slot of a group of a formed node carries a value to it. -/
theorem WellFormed.value_of_touches (hwf : g.WellFormed) (hm : m ∈ g.nodes)
    (hformed : g.Formed m) (hdistinct : m.Distinct) {d : PortDecl} (hd : m.DeclaresGroup d)
    {p : Port} (hp : p ∈ m.inputs) (hname : p.decl.name = d.name) (hslot : p.slot.isSome = true)
    {c : Connection} (hc : c ∈ g.connections) (ht : c.touches p.index = true) :
    c.kind = .value ∧ c.destination = p.index := by
  obtain ⟨s, t, hj⟩ := hwf.joined c hc
  obtain rfl := hwf.destination_of_touches hm hp hj ht
  refine ⟨?_, hj.destination_index.symm⟩
  have hdecl := hformed.decl_of_slot hdistinct hd.hasGroup hp hname hslot
  obtain ⟨-, -, -, -, hvalue⟩ := hd
  cases hck : c.kind with
  | value => rfl
  | control =>
    have := hj.destination_control.2 hck
    simp [hdecl, hvalue] at this

/-! ## Reshapes -/

/-- A reshape reports the other nodes with a group that it has cost a value. -/
theorem WellFormed.not_loses {m₀ : Node κ} (hwf : (g.reshapeOne n).1.WellFormed)
    (hn : g.node? n = some m₀) (hm : m ∈ (g.reshapeOne n).1.nodes) (hne : m.id ≠ n)
    (hv : m.hasVariadic = true) (hnot : m.id ∉ (g.reshapeOne n).2) {p : Port} (hp : p ∈ m.inputs)
    {c : Connection} (hc : c ∈ g.connections) (hkind : c.kind = .value)
    (hdest : c.destination = p.index) : g.loses m₀ c = false := by
  have hres := hwf.resizedBy?_eq hm hv hp hkind hdest
  cases hl : g.loses m₀ c with
  | false => rfl
  | true => exact absurd ((mem_reshapeOne_snd hn).2 ⟨hne, c, hc, hl, hres⟩) hnot

/-- A reshape leaves the slots in use of a group as they are if the node has kept the connected
slots of its name, with their connections. -/
theorem WellFormed.arity_shapedNode (hwf : g.WellFormed) (hm : g.node? n = some m) {group : String}
    (hkept : ∀ p ∈ m.inputs, p.decl.name = group → p.slot.isSome = true →
      g.isWired p.index = true →
        p ∈ (g.shapedNode m).inputs ∧ (g.reshapeOne n).1.isWired p.index = true) :
    (g.reshapeOne n).1.arity (g.shapedNode m) group = g.arity m group := by
  refine (arityOf_congr fun i => ?_).symm
  rw [mem_usedSlots, mem_usedSlots]
  refine or_congr_left ⟨?_, ?_⟩
  · rintro ⟨p, hp, hname, hslot, hwired⟩
    obtain ⟨hp', hwired'⟩ := hkept p hp hname (by simp [hslot]) hwired
    exact ⟨p, hp', hname, hslot, hwired'⟩
  -- A connected slot is not new, since connections end at numbers that are in use.
  · rintro ⟨p, hp, hname, hslot, hwired⟩
    have hwired : g.isWired p.index = true := by
      rw [isWired, reshapeOne_connections hm] at hwired
      obtain ⟨c, hc, ht⟩ := List.any_eq_true.1 hwired
      exact List.any_eq_true.2 ⟨c, (List.mem_filter.1 hc).1, ht⟩
    refine ⟨p, (mem_of_mem_reusePorts hp).resolve_right fun hnew => ?_, hname, hslot, hwired⟩
    obtain ⟨q, hq, hqi⟩ := hwf.mem_of_isWired hwired
    have := hwf.used q hq
    omega

/-- A reshape that costs no connection drops no connected input. -/
theorem Keeps.kept (hkeeps : g.Keeps n) (hm : g.node? n = some m) {p : Port} (hp : p ∈ m.inputs)
    (hwired : g.isWired p.index = true) :
    p ∈ (g.shapedNode m).inputs ∧ (g.reshapeOne n).1.isWired p.index = true := by
  refine ⟨(mem_reusePorts_of_mem_old _ _ hp).resolve_right fun hdropped => ?_, ?_⟩
  · obtain ⟨c, hc, ht⟩ := List.any_eq_true.1 hwired
    have hloses : g.loses m c = true :=
      List.any_eq_true.2 ⟨p, List.mem_append_left _ hdropped, ht⟩
    rw [hkeeps m hm c hc] at hloses
    exact Bool.noConfusion hloses
  · rwa [isWired, hkeeps.connections_reshapeOne]

/-- After a reshape a group is settled if the node has kept the connected slots of its name, with
their connections. -/
theorem Valid.settledAt_shapedNode {stale : List NodeId} (hv : g.Valid stale)
    (hm : g.node? n = some m) (hdistinct : m.Distinct) {d : PortDecl} (hd : m.HasGroup d)
    (hkept : ∀ p ∈ m.inputs, p.decl.name = d.name → p.slot.isSome = true →
      g.isWired p.index = true →
        p ∈ (g.shapedNode m).inputs ∧ (g.reshapeOne n).1.isWired p.index = true) :
    (g.reshapeOne n).1.SettledAt (g.shapedNode m) d := by
  have hspecs : (g.shapedNode m).inputs.map Port.spec =
      (g.reshapeOne n).1.inputShape (g.shapedNode m) (g.arity m) := by
    refine (reusePorts_specs (g.wantedInputs m) m.inputs g.nextPort).trans ?_
    rw [wantedInputs_eq]
    simp only [inputShape, shapedNode_kind, reshapeOne_signature]
  rw [SettledAt, width_of_shape hspecs hdistinct hd, hv.wellFormed.arity_shapedNode hm hkept]

/-- After a reshape that costs no connection every group is settled. -/
theorem Valid.settledAt_of_keeps {stale : List NodeId} (hv : g.Valid stale)
    (hm : g.node? n = some m) (hkeeps : g.Keeps n) (hdistinct : m.Distinct) {d : PortDecl}
    (hd : m.HasGroup d) : (g.reshapeOne n).1.SettledAt (g.shapedNode m) d :=
  hv.settledAt_shapedNode hm hdistinct hd fun _ hp _ _ hwired => hkeeps.kept hm hp hwired

/-- What reshapes keep where groups are concerned: the graph is valid but for some nodes that are
out of shape, names of inputs differ, and the groups that pass a test are settled, except on nodes
that are still to be reshaped. -/
structure Fitted (ok : NodeId → PortDecl → Prop) (unshaped stale : List NodeId) (g : Graph κ) :
    Prop where
  valid : g.Valid unshaped
  distinct : ∀ m ∈ g.nodes, m.Distinct
  settled : ∀ m ∈ g.nodes, m.id ∉ stale → ∀ d, m.HasGroup d → ok m.id d → g.SettledAt m d

section Fitted

variable {ok : NodeId → PortDecl → Prop} {unshaped stale : List NodeId}

theorem Fitted.mono {unshaped' stale' : List NodeId} (h : g.Fitted ok unshaped stale)
    (hu : ∀ k ∈ unshaped, k ∈ unshaped') (hs : ∀ k ∈ stale, k ∈ stale') :
    g.Fitted ok unshaped' stale' :=
  ⟨h.valid.mono hu, h.distinct, fun m hm hnot => h.settled m hm fun hk => hnot (hs _ hk)⟩

/-- A reshape that costs no connection takes its node off both lists. -/
theorem Fitted.reshapeOne (h : g.Fitted ok unshaped (n :: stale)) (hkeeps : g.Keeps n) :
    (g.reshapeOne n).1.Fitted ok (unshaped.filter (· ≠ n)) stale := by
  cases hm : g.node? n with
  | none =>
    have hv := h.valid.reshapeOne n
    rw [reshapeOne_of_none hm] at hv ⊢
    refine ⟨hv, h.distinct, fun k hk hnot => h.settled k hk ?_⟩
    simp [node?_eq_none_iff.1 hm k hk, hnot]
  | some m =>
    have hnodes := fun k => mem_nodes_reshapeOne h.valid.ascending hm (k := k)
    have hmem := (node?_mem hm).1
    refine ⟨h.valid.reshapeOne n, fun k hk => ?_, fun k hk hnot d hd hok => ?_⟩
    · rcases (hnodes k).1 hk with ⟨hk, -⟩ | rfl
      · exact h.distinct k hk
      · exact h.distinct m hmem
    · rcases (hnodes k).1 hk with ⟨hk, hkn⟩ | rfl
      · refine (h.settled k hk (by simp [hkn, hnot]) d hd hok).of_wired rfl (fun _ _ => Iff.rfl)
          fun p _ _ _ => ?_
        rw [isWired, isWired, hkeeps.connections_reshapeOne]
      · exact h.valid.settledAt_of_keeps hm hkeeps (h.distinct m hmem) hd

omit [HasSignature κ] in
/-- Steps that take one node off a list each take all of them off in turn. -/
theorem foldl_settles {P : List NodeId → Graph κ → Prop} {f : Graph κ → NodeId → Graph κ}
    {ns : List NodeId} (step : ∀ g, ∀ k ∈ ns, ∀ rest, P (k :: rest) g → P rest (f g k))
    {g : Graph κ} (h : P (ns ++ stale) g) : P stale (ns.foldl f g) := by
  induction ns generalizing g with
  | nil => exact h
  | cons k ks ih =>
    exact ih (fun g j hj => step g j (.tail _ hj))
      (step g k List.mem_cons_self _ h)

/-- Nodes of which none is out of shape may be reshaped one after another; no reshape spreads. -/
theorem Fitted.reshapeNested {ns : List NodeId} (hns : ∀ k ∈ ns, k ∉ unshaped) (depth : Nat)
    (h : g.Fitted ok unshaped (ns ++ stale)) :
    (reshapeNested depth g ns).Fitted ok unshaped stale := by
  have step : ∀ g : Graph κ, ∀ k ∈ ns, ∀ rest, g.Fitted ok unshaped (k :: rest) →
      g.Keeps k ∧ (g.reshapeOne k).1.Fitted ok unshaped rest := by
    intro g k hk rest hg
    have hkeeps := hg.valid.keeps (hns k hk)
    exact ⟨hkeeps, (hg.reshapeOne hkeeps).mono (by simp +contextual) fun _ hj => hj⟩
  cases depth with
  | zero =>
    exact foldl_settles (P := fun st g => g.Fitted ok unshaped st)
      (fun g k hk rest hg => (step g k hk rest hg).2) h
  | succ depth =>
    refine foldl_settles (P := fun st g => g.Fitted ok unshaped st) (fun g k hk rest hg => ?_) h
    obtain ⟨hkeeps, hone⟩ := step g k hk rest hg
    rw [hkeeps.reshapeOne_snd, reshapeNested_nil]
    exact hone

end Fitted

/-- What edits keep where groups are concerned: the graph is valid but for some nodes that are out
of shape, names of inputs differ, and all nodes are settled but for some that are still to be
reshaped. -/
structure Steady (unshaped stale : List NodeId) (g : Graph κ) : Prop where
  valid : g.Valid unshaped
  distinct : ∀ m ∈ g.nodes, m.Distinct
  settled : ∀ m ∈ g.nodes, m.id ∉ stale → g.Settled m

variable {unshaped stale : List NodeId}

theorem Steady.mono {unshaped' stale' : List NodeId} (h : g.Steady unshaped stale)
    (hu : ∀ k ∈ unshaped, k ∈ unshaped') (hs : ∀ k ∈ stale, k ∈ stale') :
    g.Steady unshaped' stale' :=
  ⟨h.valid.mono hu, h.distinct, fun m hm hnot => h.settled m hm fun hk => hnot (hs _ hk)⟩

/-- All nodes are settled if their groups of values are. -/
theorem steady_iff_fitted :
    g.Steady unshaped stale ↔ g.Fitted (fun _ d => d.isControl = false) unshaped stale := by
  constructor
  · intro h
    refine ⟨h.valid, h.distinct, fun m hm hnot d hd hvalue => ?_⟩
    obtain ⟨k, hk, hmem, hv⟩ := hd
    exact h.settled m hm hnot d ⟨k, hk, hmem, hv, hvalue⟩
  · intro h
    refine ⟨h.valid, h.distinct, fun m hm hnot d hd => ?_⟩
    obtain ⟨k, hk, hmem, hv, hvalue⟩ := hd
    exact h.settled m hm hnot d ⟨k, hk, hmem, hv⟩ hvalue

/-- A reshape that costs no connection takes its node off both lists. -/
theorem Steady.reshapeOne (h : g.Steady unshaped (n :: stale)) (hkeeps : g.Keeps n) :
    (g.reshapeOne n).1.Steady (unshaped.filter (· ≠ n)) stale :=
  steady_iff_fitted.2 ((steady_iff_fitted.1 h).reshapeOne hkeeps)

theorem Steady.reshape (h : g.Steady unshaped (n :: stale)) (hkeeps : g.Keeps n) :
    (g.reshape n).Steady (unshaped.filter (· ≠ n)) stale := by
  rw [hkeeps.reshape_eq]
  exact h.reshapeOne hkeeps

/-- A refresh settles the nodes that it is given; those it passes over have no groups. -/
theorem Steady.refresh {ns : List NodeId} (h : g.Steady [] (ns ++ stale)) :
    (g.refresh ns).Steady [] stale := by
  refine foldl_settles (P := fun st g => g.Steady [] st) (fun g k _ _ hg => ?_)
    (h.mono (fun _ hk => hk) fun _ hk => ?_)
  · split
    · exact hg.reshape (hg.valid.keeps List.not_mem_nil)
    next hno =>
      refine ⟨hg.valid, hg.distinct, fun m hm hnot => ?_⟩
      by_cases hmk : m.id = k
      -- A node that is passed over has no group, so there is nothing to settle.
      · rintro d ⟨a, ha, hmem, hvariadic, -⟩
        refine absurd ?_ hno
        simp only [← hmk, node?_of_mem hg.valid.ascending hm, Option.any_some, Node.hasVariadic,
          Node.signature?, ha, NodeKind.action?, Option.map_some, List.any_eq_true]
        exact ⟨d, hmem, hvariadic⟩
      · exact hg.settled m hm (by simp [hmk, hnot])
  · simpa using hk

end Graph

end EffectGraph
