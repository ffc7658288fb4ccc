import EffectGraph.Proofs.Exact
import EffectGraph.Proofs.Narrowing
import EffectGraph.Proofs.Records

/-!
# What a new definition of a kind keeps

A kind is redefined by turning its nodes one after another. The turn of a node costs it the ports
that its new definition does not declare, and with them the connections that end there; the nodes at
the other ends of those shrink in turn, among them nodes of the kind whose own turn is past or still
to come.

`Redefining` is what holds after some of the turns. It is kept by every reshape
(`Redefining.reshapeOne`) and by every turn (`Redefining.turn`), so it holds after the last one
(`Reachable.redefine_keeps`).
-/

namespace EffectGraph

/-- Whether a kind declares a port on the side that it is on. -/
def Signature.declares (s : Signature) (q : PlacedPort) : Bool :=
  match q.direction with
  | .input => q.port.decl ∈ PortDecl.control enterName :: s.inputs
  | .output => q.port.decl ∈ PortDecl.control exitName :: s.outputs

variable {κ : Type}

namespace Graph

/-- Whether a connection outlives the turn of some nodes to a kind: its ends on these nodes are
declared by the kind. -/
def outlives (g : Graph κ) (s : Signature) (turned : List NodeId) (c : Connection) : Bool :=
  [c.source, c.destination].all fun i =>
    (g.portAt? i).all fun q => q.node ∉ turned || s.declares q

theorem outlives_cons (g : Graph κ) (s : Signature) (n : NodeId) (ns : List NodeId)
    (c : Connection) : g.outlives s (n :: ns) c = (g.outlives s [n] c && g.outlives s ns c) := by
  have hend : ∀ i, ((g.portAt? i).all fun q => q.node ∉ n :: ns || s.declares q) =
      (((g.portAt? i).all fun q => q.node ∉ [n] || s.declares q) &&
        (g.portAt? i).all fun q => q.node ∉ ns || s.declares q) := by
    intro i
    cases g.portAt? i with
    | none => rfl
    | some q =>
      by_cases hq : q.node = n <;> by_cases hs : q.node ∈ ns <;> cases hd : s.declares q <;>
        simp [hq, hs, hd]
  simp only [outlives, List.all_cons, List.all_nil, Bool.and_true, hend]
  cases (g.portAt? c.source).all fun q => q.node ∉ [n] || s.declares q <;>
    cases (g.portAt? c.destination).all fun q => q.node ∉ [n] || s.declares q <;> simp

/-- A connection outlives the turn of a node if its end there, if it has one, is declared. -/
theorem WellFormed.outlives_singleton {g : Graph κ} (hg : g.WellFormed) {s : Signature}
    {n : NodeId} {c : Connection} {p q : PlacedPort} (hj : g.Joins c p q) :
    g.outlives s [n] c = true ↔
      (p.node = n → s.declares p = true) ∧ (q.node = n → s.declares q = true) := by
  have hp := hg.portAt?_eq_some_iff.2 ⟨hj.source_mem, hj.source_index⟩
  have hq := hg.portAt?_eq_some_iff.2 ⟨hj.destination_mem, hj.destination_index⟩
  simp only [outlives, List.all_cons, List.all_nil, hp, hq, Option.all_some, List.mem_singleton,
    Bool.and_true, Bool.and_eq_true, Bool.or_eq_true, decide_eq_true_eq]
  tauto

variable [HasSignature κ] {g g' : Graph κ} {m m' : Node κ} {n : NodeId} {kind : κ}

/-! ## The ports of an action node -/

/-- Which inputs an action node has within given widths. -/
theorem mem_inputShape_iff (hk : m.kind = .action kind) {w : String → Nat} {s : PortSpec} :
    s ∈ g.inputShape m w ↔
      s.decl ∈ PortDecl.control enterName :: (HasSignature.signature kind).inputs ∧
      (s.decl.isVariadic = true ∧ (∃ i, s.slot = some i ∧ i < w s.decl.name) ∨
        s.decl.isVariadic = false ∧ s.slot = none) := by
  have hslots : ∀ d : PortDecl, s ∈ slotSpecs w d ↔ s.decl = d ∧
      (d.isVariadic = true ∧ (∃ i, s.slot = some i ∧ i < w d.name) ∨
        d.isVariadic = false ∧ s.slot = none) := by
    intro d
    obtain ⟨decl, slot⟩ := s
    unfold slotSpecs
    split
    next hd =>
      simp only [List.mem_map, List.mem_range, PortSpec.mk.injEq, hd, true_and, Bool.true_eq_false,
        false_and, or_false]
      constructor
      · rintro ⟨i, hi, rfl, rfl⟩
        exact ⟨rfl, i, rfl, hi⟩
      · rintro ⟨rfl, i, rfl, hi⟩
        exact ⟨i, hi, rfl, rfl⟩
    next hd => simp [PortSpec.single, hd]
  have hcontrol : s = PortSpec.control enterName ↔
      s.decl = PortDecl.control enterName ∧ s.slot = none := by
    obtain ⟨decl, slot⟩ := s
    simp [PortSpec.control, PortSpec.single]
  unfold inputShape
  rw [hk]
  simp only [List.mem_cons, List.mem_flatMap, hslots, hcontrol]
  constructor
  · rintro (⟨hdecl, hslot⟩ | ⟨d, hd, rfl, hslot⟩)
    · exact ⟨.inl hdecl, .inr ⟨by rw [hdecl]; rfl, hslot⟩⟩
    · exact ⟨.inr hd, hslot⟩
  · rintro ⟨hdecl | hdecl, hslot⟩
    · refine .inl ⟨hdecl, ?_⟩
      rcases hslot with ⟨hvariadic, -⟩ | ⟨-, hslot⟩
      · rw [hdecl] at hvariadic
        exact Bool.noConfusion hvariadic
      · exact hslot
    · exact .inr ⟨s.decl, hdecl, rfl, hslot⟩

/-- Which outputs an action node has. -/
theorem mem_wantedOutputs_iff (hk : m.kind = .action kind) {s : PortSpec} :
    s ∈ g.wantedOutputs m ↔
      s.decl ∈ PortDecl.control exitName :: (HasSignature.signature kind).outputs ∧
        s.slot = none := by
  obtain ⟨decl, slot⟩ := s
  unfold wantedOutputs
  rw [hk]
  simp only [List.mem_cons, List.mem_map, PortSpec.control, PortSpec.single, PortSpec.mk.injEq]
  constructor
  · rintro (⟨rfl, rfl⟩ | ⟨d, hd, rfl, rfl⟩)
    · exact ⟨.inl rfl, rfl⟩
    · exact ⟨.inr hd, rfl⟩
  · rintro ⟨rfl | hd, rfl⟩
    · exact .inl ⟨rfl, rfl⟩
    · exact .inr ⟨decl, hd, rfl, rfl⟩

theorem Shaped.nodup_inputSpecs (h : g.Shaped m) (ha : m.Addressable) :
    (m.inputs.map Port.spec).Nodup := by
  have hkeys := h.nodup_inputs (ha.kind _)
  have hmap : m.inputs.map Port.key = (m.inputs.map Port.spec).map specKey := by
    rw [List.map_map]
    rfl
  rw [hmap] at hkeys
  exact hkeys.of_map

theorem Shaped.nodup_outputSpecs (h : g.Shaped m) (ha : m.Addressable) :
    (m.outputs.map Port.spec).Nodup := by
  have hnames := h.nodup_outputs (ha.kind _)
  have hmap : m.outputs.map (·.decl.name) = (m.outputs.map Port.spec).map (·.decl.name) := by
    rw [List.map_map]
    rfl
  rw [hmap] at hnames
  exact hnames.of_map

/-- A connection is lost in a reshape exactly if the node loses one of its ends. -/
theorem WellFormed.loses_iff (hg : g.WellFormed) (hm : m ∈ g.nodes) {c : Connection}
    {p q : PlacedPort} (hj : g.Joins c p q) : g.loses m c = true ↔
      p.node = m.id ∧ p.port ∈ (g.reusedOutputs m).dropped ∨
        q.node = m.id ∧ q.port ∈ (g.reusedInputs m).dropped := by
  unfold loses
  rw [List.any_eq_true]
  constructor
  · rintro ⟨r, hr, ht⟩
    simp only [Connection.touches, Bool.or_eq_true, decide_eq_true_eq] at ht
    rcases List.mem_append.1 hr with hr | hr
    · have hmem := input_mem_allPorts hm (mem_old_of_mem_dropped hr)
      rcases ht with ht | ht
      -- An input is no source.
      · obtain rfl := hg.port_inj hj.source_mem hmem (hj.source_index.trans ht)
        exact absurd hj.source_output (by simp)
      · obtain rfl := hg.port_inj hj.destination_mem hmem (hj.destination_index.trans ht)
        exact .inr ⟨rfl, hr⟩
    · have hmem := output_mem_allPorts hm (mem_old_of_mem_dropped hr)
      rcases ht with ht | ht
      · obtain rfl := hg.port_inj hj.source_mem hmem (hj.source_index.trans ht)
        exact .inl ⟨rfl, hr⟩
      · obtain rfl := hg.port_inj hj.destination_mem hmem (hj.destination_index.trans ht)
        exact absurd hj.destination_input (by simp)
  · rintro (⟨-, hp⟩ | ⟨-, hq⟩)
    · exact ⟨p.port, List.mem_append_right _ hp, by simp [Connection.touches, hj.source_index]⟩
    · exact ⟨q.port, List.mem_append_left _ hq, by simp [Connection.touches, hj.destination_index]⟩

/-! ## The turn of a node -/

/-- The slots that a node keeps in use when it is turned were in use before. -/
theorem usedSlots_turn {group : String} {i : Nat}
    (hi : i ∈ (g.updateNode n (.turn kind)).usedSlots (m.turn kind) group) :
    i ∈ g.usedSlots m group := by
  rw [mem_usedSlots] at hi ⊢
  rcases hi with hi | (hi | hi)
  · exact .inl hi
  · exact .inr (.inl (Table.mem_keys_filter.1 hi).1)
  · exact .inr (.inr hi)

/-- A connected input of a node is wanted after the turn if the new definition declares it. -/
theorem Valid.mem_wantedInputs_turn {k : κ} (h : g.Valid []) (hm : m ∈ g.nodes)
    (hk : m.kind = .action k) {p : Port} (hp : p ∈ m.inputs) (hwired : g.isWired p.index = true) :
    p.spec ∈ (g.updateNode n (.turn kind)).wantedInputs (m.turn kind) ↔
      p.decl ∈ PortDecl.control enterName :: (HasSignature.signature kind).inputs := by
  obtain ⟨w, hw, -⟩ := (h.shaped m hm List.not_mem_nil).inputs
  have hspec : p.spec ∈ g.inputShape m w := hw ▸ List.mem_map_of_mem hp
  have hslot := ((mem_inputShape_iff hk).1 hspec).2
  have hturn : (m.turn kind).kind = .action kind := rfl
  rw [wantedInputs_eq, mem_inputShape_iff hturn]
  constructor
  · intro hs
    exact hs.1
  · intro hdecl
    refine ⟨hdecl, ?_⟩
    rcases hslot with ⟨hvariadic, i, hi, -⟩ | hsingle
    -- A connected slot is in use, so it lies within the arity.
    · refine .inl ⟨hvariadic, i, hi, ?_⟩
      have hi' : i ∈ (g.updateNode n (.turn kind)).usedSlots (m.turn kind) p.decl.name :=
        mem_usedSlots.2 (.inl ⟨p, hp, rfl, hi, hwired⟩)
      exact lt_arityOf hi' (h.slots_inputs hm p hp i hi)
    · exact .inr hsingle

/-- An output of a turned node is not reused exactly if the new definition does not declare it. -/
theorem Valid.dropped_output_turn {k : κ} (h : g.Valid []) (hm : m ∈ g.nodes)
    (hk : m.kind = .action k) (ha : m.Addressable) {p : PlacedPort} (hp : p ∈ g.allPorts)
    (hdir : p.direction = .output) (hid : p.node = m.id) :
    p.port ∈ ((g.updateNode m.id (.turn kind)).reusedOutputs (m.turn kind)).dropped ↔
      (HasSignature.signature kind).declares p = false := by
  obtain ⟨m', hm', hid', hpm⟩ := exists_of_output hp hdir
  obtain rfl := h.ascending.id_inj hm' hm (hid'.symm.trans hid)
  have hshaped := h.shaped m' hm List.not_mem_nil
  have hturn : (m'.turn kind).kind = .action kind := rfl
  have hspec : p.port.spec ∈ g.wantedOutputs m' := hshaped.outputs ▸ List.mem_map_of_mem hpm
  have hslot := ((mem_wantedOutputs_iff hk).1 hspec).2
  have hnodup : ((m'.turn kind).outputs.map Port.spec).Nodup := hshaped.nodup_outputSpecs ha
  unfold reusedOutputs Signature.declares
  rw [mem_dropped_iff hnodup, mem_wantedOutputs_iff hturn, hdir]
  simp only [decide_eq_false_iff_not]
  constructor
  · rintro ⟨-, hnot⟩ hdecl
    exact hnot ⟨hdecl, hslot⟩
  · intro hnot
    exact ⟨hpm, fun hs => hnot hs.1⟩

/-- The same of an input that is connected. -/
theorem Valid.dropped_input_turn {k : κ} (h : g.Valid []) (hm : m ∈ g.nodes)
    (hk : m.kind = .action k) (ha : m.Addressable) {q : PlacedPort} (hq : q ∈ g.allPorts)
    (hdir : q.direction = .input) (hid : q.node = m.id) (hwired : g.isWired q.port.index = true) :
    q.port ∈ ((g.updateNode m.id (.turn kind)).reusedInputs (m.turn kind)).dropped ↔
      (HasSignature.signature kind).declares q = false := by
  obtain ⟨m', hm', hid', hqm⟩ := exists_of_input hq hdir
  obtain rfl := h.ascending.id_inj hm' hm (hid'.symm.trans hid)
  have hshaped := h.shaped m' hm List.not_mem_nil
  have hnodup : ((m'.turn kind).inputs.map Port.spec).Nodup := hshaped.nodup_inputSpecs ha
  unfold reusedInputs Signature.declares
  rw [mem_dropped_iff hnodup, h.mem_wantedInputs_turn hm hk hqm hwired, hdir]
  simp only [decide_eq_false_iff_not]
  exact and_iff_right hqm

/-- The turn of a node costs the connections whose end on the node the new definition does not
declare. -/
theorem Valid.loses_turn {k : κ} (h : g.Valid []) (hm : m ∈ g.nodes) (hk : m.kind = .action k)
    (ha : m.Addressable) {c : Connection} (hc : c ∈ g.connections) :
    (g.updateNode m.id (.turn kind)).loses (m.turn kind) c =
      !g.outlives (HasSignature.signature kind) [m.id] c := by
  obtain ⟨p, q, hj⟩ := h.wellFormed.joined c hc
  have hports := allPorts_updateNode (f := .turn kind) (g := g) (n := m.id) (fun _ => rfl)
    (fun _ => rfl) fun _ => rfl
  have hj' : (g.updateNode m.id (.turn kind)).Joins c p q :=
    { hj with source_mem := hports ▸ hj.source_mem, destination_mem := hports ▸ hj.destination_mem }
  have hmem : m.turn kind ∈ (g.updateNode m.id (.turn kind)).nodes :=
    mem_nodes_updateNode.2 ⟨m, hm, if_pos rfl⟩
  have hwired : g.isWired q.port.index = true :=
    List.any_eq_true.2 ⟨c, hc, by simp [Connection.touches, hj.destination_index]⟩
  have hloses := (h.turn kind m.id).wellFormed.loses_iff hmem hj'
  have houtlives :=
    h.wellFormed.outlives_singleton (s := HasSignature.signature kind) (n := m.id) hj
  rw [Bool.eq_iff_iff, hloses, Bool.not_eq_true', ← Bool.not_eq_true, houtlives, not_and_or,
    Classical.not_imp, Classical.not_imp, Bool.not_eq_true, Bool.not_eq_true]
  refine or_congr (and_congr_right fun hid => ?_) (and_congr_right fun hid => ?_)
  · exact h.dropped_output_turn hm hk ha hj.source_mem hj.source_output hid
  · exact h.dropped_input_turn hm hk ha hj.destination_mem hj.destination_input hid hwired

/-! ## The ports of a turned node -/

/-- How the ports of a turned node follow from those it had: a port is kept, or it is gone and will
not come back. -/
structure Retyped (g : Graph κ) (m₀ m : Node κ) : Prop where
  inputs : ∀ p ∈ m₀.inputs, p ∈ m.inputs ∨
    p.spec ∉ m.inputs.map Port.spec ∧ p.spec ∉ g.wantedInputs m
  outputs : ∀ p ∈ m₀.outputs, p ∈ m.outputs ∨ p.spec ∉ m.outputs.map Port.spec

theorem Retyped.narrows {m₀ : Node κ} (h : g.Retyped m₀ m) (hnarrows : g.Narrows m g' m')
    (houtputs : m'.outputs = m.outputs) : g'.Retyped m₀ m' := by
  refine ⟨fun p hp => ?_, houtputs ▸ h.outputs⟩
  rcases h.inputs p hp with hmem | ⟨hspec, hwanted⟩
  · by_cases hkept : p ∈ m'.inputs
    · exact .inl hkept
    · obtain ⟨hspec, i, hi, harity⟩ := hnarrows.gone p hmem hkept
      exact .inr ⟨hspec, not_mem_wantedInputs hi harity⟩
  · refine .inr ⟨fun hs => ?_, fun hs => hwanted (hnarrows.mem_wantedInputs hs)⟩
    exact (hnarrows.shown _ hs).elim hspec hwanted

/-- What a node wants after a reshape it wanted before. -/
theorem Valid.mem_wantedInputs_of_shapedNode {stale : List NodeId} (h : g.Valid stale)
    {s : PortSpec} (hs : s ∈ (g.reshapeOne n).1.wantedInputs (g.shapedNode m)) :
    s ∈ g.wantedInputs m := by
  have hsub : (g.reshapeOne n).1.connections ⊆ g.connections :=
    (reshapes_reshapeOne h.ascending n).connections.subset
  rw [wantedInputs_eq, inputShape_congr reshapeOne_signature (shapedNode_kind g m)] at hs
  rw [wantedInputs_eq]
  exact mem_inputShape_mono (fun _ => arityOf_mono fun _ hi => h.usedSlots_shapedNode hsub hi) hs

/-- The turn of a node that has narrowed before. -/
theorem Narrows.retyped_turn {g₀ t : Graph κ} {m₀ : Node κ} (ht : t = g.updateNode n (.turn kind))
    (hturned : t.Valid [n]) (h : g₀.Narrows m₀ g m) (houtputs : m.outputs = m₀.outputs)
    (hins : (m.inputs.map Port.spec).Nodup) (houts : (m.outputs.map Port.spec).Nodup) :
    (t.reshapeOne n).1.Retyped m₀ (t.shapedNode (m.turn kind)) := by
  have hwanted : ∀ p ∈ m₀.inputs, p ∈ (t.shapedNode (m.turn kind)).inputs ∨
      p.spec ∉ t.wantedInputs (m.turn kind) := by
    intro p hp
    by_cases hmem : p ∈ m.inputs
    · refine (mem_reusePorts_of_mem_old (t.wantedInputs (m.turn kind)) t.nextPort hmem).imp_right
        fun hdropped => ?_
      exact ((mem_dropped_iff hins).1 hdropped).2
    -- A slot that is gone lies beyond the arity, which the turn does not raise.
    · obtain ⟨-, i, hi, harity⟩ := h.gone p hp hmem
      have hle : t.arity (m.turn kind) p.decl.name ≤ g.arity m p.decl.name :=
        arityOf_mono fun i hi => usedSlots_turn (ht ▸ hi)
      exact .inr (not_mem_wantedInputs hi (Nat.le_trans hle harity))
  have hinputs : (t.shapedNode (m.turn kind)).inputs.map Port.spec = t.wantedInputs (m.turn kind) :=
    reusePorts_specs ..
  have hspecs : (t.shapedNode (m.turn kind)).outputs.map Port.spec =
      t.wantedOutputs (m.turn kind) := reusePorts_specs ..
  constructor
  · intro p hp
    rcases hwanted p hp with hkept | hnot
    · exact .inl hkept
    · exact .inr ⟨hinputs ▸ hnot, fun hs => hnot (hturned.mem_wantedInputs_of_shapedNode hs)⟩
  · intro p hp
    rw [← houtputs] at hp
    rcases mem_reusePorts_of_mem_old (t.wantedOutputs (m.turn kind))
      (t.reusedInputs (m.turn kind)).nextPort hp with hkept | hdropped
    · exact .inl hkept
    · exact .inr (hspecs ▸ ((mem_dropped_iff houts).1 hdropped).2)

/-! ## After some of the turns -/

/-- How a graph follows from an earlier one when some nodes of a kind have been turned. -/
structure Redefining (g₀ : Graph κ) (kind : κ) (turned : List NodeId) (g : Graph κ) : Prop where
  valid : g.Valid []
  id : g.id = g₀.id
  signature : g.signature = g₀.signature
  nodeIds : g.nodeIds = g₀.nodeIds
  nextPort : g₀.nextPort ≤ g.nextPort
  ports : ∀ q ∈ g.allPorts, q ∈ g₀.allPorts ∨ g₀.nextPort ≤ q.port.index
  connections : g.connections =
    g₀.connections.filter (g₀.outlives (HasSignature.signature kind) turned)
  stores : ∀ m₀ ∈ g₀.nodes, ∀ m ∈ g.nodes, m.id = m₀.id →
    m.bare = (if m.id ∈ turned then m₀.turn kind else m₀).bare
  waiting : ∀ m₀ ∈ g₀.nodes, ∀ m ∈ g.nodes, m.id = m₀.id → m.id ∉ turned →
    g₀.Narrows m₀ g m ∧ g.Resized m₀ m
  retyped : ∀ m₀ ∈ g₀.nodes, ∀ m ∈ g.nodes, m.id = m₀.id → m.id ∈ turned → g.Retyped m₀ m

variable {g₀ : Graph κ} {turned : List NodeId}

theorem Valid.redefining (h : g.Valid []) (kind : κ) : g.Redefining kind [] g where
  valid := h
  id := rfl
  signature := rfl
  nodeIds := rfl
  nextPort := Nat.le_refl _
  ports _ hq := .inl hq
  connections := by
    refine (List.filter_eq_self.2 fun c _ => ?_).symm
    simp [outlives]
  stores m₀ hm₀ m hm hid := by rw [h.ascending.id_inj hm hm₀ hid, if_neg List.not_mem_nil]
  waiting m₀ hm₀ m hm hid _ := by
    obtain rfl := h.ascending.id_inj hm hm₀ hid
    exact ⟨.refl g m, .refl g m⟩
  retyped _ _ _ _ _ hmem := absurd hmem List.not_mem_nil

theorem Redefining.reshapeOne (h : g₀.Redefining kind turned g) (n : NodeId) :
    g₀.Redefining kind turned (g.reshapeOne n).1 := by
  have hspares := h.valid.spares_reshapeOne n
  have horigin : ∀ m' ∈ (g.reshapeOne n).1.nodes, ∃ m ∈ g.nodes, m'.id = m.id ∧
      m'.bare = m.bare := by
    intro m' hm'
    obtain ⟨m, hm, hbare⟩ := hspares.origin hm'
    exact ⟨m, hm, (congrArg (·.id) hbare).symm, hbare.symm⟩
  refine ⟨h.valid.reshapeOne_mono n, hspares.id.trans h.id, hspares.signature.trans h.signature,
    hspares.nodeIds.trans h.nodeIds, Nat.le_trans h.nextPort hspares.nextPort, fun q hq => ?_,
    hspares.wires.trans h.connections, fun m₀ hm₀ m' hm' hid => ?_,
    fun m₀ hm₀ m' hm' hid hnot => ?_, fun m₀ hm₀ m' hm' hid hmem => ?_⟩
  · rcases hspares.ports q hq with hq | hq
    · exact h.ports q hq
    · exact .inr (Nat.le_trans h.nextPort hq)
  · obtain ⟨m, hm, hmid, hbare⟩ := horigin m' hm'
    rw [hbare, hmid]
    exact h.stores m₀ hm₀ m hm (hmid.symm.trans hid)
  · obtain ⟨m, hm, hmid, hbare⟩ := horigin m' hm'
    rw [hmid] at hid hnot
    obtain ⟨hnarrows, hresized⟩ := h.waiting m₀ hm₀ m hm hid hnot
    have hstores := h.stores m₀ hm₀ m hm hid
    rw [if_neg hnot] at hstores
    exact ⟨hnarrows.trans (h.valid.narrows_reshapeOne hm hm' hmid),
      (hresized.congr hspares.wires).trans (hspares.resized m hm m' hm' hmid)
        (congrArg (·.defaults) hstores) (congrArg (·.defaults) hbare)⟩
  · obtain ⟨m, hm, hmid, -⟩ := horigin m' hm'
    rw [hmid] at hid hmem
    exact (h.retyped m₀ hm₀ m hm hid hmem).narrows (h.valid.narrows_reshapeOne hm hm' hmid)
      (hspares.resized m hm m' hm' hmid).outputs

/-- The ends of a connection that is left are the ports that they were. -/
theorem Redefining.joins (h : g₀.Redefining kind turned g) (h₀ : g₀.WellFormed) {c : Connection}
    {p q : PlacedPort} (hc : c ∈ g.connections) (hj : g₀.Joins c p q) : g.Joins c p q := by
  obtain ⟨p', q', hj'⟩ := h.valid.wellFormed.joined c hc
  have hsame : ∀ a ∈ g₀.allPorts, ∀ b ∈ g.allPorts, a.port.index = b.port.index → a = b := by
    intro a ha b hb hab
    have hused := h₀.used a ha
    exact h₀.port_inj ha ((h.ports b hb).resolve_right (by omega)) hab
  obtain rfl := hsame p hj.source_mem p' hj'.source_mem
    (hj.source_index.trans hj'.source_index.symm)
  obtain rfl := hsame q hj.destination_mem q' hj'.destination_mem
    (hj.destination_index.trans hj'.destination_index.symm)
  exact hj'

/-- The connections left after one more turn. -/
theorem Redefining.filter_connections (h : g₀.Redefining kind turned g) (h₀ : g₀.WellFormed)
    (n : NodeId) : g.connections.filter (g.outlives (HasSignature.signature kind) [n]) =
      g₀.connections.filter (g₀.outlives (HasSignature.signature kind) (n :: turned)) := by
  have hsame : ∀ c ∈ g.connections, g.outlives (HasSignature.signature kind) [n] c =
      g₀.outlives (HasSignature.signature kind) [n] c := by
    intro c hc
    obtain ⟨p, q, hj⟩ := h₀.joined c (h.connections ▸ hc |> List.mem_of_mem_filter)
    rw [Bool.eq_iff_iff, h₀.outlives_singleton hj,
      h.valid.wellFormed.outlives_singleton (h.joins h₀ hc hj)]
  rw [List.filter_congr hsame, h.connections, List.filter_filter]
  exact List.filter_congr fun c _ => (outlives_cons ..).symm

/-- The connections right after the turn of a node. -/
theorem Valid.connections_turn {k : κ} (h : g.Valid []) (hm : m ∈ g.nodes)
    (hk : m.kind = .action k) (ha : m.Addressable) :
    ((g.updateNode m.id (.turn kind)).reshapeOne m.id).1.connections =
      g.connections.filter (g.outlives (HasSignature.signature kind) [m.id]) := by
  have hmem : m.turn kind ∈ (g.updateNode m.id (.turn kind)).nodes :=
    mem_nodes_updateNode.2 ⟨m, hm, if_pos rfl⟩
  have hnode : (g.updateNode m.id (.turn kind)).node? m.id = some (m.turn kind) :=
    node?_of_mem (h.turn kind m.id).ascending hmem
  rw [reshapeOne_connections hnode]
  refine List.filter_congr fun c hc => ?_
  rw [h.loses_turn hm hk ha hc, Bool.not_not]

/-- The nodes right after the turn of one: the others are as they were. -/
theorem Valid.mem_nodes_turn (h : g.Valid []) (hm : m ∈ g.nodes) {k : Node κ} :
    k ∈ ((g.updateNode m.id (.turn kind)).reshapeOne m.id).1.nodes ↔
      k ∈ g.nodes ∧ k.id ≠ m.id ∨
        k = (g.updateNode m.id (.turn kind)).shapedNode (m.turn kind) := by
  have hturned := h.turn kind m.id
  have hmem : m.turn kind ∈ (g.updateNode m.id (.turn kind)).nodes :=
    mem_nodes_updateNode.2 ⟨m, hm, if_pos rfl⟩
  have hnode : (g.updateNode m.id (.turn kind)).node? m.id = some (m.turn kind) :=
    node?_of_mem hturned.ascending hmem
  rw [mem_nodes_reshapeOne hturned.ascending hnode, mem_nodes_updateNode]
  refine or_congr_left ⟨?_, fun ⟨hk, hne⟩ => ⟨⟨k, hk, if_neg hne⟩, hne⟩⟩
  rintro ⟨⟨k', hk', rfl⟩, hne⟩
  split_ifs at hne ⊢ with hid
  · exact absurd hid hne
  · exact ⟨hk', hne⟩

/-- The turn of one more node, before the nodes that shrink on account of it are reshaped. -/
theorem Redefining.turn (h : g₀.Redefining kind turned g) (h₀ : g₀.WellFormed) {m₀ : Node κ}
    (hm₀ : m₀ ∈ g₀.nodes) (ha : m₀.Addressable) (hnot : m₀.id ∉ turned) :
    g₀.Redefining kind (m₀.id :: turned)
      ((g.updateNode m₀.id (.turn kind)).reshapeOne m₀.id).1 := by
  obtain ⟨m, hm, hid⟩ : ∃ m ∈ g.nodes, m.id = m₀.id := by
    have hmem : m₀.id ∈ g.nodeIds := h.nodeIds ▸ List.mem_map_of_mem hm₀
    exact List.mem_map.1 hmem
  have hturned := h.valid.turn kind m.id
  have hnodes : ∀ k, k ∈ ((g.updateNode m.id (.turn kind)).reshapeOne m.id).1.nodes ↔
      k ∈ g.nodes ∧ k.id ≠ m.id ∨ k = (g.updateNode m.id (.turn kind)).shapedNode (m.turn kind) :=
    fun _ => h.valid.mem_nodes_turn hm
  rw [← hid] at hnot ⊢
  have hstores := h.stores m₀ hm₀ m hm hid
  rw [if_neg hnot] at hstores
  obtain ⟨hnarrows, hresized⟩ := h.waiting m₀ hm₀ m hm hid hnot
  obtain ⟨k, hk, hsigned⟩ := ha
  have hmk : m.kind = .action k := (congrArg (·.kind) hstores).trans hk
  have ha : m.Addressable := ⟨k, hmk, hsigned⟩
  have hshaped := h.valid.shaped m hm List.not_mem_nil
  have hreshapes := reshapes_reshapeOne hturned.ascending m.id
  have hids : (g.updateNode m.id (.turn kind)).nodeIds = g.nodeIds :=
    nodeIds_updateNode fun _ => rfl
  have hports : (g.updateNode m.id (.turn kind)).allPorts = g.allPorts :=
    allPorts_updateNode (fun _ => rfl) (fun _ => rfl) fun _ => rfl
  have hsub := hreshapes.connections.subset
  have hsignature : ((g.updateNode m.id (.turn kind)).reshapeOne m.id).1.signature = g.signature :=
    hreshapes.signature
  refine ⟨(hturned.reshapeOne m.id).mono (by simp), hreshapes.id.trans h.id,
    hsignature.trans h.signature, (hreshapes.nodeIds.trans hids).trans h.nodeIds,
    Nat.le_trans h.nextPort hreshapes.nextPort, fun q hq => ?_,
    (h.valid.connections_turn hm hmk ha).trans (h.filter_connections h₀ m.id), ?_, ?_, ?_⟩
  · rcases hreshapes.ports q hq with hq | hq
    · exact h.ports q (hports ▸ hq)
    · exact .inr (Nat.le_trans h.nextPort hq)
  · intro a₀ hmem₀ a hmem hai
    rcases (hnodes a).1 hmem with ⟨hmem, hne⟩ | rfl
    · simp only [List.mem_cons, hne, false_or]
      exact h.stores a₀ hmem₀ a hmem hai
    · obtain rfl := h₀.ascending.id_inj hm₀ hmem₀ (hid.symm.trans hai)
      rw [shapedNode_id, Node.turn_id, if_pos List.mem_cons_self]
      -- The turn of a node looks at what it stores only.
      exact congrArg (Node.turn kind) hstores
  · intro a₀ hmem₀ a hmem hai hwaits
    rw [List.mem_cons, not_or] at hwaits
    rcases (hnodes a).1 hmem with ⟨hmem, -⟩ | rfl
    · obtain ⟨hnarrows, hresized⟩ := h.waiting a₀ hmem₀ a hmem hai hwaits.2
      exact ⟨hnarrows.trans (.of_connections hsignature hsub a), hresized.of_subset hsub⟩
    · exact absurd rfl hwaits.1
  · intro a₀ hmem₀ a hmem hai hdone
    rcases (hnodes a).1 hmem with ⟨hmem, hne⟩ | rfl
    · have hbefore := (List.mem_cons.1 hdone).resolve_left hne
      exact (h.retyped a₀ hmem₀ a hmem hai hbefore).narrows (.of_connections hsignature hsub a) rfl
    · obtain rfl := h₀.ascending.id_inj hm₀ hmem₀ (hid.symm.trans hai)
      exact hnarrows.retyped_turn rfl hturned hresized.outputs (hshaped.nodup_inputSpecs ha)
        (hshaped.nodup_outputSpecs ha)

theorem Redefining.redefineNode (h : g₀.Redefining kind turned g) (h₀ : g₀.WellFormed)
    {m₀ : Node κ} (hm₀ : m₀ ∈ g₀.nodes) (ha : m₀.Addressable) (hnot : m₀.id ∉ turned) :
    g₀.Redefining kind (m₀.id :: turned) (g.redefineNode kind m₀.id) := by
  have hturn := h.turn h₀ hm₀ ha hnot
  rw [redefineNode_eq]
  rcases reshape_eq (g.updateNode m₀.id (.turn kind)) m₀.id with ⟨-, he⟩ | ⟨depth, he⟩
  · exact he ▸ hturn
  · rw [he]
    exact reshapeNested_induct (fun _ n hg => hg.reshapeOne n) _ _ _ hturn

/-- The turns of several nodes, one after another. -/
theorem Redefining.foldl (h₀ : g₀.WellFormed) {ns : List NodeId} (hnodup : ns.Nodup)
    (hns : ∀ n ∈ ns, ∃ m₀ ∈ g₀.nodes, m₀.id = n ∧ m₀.Addressable)
    (h : g₀.Redefining kind turned g) (hnot : ∀ n ∈ ns, n ∉ turned) :
    g₀.Redefining kind (ns.reverse ++ turned) (ns.foldl (fun g n => g.redefineNode kind n) g) := by
  induction ns generalizing g turned with
  | nil => exact h
  | cons n ns ih =>
    obtain ⟨hn, hns'⟩ := List.nodup_cons.1 hnodup
    obtain ⟨m₀, hm₀, rfl, ha⟩ := hns n List.mem_cons_self
    have hturn := h.redefineNode h₀ hm₀ ha (hnot _ List.mem_cons_self)
    have hrest := ih hns' (fun k hk => hns k (List.mem_cons_of_mem _ hk)) hturn fun k hk => by
      rw [List.mem_cons, not_or]
      exact ⟨fun he => hn (he ▸ hk), hnot k (List.mem_cons_of_mem _ hk)⟩
    rwa [List.reverse_cons, List.append_assoc]

end Graph

/-! ## After the last turn -/

/-- Whether a node is an action node of the kind with a name. -/
def Node.Bears [HasSignature κ] (m : Node κ) (name : String) : Prop :=
  ∃ k, m.kind = .action k ∧ (HasSignature.signature k).name = name

/-- The ports that a node shows on a side. -/
def Node.side (m : Node κ) : Direction → List Port
  | .input => m.inputs
  | .output => m.outputs

namespace Graph

section Results

variable [HasSignature κ]

/-- What a new definition makes of a node of its kind. -/
structure Turns (g : Graph κ) (kind : κ) (g' : Graph κ) (m m' : Node κ) : Prop where
  carried : m'.kind = .action kind
  position : m'.position = m.position
  consts : ∀ name, m'.consts.get? name =
    if ((HasSignature.signature kind).const? name).isSome then m.consts.get? name else none
  defaults : ∀ k, m'.defaults.get? k =
    if ((HasSignature.signature kind).input? k.name).any fun d => d.isVariadic = k.index.isSome then
      m.defaults.get? k
    else none
  /-- The node shows the ports that the definition declares. -/
  shaped : g'.Shaped m'
  /-- An old port is found where it was if one like it is shown, and otherwise not at all. -/
  ports : ∀ q ∈ placedPorts m, g'.port? (g.portId q.port.index) =
    if q.port.spec ∈ (m'.side q.direction).map Port.spec then some q else none

/-- What a new definition of a kind makes of a graph. -/
structure Redefines (g : Graph κ) (kind : κ) (g' : Graph κ) : Prop where
  id : g'.id = g.id
  nodeIds : g'.nodeIds = g.nodeIds
  /-- Connections go, and those left stand in their old order. -/
  order : g'.connections.Sublist g.connections
  /-- A connection is left exactly if its ends on nodes of the kind are declared. -/
  left : ∀ c, c ∈ g'.connections ↔ c ∈ g.connections ∧
    ∀ i, c.touches i = true → ∀ q, g.port? (g.portId i) = some q →
      ∀ m, g.node? q.node = some m → m.Bears (HasSignature.signature kind).name →
        (HasSignature.signature kind).declares q = true
  turns : ∀ m ∈ g.nodes, m.Bears (HasSignature.signature kind).name →
    ∀ m' ∈ g'.nodes, m'.id = m.id → g.Turns kind g' m m'
  /-- Any other node stores what it stored, and only spare slots of it come and go. -/
  others : ∀ m ∈ g.nodes, ¬m.Bears (HasSignature.signature kind).name →
    ∀ m' ∈ g'.nodes, m'.id = m.id → m'.bare = m.bare ∧ g'.Resized m m'

variable {g g' : Graph κ} {m m' : Node κ} {kind : κ} {turned : List NodeId}

theorem mem_nodesOfKind {name : String} {n : NodeId} :
    n ∈ g.nodesOfKind name ↔ ∃ m ∈ g.nodes, m.id = n ∧ m.Bears name := by
  have hbears : ∀ m : Node κ, (m.signature?.any fun s => s.name = name) = true ↔ m.Bears name := by
    intro m
    cases hk : m.kind <;> simp [Node.signature?, NodeKind.action?, Node.Bears, hk]
  simp only [nodesOfKind, List.mem_map, List.mem_filter, hbears]
  constructor
  · rintro ⟨m, ⟨hm, hb⟩, rfl⟩
    exact ⟨m, hm, rfl, hb⟩
  · rintro ⟨m, hm, rfl, hb⟩
    exact ⟨m, ⟨hm, hb⟩, rfl⟩

omit [HasSignature κ] in
theorem outlives_iff {s : Signature} {c : Connection} : g.outlives s turned c = true ↔
    ∀ i, c.touches i = true → ∀ q, g.port? (g.portId i) = some q → q.node ∈ turned →
      s.declares q = true := by
  have hend : ∀ i, ((g.portAt? i).all fun q => q.node ∉ turned || s.declares q) = true ↔
      ∀ q, g.port? (g.portId i) = some q → q.node ∈ turned → s.declares q = true := by
    intro i
    have hport : g.port? (g.portId i) = g.portAt? i := if_pos rfl
    rw [hport, Option.all_eq_true]
    simp only [Bool.or_eq_true, decide_eq_true_eq, or_iff_not_imp_left, not_not]
  unfold outlives
  simp only [List.all_cons, List.all_nil, Bool.and_true, Bool.and_eq_true, hend,
    Connection.touches, Bool.or_eq_true, decide_eq_true_eq]
  constructor
  · rintro ⟨hs, hd⟩ i (rfl | rfl)
    · exact hs
    · exact hd
  · intro h
    exact ⟨h _ (.inl rfl), h _ (.inr rfl)⟩

omit [HasSignature κ] in
theorem mem_placedPorts_iff_side {q : PlacedPort} :
    q ∈ placedPorts m ↔ q.node = m.id ∧ q.port ∈ m.side q.direction := by
  rw [mem_placedPorts]
  refine and_congr_right fun _ => ?_
  cases q.direction <;> simp [Node.side]

/-- An old port is found under its id as long as it is there. -/
theorem Redefining.port?_eq (h : g.Redefining kind turned g') (hg : g.WellFormed) {q : PlacedPort}
    (hq : q ∈ g.allPorts) :
    g'.port? (g.portId q.port.index) = if q ∈ g'.allPorts then some q else none := by
  have hportId : g.portId q.port.index = g'.portId q.port.index := by
    rw [portId, portId, h.id]
  rw [hportId]
  split_ifs with hmem
  · exact h.valid.wellFormed.port?_portId hmem
  · refine Option.eq_none_iff_forall_ne_some.2 fun r hr => hmem ?_
    obtain ⟨-, hat⟩ := port?_eq_some_iff.1 hr
    obtain ⟨hr, hindex⟩ := portAt?_mem hat
    -- The numbers of old ports are not given out again.
    have hused := hg.used q hq
    have hindex : r.port.index = q.port.index := hindex
    have hold := (h.ports r hr).resolve_right (by omega)
    exact hg.port_inj hold hq hindex ▸ hr

theorem Redefining.turns (h : g.Redefining kind turned g') (hg : g.WellFormed) (hm : m ∈ g.nodes)
    (hm' : m' ∈ g'.nodes) (hid : m'.id = m.id) (hmem : m'.id ∈ turned) : g.Turns kind g' m m' := by
  have hstores := h.stores m hm m' hm' hid
  rw [if_pos hmem] at hstores
  have hretyped := h.retyped m hm m' hm' hid hmem
  refine ⟨congrArg (·.kind) hstores, congrArg (·.position) hstores, fun name => ?_, fun k => ?_,
    h.valid.shaped m' hm' List.not_mem_nil, fun q hq => ?_⟩
  · have hconsts : m'.consts = (m.turn kind).consts := congrArg (·.consts) hstores
    rw [hconsts]
    exact Table.lookupEntry_filter_key
      (fun name => ((HasSignature.signature kind).const? name).isSome) name m.consts.entries
  · have hdefaults : m'.defaults = (m.turn kind).defaults := congrArg (·.defaults) hstores
    rw [hdefaults]
    exact Table.lookupEntry_filter_key (declaresSlot (HasSignature.signature kind)) k
      m.defaults.entries
  · obtain ⟨hnode, hside⟩ := mem_placedPorts_iff_side.1 hq
    have hplaced : q ∈ g'.allPorts ↔ q.port ∈ m'.side q.direction := by
      rw [mem_allPorts]
      constructor
      · rintro ⟨k, hk, hqk⟩
        obtain ⟨hkid, hport⟩ := mem_placedPorts_iff_side.1 hqk
        rwa [h.valid.ascending.id_inj hk hm' (hkid.symm.trans (hnode.trans hid.symm))] at hport
      · intro hport
        exact ⟨m', hm', mem_placedPorts_iff_side.2 ⟨hnode.trans hid.symm, hport⟩⟩
    have hshown : q.port ∈ m'.side q.direction ↔
        q.port.spec ∈ (m'.side q.direction).map Port.spec := by
      refine ⟨fun hport => List.mem_map_of_mem hport, fun hspec => ?_⟩
      revert hside hspec
      cases q.direction with
      | input =>
        intro hside hspec
        exact (hretyped.inputs _ hside).resolve_right fun hgone => hgone.1 hspec
      | output =>
        intro hside hspec
        exact (hretyped.outputs _ hside).resolve_right fun hgone => hgone hspec
    rw [h.port?_eq hg (mem_allPorts.2 ⟨m, hm, hq⟩)]
    simp only [hplaced, hshown]

/-- The turn of all the nodes of a kind. -/
theorem Valid.redefines (h : g.Valid []) (haddressable : ∀ m ∈ g.nodes,
    m.Bears (HasSignature.signature kind).name → m.Addressable) :
    g.Redefines kind (g.redefine kind).1 := by
  have hnodup : (g.nodesOfKind (HasSignature.signature kind).name).Nodup :=
    h.ascending.nodup_ids.sublist (List.filter_sublist.map _)
  have hredefining := (h.redefining kind).foldl h.wellFormed hnodup
    (fun n hn => by
      obtain ⟨m, hm, hid, hbears⟩ := mem_nodesOfKind.1 hn
      exact ⟨m, hm, hid, haddressable m hm hbears⟩)
    fun _ _ => List.not_mem_nil
  rw [List.append_nil] at hredefining
  have hturned : ∀ m ∈ g.nodes, m.id ∈ (g.nodesOfKind (HasSignature.signature kind).name).reverse ↔
      m.Bears (HasSignature.signature kind).name := by
    intro m hm
    rw [List.mem_reverse, mem_nodesOfKind]
    constructor
    · rintro ⟨k, hk, hid, hbears⟩
      rwa [h.ascending.id_inj hk hm hid] at hbears
    · intro hbears
      exact ⟨m, hm, rfl, hbears⟩
  refine ⟨hredefining.id, hredefining.nodeIds, ?_, fun c => ?_, fun m hm hbears m' hm' hid => ?_,
    fun m hm hbears m' hm' hid => ?_⟩
  · exact hredefining.connections ▸ List.filter_sublist
  · rw [show (g.redefine kind).1.connections = _ from hredefining.connections, List.mem_filter,
      outlives_iff]
    refine and_congr_right fun _ => forall₄_congr fun i _ q hq => ?_
    obtain ⟨m, hm, hqm⟩ := mem_allPorts.1 (portAt?_mem (port?_eq_some_iff.1 hq).2).1
    have hnode : q.node = m.id := (mem_placedPorts.1 hqm).1
    have hfound := node?_of_mem h.ascending hm
    rw [hnode, hturned m hm]
    constructor
    · intro hall k hk hbears
      exact hall (Option.some.inj (hfound.symm.trans hk) ▸ hbears)
    · intro hall hbears
      exact hall m hfound hbears
  · exact hredefining.turns h.wellFormed hm hm' hid (hid ▸ (hturned m hm).2 hbears)
  · have hnot : m'.id ∉ (g.nodesOfKind (HasSignature.signature kind).name).reverse :=
      fun hmem => hbears ((hturned m hm).1 (hid ▸ hmem))
    have hstores := hredefining.stores m hm m' hm' hid
    rw [if_neg hnot] at hstores
    exact ⟨hstores, (hredefining.waiting m hm m' hm' hid hnot).2⟩

end Results

end Graph

/-- A new definition of a kind keeps what it declares and costs the rest of the graph nothing but
connections to ports that are gone, also where nodes of the kind are connected to one another, as
long as the counter of ports is in range (see `Graph.nextPort`). -/
theorem Reachable.redefine_keeps {g : Graph Definition}
    (h : Reachable (fun k => ∃ decl : MethodDecl, decl.define = .ok k) g) (d : Definition) :
    g.Redefines d (g.redefine d).1 := by
  obtain ⟨hvalid, hevery⟩ := h.invariant
  refine hvalid.redefines fun m hm hbears => ?_
  obtain ⟨k, hk, -⟩ := hbears
  obtain ⟨decl, hdecl⟩ := (hevery m hm).1 k hk
  exact ⟨k, hk, define_addressable hdecl⟩

/-- A kind with a group and outputs of given names. -/
def MethodDecl.mixer (outs : List String) : MethodDecl where
  name := "Mixer"
  params := (outs.map fun name => .out (.value name .any)) ++ [.input (.variadic "items" .any)]
  body := some fun _ => .pure (.ok .empty)

def Definition.mixer (outs : List String) : Definition where
  signature := (MethodDecl.mixer outs).signature
  obsoleteNames := []
  obsoleteMessage := none
  behaviour := .method ⟨(MethodDecl.mixer outs).params, none, fun _ => .pure (.ok .empty)⟩

/-- Three mixers: the first feeds two slots of the second and leads to it, and the second feeds the
third, which has a default as well. -/
def mixerRow : Graph Definition :=
  let kind := .action (.mixer ["left", "right"])
  [.addNode kind, .addNode kind, .addNode kind, .connect ⟨0, 3⟩ ⟨0, 6⟩, .connect ⟨0, 4⟩ ⟨0, 15⟩,
    .connect ⟨0, 2⟩ ⟨0, 5⟩, .connect ⟨0, 9⟩ ⟨0, 11⟩,
    .setDefault ⟨3⟩ ⟨"items", some 2⟩ (.int 7)].foldl Edit.perform (.empty 0 .standard)

theorem define_mixer :
    (MethodDecl.mixer ["left", "right"]).define = .ok (.mixer ["left", "right"]) :=
  define_eq_ok.2 ⟨_, rfl, checkParams_eq_ok.2 (by decide), rfl⟩

theorem reachable_mixerRow :
    Reachable (fun k => ∃ decl : MethodDecl, decl.define = .ok k) mixerRow := by
  refine .foldl (fun e he k hk => ?_) (.blank 0 .standard)
  simp only [List.mem_cons, List.not_mem_nil, or_false] at he
  rcases he with rfl | rfl | rfl | rfl | rfl | rfl | rfl | rfl <;> cases hk <;>
    exact ⟨_, define_mixer⟩

/-- Once the mixers have only their left outputs, the slot of the second that was fed from the
right is empty, and the third keeps its default. -/
theorem redefine_keeps_mixerRow :
    mixerRow.connections = [⟨.value, 3, 6⟩, ⟨.value, 4, 15⟩, ⟨.control, 2, 5⟩, ⟨.value, 9, 11⟩] ∧
      ∃ g, (mixerRow.redefine (.mixer ["left"])).1 = g ∧
        g.connections = [⟨.value, 3, 6⟩, ⟨.control, 2, 5⟩] ∧
        (g.variadicSlots ⟨2⟩ "items").map (·.index) = [6, 15] ∧
        (g.variadicSlots ⟨3⟩ "items").map (·.index) = [11, 17, 18, 19] ∧
        mixerRow.Redefines (.mixer ["left"]) g :=
  ⟨by decide, _, rfl, by decide, by decide, by decide, reachable_mixerRow.redefine_keeps _⟩

end EffectGraph
