import EffectGraph.Proofs.Connecting
import EffectGraph.Proofs.Isolating
import EffectGraph.Proofs.Trimming

/-!
# Taking an edit back

A connection to a port that had none is taken back by disconnecting it, and a default where there
was none by clearing it. In a graph whose groups show as many slots as they should (`Tight`) this
leads back to the graph from before, but for the next port number (`Reachable.taken_back`): the
slots that came with the first edit are those that go with the second, whichever slot of the group
it is about.

The core is `reusePorts_back`: ports that are handed out among more wanted ones and then on their
own are the old ones in their order.
-/

namespace EffectGraph

open EffectGraph.Graph

/-! ## Ports handed out among more -/

/-- Old ports keep their order among more wanted ones. -/
theorem reusePorts_among (q : PortSpec → Bool) {ss : List PortSpec} {old : List Port} (next : Nat)
    (h : old.map Port.spec = ss.filter q) :
    ((reusePorts ss old next).ports.filter fun p => q p.spec) = old := by
  induction ss generalizing old next with
  | nil =>
    obtain rfl := List.map_eq_nil_iff.1 h
    rfl
  | cons s ss ih =>
    cases hs : q s with
    | true =>
      rw [List.filter_cons_of_pos hs] at h
      obtain ⟨p, rest, rfl, rfl, hrest⟩ := List.map_eq_cons_iff.1 h
      have hfits : p.spec.fits p = true := PortSpec.fits_iff.2 rfl
      simp [reusePorts, hfits, hs, ih next hrest]
    | false =>
      rw [List.filter_cons_of_neg (by simp [hs])] at h
      -- No old port fits, since all of them pass the test.
      have hnone : old.find? s.fits = none := by
        refine List.find?_eq_none.2 fun p hp hfits => ?_
        have hmem : p.spec ∈ ss.filter q := h ▸ List.mem_map_of_mem hp
        rw [PortSpec.fits_iff.1 hfits] at hmem
        simp [hs] at hmem
      have hnew : (fun p : Port => q p.spec) ⟨next, s.decl, s.slot⟩ = false := hs
      simp only [reusePorts, hnone]
      rw [List.filter_cons_of_neg (by simp [hnew]), ih (next + 1) h]

/-- A port that nothing wanted fits is passed over. -/
theorem reusePorts_cons_of_notMem {p : Port} {ss : List PortSpec} (old : List Port) (next : Nat)
    (h : p.spec ∉ ss) : (reusePorts ss (p :: old) next).ports = (reusePorts ss old next).ports := by
  induction ss generalizing old next with
  | nil => rfl
  | cons s ss ih =>
    have hnot : ¬ s.fits p = true := fun hfits => h (by
      rw [PortSpec.fits_iff.1 hfits]
      exact List.mem_cons_self)
    have hss : p.spec ∉ ss := fun hmem => h (List.mem_cons_of_mem _ hmem)
    have herase : (p :: old).eraseP s.fits = p :: old.eraseP s.fits := List.eraseP_cons_of_neg hnot
    rw [reusePorts, reusePorts, List.find?_cons_of_neg hnot, herase]
    cases old.find? s.fits with
    | none => simp only [ih old (next + 1) hss]
    | some q => simp only [ih (old.eraseP s.fits) next hss]

/-- Ports of which only some are wanted any more are those, in their order. -/
theorem reusePorts_filter (q : PortSpec → Bool) (old : List Port) (next : Nat) :
    (reusePorts ((old.map Port.spec).filter q) old next).ports = old.filter fun p => q p.spec := by
  induction old with
  | nil => rfl
  | cons p old ih =>
    cases hp : q p.spec with
    | true =>
      have hfits : p.spec.fits p = true := PortSpec.fits_iff.2 rfl
      simp [reusePorts, hfits, hp, ih]
    | false =>
      have hnot : p.spec ∉ (old.map Port.spec).filter q := fun hmem => by
        simp [hp] at hmem
      rw [List.map_cons, List.filter_cons_of_neg (by simp [hp]), reusePorts_cons_of_notMem _ _ hnot,
        ih, List.filter_cons_of_neg (by simp [hp])]

/-- Ports that are handed out among more wanted ones and then on their own are as they were. -/
theorem reusePorts_back (q : PortSpec → Bool) {ss : List PortSpec} {old : List Port}
    (next next' : Nat) (h : old.map Port.spec = ss.filter q) :
    (reusePorts (ss.filter q) (reusePorts ss old next).ports next').ports = old := by
  have hspecs := reusePorts_specs ss old next
  calc (reusePorts (ss.filter q) (reusePorts ss old next).ports next').ports
      = (reusePorts (((reusePorts ss old next).ports.map Port.spec).filter q)
          (reusePorts ss old next).ports next').ports := by rw [hspecs]
    _ = (reusePorts ss old next).ports.filter fun p => q p.spec := reusePorts_filter q _ next'
    _ = old := reusePorts_among q next h

namespace Graph

variable {κ : Type}

/-- Whether a port lies within widths of the groups. -/
def within (w : String → Nat) (s : PortSpec) : Bool := s.slot.all fun i => i < w s.decl.name

theorem filter_lt_range {a b : Nat} (h : a ≤ b) :
    ((List.range b).filter fun i => i < a) = List.range a := by
  obtain ⟨c, rfl⟩ := Nat.exists_eq_add_of_le h
  rw [List.range_add, List.filter_append, List.filter_eq_self.2, List.filter_eq_nil_iff.2,
    List.append_nil]
  · simp
  · intro i hi
    simpa using hi

variable [HasSignature κ] {g g' : Graph κ} {m m' : Node κ} {n : NodeId}

theorem filter_slotSpecs {w a : String → Nat} (hle : ∀ group, w group ≤ a group) (d : PortDecl) :
    (slotSpecs a d).filter (within w) = slotSpecs w d := by
  unfold slotSpecs
  split
  · have hcomp : (within w ∘ fun i => (⟨d, some i⟩ : PortSpec)) = fun i => decide (i < w d.name) :=
      rfl
    rw [List.filter_map, hcomp, filter_lt_range (hle d.name)]
  · rfl

/-- The ports within smaller widths are found in their order among those within larger ones. -/
theorem filter_inputShape {w a : String → Nat} (hle : ∀ group, w group ≤ a group) :
    (g.inputShape m a).filter (within w) = g.inputShape m w := by
  have hsingle : ∀ d, within w (.single d) = true := fun d => rfl
  unfold inputShape
  cases m.kind with
  | action k =>
    have hflat : ∀ ds : List PortDecl,
        (ds.flatMap (slotSpecs a)).filter (within w) = ds.flatMap (slotSpecs w) := by
      intro ds
      induction ds with
      | nil => rfl
      | cons d ds ih =>
        rw [List.flatMap_cons, List.filter_append, filter_slotSpecs hle, ih, List.flatMap_cons]
    simp only [PortSpec.control]
    rw [List.filter_cons_of_pos (hsingle _), hflat]
  | entry => rfl
  | result =>
    refine List.filter_eq_self.2 fun s hs => ?_
    rcases List.mem_cons.1 hs with rfl | hs
    · rfl
    · obtain ⟨d, -, rfl⟩ := List.mem_map.1 hs
      exact hsingle d

/-! ## A node in the place of another -/

/-- A graph with another node in the place of the one of its id, and another next port number. -/
def withNode (g : Graph κ) (m : Node κ) (next : Nat) : Graph κ :=
  { g with nodes := g.nodes.map fun k => if k.id = m.id then m else k, nextPort := next }

/-- A graph with other connections and with other defaults on a node. -/
def altered (g : Graph κ) (n : NodeId) (l : List Connection)
    (f : Table SlotKey Value → Table SlotKey Value) : Graph κ :=
  { g.updateNode n (.mapDefaults f) with connections := l }

variable {l : List Connection} {f u : Table SlotKey Value → Table SlotKey Value}

omit [HasSignature κ] in
theorem ascending_of_nodeIds (h : g.Ascending) (hids : g'.nodeIds = g.nodeIds) : g'.Ascending := by
  rw [ascending_iff, hids]
  exact (ascending_iff g).1 h

omit [HasSignature κ] in
theorem nodeIds_withNode (g : Graph κ) (m : Node κ) (next : Nat) :
    (g.withNode m next).nodeIds = g.nodeIds := by
  simp only [nodeIds, withNode, List.map_map]
  refine List.map_congr_left fun k _ => ?_
  simp only [Function.comp_apply]
  split
  next hid => exact hid.symm
  next => rfl

omit [HasSignature κ] in
theorem ascending_altered (h : g.Ascending) : (g.altered n l f).Ascending :=
  ascending_of_nodeIds h (nodeIds_updateNode fun _ => rfl)

omit [HasSignature κ] in
theorem mem_nodes_withNode (hm : m ∈ g.nodes) (m' : Node κ) (hid : m'.id = m.id) (next : Nat) :
    m' ∈ (g.withNode m' next).nodes :=
  List.mem_map.2 ⟨m, hm, if_pos hid.symm⟩

omit [HasSignature κ] in
theorem node?_altered (h : g.Ascending) (hm : m ∈ g.nodes) :
    (g.altered m.id l f).node? m.id = some (m.mapDefaults f) :=
  node?_of_mem (ascending_altered h) (mem_nodes_updateNode.2 ⟨m, hm, if_pos rfl⟩)

omit [HasSignature κ] in
/-- A node that is put back where it was leaves the graph as it was, whatever stood in its place
meanwhile. -/
theorem withNode_back (h : g.Ascending) (hm : m ∈ g.nodes) (hid : m'.id = m.id) (next next' : Nat) :
    (((g.altered m.id l f).withNode m' next).altered m.id g.connections u).withNode m next' =
      { g with nextPort := next' } := by
  have hback : ∀ k ∈ g.nodes, k.id = m.id → m = k := fun k hk hkm => h.id_inj hm hk hkm.symm
  simp only [withNode, altered, updateNode, List.map_map, Graph.mk.injEq, and_true, true_and]
  refine (List.map_congr_left fun k hk => ?_).trans (List.map_id _)
  by_cases hkm : k.id = m.id
  · simp [hid, hkm, Node.mapDefaults, hback k hk hkm]
  · simp [hid, hkm]

/-- A reshape that costs no connection puts the node in shape in the place of the node. -/
theorem Keeps.reshape_eq_withNode (hkeeps : g.Keeps n) (h : g.Ascending) (hm : g.node? n = some m) :
    g.reshape n = g.withNode (g.shapedNode m) (g.reusedOutputs m).nextPort := by
  obtain ⟨hmem, rfl⟩ := node?_mem hm
  have hconnections : (g.connections.filter fun c => !g.loses m c) = g.connections :=
    List.filter_eq_self.2 fun c hc => by simp [hkeeps m hm c hc]
  have hnodes : (g.updateNode m.id fun k =>
      { k with inputs := (g.reusedInputs m).ports, outputs := (g.reusedOutputs m).ports }).nodes =
        (g.withNode (g.shapedNode m) (g.reusedOutputs m).nextPort).nodes := by
    refine List.map_congr_left fun k hk => ?_
    by_cases hkm : k.id = m.id
    · obtain rfl := h.id_inj hk hmem hkm
      simp only [shapedNode_id, if_true]
      rfl
    · simp only [shapedNode_id, hkm, if_false]
  rw [hkeeps.reshape_eq, reshapeOne_of_node? hm, hnodes, hconnections]
  rfl

theorem Keeps.nextPort_le (hkeeps : g.Keeps n) (h : g.Ascending) :
    g.nextPort ≤ (g.reshape n).nextPort := by
  rw [hkeeps.reshape_eq]
  exact (reshapes_reshapeOne h n).nextPort

/-! ## There and back -/

/-- A formed node whose slots lie below the limit loses no connection in a reshape. -/
theorem Formed.keeps (hform : g.Formed m) (hm : g.node? n = some m)
    (hslots : ∀ p ∈ m.inputs, ∀ i, p.slot = some i → i < slotLimit) : g.Keeps n := by
  intro k hk c hc
  obtain rfl := Option.some.inj (hm.symm.trans hk)
  exact hform.not_loses hslots hc

/-- A node in shape keeps its outputs. -/
theorem Formed.reusedOutputs (hform : g.Formed m) : (g.reusedOutputs m).ports = m.outputs := by
  have hsame := reusePorts_specs_self m.outputs (g.reusedInputs m).nextPort
  rw [hform.outputs] at hsame
  exact congrArg Reused.ports hsame

/-- A node that is reshaped is formed. -/
theorem formed_shapedNode (g : Graph κ) (m : Node κ) : g.Formed (g.shapedNode m) :=
  ⟨reusePorts_specs _ _ _, g.arity m, (reusePorts_specs _ _ _).trans (wantedInputs_eq g m)⟩

theorem slot_lt_shapedNode {p : Port} (hp : p ∈ (g.shapedNode m).inputs) {i : Nat}
    (hi : p.slot = some i) : i < slotLimit := by
  have hwanted := spec_mem_of_mem_reusedInputs hp
  rw [wantedInputs_eq] at hwanted
  exact Nat.lt_of_lt_of_le (mem_inputShape hwanted (i := i) hi).1 (arityOf_le _)

/-- A node that has the inputs it wants has them back if it is reshaped with more slots in use and
then with those that were in use before. -/
theorem Trim.reusedInputs_back (htrim : g.Trim m) (g₁ : Graph κ) (m₁ : Node κ) {g₂ : Graph κ}
    {m₂ : Node κ} (hsignature₁ : g₁.signature = g.signature) (hkind₁ : m₁.kind = m.kind)
    (hinputs₁ : m₁.inputs = m.inputs) (harity₁ : ∀ group, g.arity m group ≤ g₁.arity m₁ group)
    (hsignature₂ : g₂.signature = g.signature) (hkind₂ : m₂.kind = m.kind)
    (hinputs₂ : m₂.inputs = (g₁.reusedInputs m₁).ports) (harity₂ : g₂.arity m₂ = g.arity m) :
    (g₂.reusedInputs m₂).ports = m.inputs := by
  have hwanted₁ : g₁.wantedInputs m₁ = g.inputShape m (g₁.arity m₁) :=
    (wantedInputs_eq g₁ m₁).trans (inputShape_congr hsignature₁ hkind₁ _)
  have hwanted₂ : g₂.wantedInputs m₂ = g.inputShape m (g.arity m) := by
    rw [wantedInputs_eq, inputShape_congr hsignature₂ hkind₂, harity₂]
  have hold : m.inputs.map Port.spec =
      (g.inputShape m (g₁.arity m₁)).filter (within (g.arity m)) := by
    rw [filter_inputShape harity₁, htrim, wantedInputs_eq]
  have hback := reusePorts_back (within (g.arity m)) g₁.nextPort g₂.nextPort hold
  rw [filter_inputShape harity₁] at hback
  rwa [reusedInputs, hinputs₂, reusedInputs, hwanted₂, hwanted₁, hinputs₁]

/-- The slots in use are those from before once what was added has been taken away, although the
node has been reshaped meanwhile. -/
theorem Valid.arity_back (h : g.Valid []) (hmem : m ∈ g.nodes) (hadded : g.connections ⊆ l)
    (hback : u (f m.defaults) = m.defaults) (hconnections : g'.connections = g.connections) :
    g'.arity (((g.altered n l f).shapedNode (m.mapDefaults f)).mapDefaults u) = g.arity m := by
  have hform : (g.altered n l f).Formed (m.mapDefaults f) :=
    (h.shaped m hmem List.not_mem_nil).formed.congr rfl rfl rfl rfl
  have hwired : ∀ i, g'.isWired i = g.isWired i := fun i => by rw [isWired, isWired, hconnections]
  funext group
  refine arityOf_congr fun i => ?_
  rw [mem_usedSlots, mem_usedSlots]
  refine or_congr ⟨?_, ?_⟩ ?_
  -- A new port has a number that no connection ends at.
  · rintro ⟨p, hp, hname, hslot, hw⟩
    rw [hwired] at hw
    refine ⟨p, (mem_of_mem_reusePorts hp).resolve_right fun hnew => ?_, hname, hslot, hw⟩
    obtain ⟨q, hq, hqi⟩ := h.wellFormed.mem_of_isWired hw
    have hused := h.wellFormed.used q hq
    have hnext : g.nextPort ≤ p.index := hnew
    omega
  -- And a connected one is not dropped, since it was connected during the reshape too.
  · rintro ⟨p, hp, hname, hslot, hw⟩
    refine ⟨p, (mem_reusePorts_of_mem_old _ _ hp).resolve_right fun hdropped => ?_, hname, hslot,
      (hwired _).trans hw⟩
    have hspare := hform.isWired_of_mem_droppedPorts (h.slots_inputs (m := m) hmem)
      (List.mem_append_left _ hdropped)
    rw [isWired_of_subset (g := g.altered n l f) hadded hw] at hspare
    exact Bool.noConfusion hspare
  · have hdefaults : (((g.altered n l f).shapedNode (m.mapDefaults f)).mapDefaults u).defaults =
        m.defaults := hback
    rw [Node.Reserves, Node.Reserves, hdefaults]
    rfl

omit [HasSignature κ] in
/-- More slots are in use once connections and defaults have been added. -/
theorem arity_le_altered (hadded : g.connections ⊆ l)
    (hkeys : ∀ k ∈ m.defaults.keys, k ∈ (f m.defaults).keys) (group : String) :
    g.arity m group ≤ (g.altered n l f).arity (m.mapDefaults f) group := by
  refine arityOf_mono fun i hi => ?_
  rw [mem_usedSlots] at hi ⊢
  rcases hi with ⟨p, hp, hname, hslot, hw⟩ | hi | hi
  · exact .inl ⟨p, hp, hname, hslot, isWired_of_subset (g := g.altered n l f) hadded hw⟩
  · exact .inr (.inl (hkeys _ hi))
  · exact .inr (.inr hi)

/-- A node that has the inputs it wants is as it was once connections and defaults that were added
have been taken away again and it has been reshaped both times. -/
theorem Valid.shapedNode_back (h : g.Valid []) (g' : Graph κ) (hmem : m ∈ g.nodes)
    (htrim : g.Trim m) (hadded : g.connections ⊆ l)
    (hkeys : ∀ k ∈ m.defaults.keys, k ∈ (f m.defaults).keys)
    (hback : u (f m.defaults) = m.defaults) (hsignature : g'.signature = g.signature)
    (hconnections : g'.connections = g.connections) :
    g'.shapedNode (((g.altered n l f).shapedNode (m.mapDefaults f)).mapDefaults u) = m := by
  have hform : (g.altered n l f).Formed (m.mapDefaults f) :=
    (h.shaped m hmem List.not_mem_nil).formed.congr rfl rfl rfl rfl
  have hform' : g'.Formed (((g.altered n l f).shapedNode (m.mapDefaults f)).mapDefaults u) :=
    (formed_shapedNode (g.altered n l f) (m.mapDefaults f)).congr hsignature rfl rfl rfl
  have harity := h.arity_back (n := n) hmem hadded hback hconnections
  have hinputs : (g'.reusedInputs (((g.altered n l f).shapedNode
      (m.mapDefaults f)).mapDefaults u)).ports = m.inputs :=
    htrim.reusedInputs_back (g.altered n l f) (m.mapDefaults f) rfl rfl rfl
      (arity_le_altered hadded hkeys) hsignature rfl rfl harity
  have houtputs := hform'.reusedOutputs.trans hform.reusedOutputs
  rw [shapedNode, hinputs, houtputs]
  show { m with defaults := u (f m.defaults) } = m
  rw [hback]

/-- What is added to a graph or taken away from it costs a formed node no connection in a reshape,
which puts the node in shape in its place. -/
theorem Formed.reshape_altered (hform : g.Formed m) (h : g.Ascending) (hmem : m ∈ g.nodes)
    (hslots : ∀ p ∈ m.inputs, ∀ i, p.slot = some i → i < slotLimit) :
    ∃ next, g.nextPort ≤ next ∧ (g.altered m.id l f).reshape m.id =
      (g.altered m.id l f).withNode ((g.altered m.id l f).shapedNode (m.mapDefaults f)) next := by
  have hasc : (g.altered m.id l f).Ascending := ascending_altered h
  have hm := node?_altered (l := l) (f := f) h hmem
  have hform' : (g.altered m.id l f).Formed (m.mapDefaults f) := hform.congr rfl rfl rfl rfl
  have hkeeps := hform'.keeps hm hslots
  have hreshape := hkeeps.reshape_eq_withNode hasc hm
  have hnext := hkeeps.nextPort_le hasc
  rw [hreshape] at hnext
  exact ⟨_, hnext, hreshape⟩

/-- A graph is as it was, if the node has the inputs it wants, once connections and defaults that
were added have been taken away again and the node has been reshaped both times. -/
theorem Valid.altered_back (h : g.Valid []) (hmem : m ∈ g.nodes) (htrim : g.Trim m)
    (hadded : g.connections ⊆ l) (hkeys : ∀ k ∈ m.defaults.keys, k ∈ (f m.defaults).keys)
    (hback : u (f m.defaults) = m.defaults) :
    ∃ i, g.nextPort ≤ i ∧
      (((g.altered m.id l f).reshape m.id).altered m.id g.connections u).reshape m.id =
        { g with nextPort := i } := by
  have hform := (h.shaped m hmem List.not_mem_nil).formed
  obtain ⟨next, hnext, hreshape⟩ := hform.reshape_altered (l := l) (f := f) h.ascending hmem
    (h.slots_inputs hmem)
  rw [hreshape]
  generalize hshaped : (g.altered m.id l f).shapedNode (m.mapDefaults f) = shaped
  have hid : shaped.id = m.id := hshaped ▸ rfl
  have hform' : ((g.altered m.id l f).withNode shaped next).Formed shaped :=
    hshaped ▸ (formed_shapedNode (g.altered m.id l f) _).congr rfl rfl rfl rfl
  have hasc : ((g.altered m.id l f).withNode shaped next).Ascending :=
    ascending_of_nodeIds (ascending_altered h.ascending) (nodeIds_withNode _ _ _)
  have hplace : shaped ∈ ((g.altered m.id l f).withNode shaped next).nodes :=
    mem_nodes_withNode (node?_mem (node?_altered h.ascending hmem)).1 _ hid _
  obtain ⟨next', hnext', hreshape'⟩ := hform'.reshape_altered (l := g.connections) (f := u) hasc
    hplace fun p hp i hi => slot_lt_shapedNode (hshaped ▸ hp) hi
  have hback' := h.shapedNode_back (n := m.id) (((g.altered m.id l f).withNode shaped next).altered
    m.id g.connections u) hmem htrim hadded hkeys hback rfl rfl
  rw [hshaped] at hback'
  rw [hid, hback', withNode_back h.ascending hmem hid] at hreshape'
  exact ⟨next', Nat.le_trans hnext hnext', hreshape'⟩

omit [HasSignature κ] in
/-- What is added and taken away again without a reshape leaves the graph as it was. -/
theorem altered_altered (h : g.Ascending) (hmem : m ∈ g.nodes)
    (hback : u (f m.defaults) = m.defaults) :
    (g.altered m.id l f).altered m.id g.connections u = g := by
  have hsame : ∀ k ∈ g.nodes, k.id = m.id → (k.mapDefaults f).mapDefaults u = k := by
    intro k hk hid
    obtain rfl := h.id_inj hk hmem hid
    show { k with defaults := u (f k.defaults) } = k
    rw [hback]
  have hnodes : ((g.altered m.id l f).altered m.id g.connections u).nodes = g.nodes := by
    simp only [altered, updateNode, List.map_map]
    refine (List.map_congr_left fun k hk => ?_).trans (List.map_id _)
    by_cases hid : k.id = m.id
    · have hid' : (k.mapDefaults f).id = m.id := hid
      simp only [Function.comp_apply, hid, if_true, hid', id_eq, hsame k hk hid]
    · simp only [Function.comp_apply, hid, if_false, id_eq]
  calc (g.altered m.id l f).altered m.id g.connections u
      = { g with nodes := ((g.altered m.id l f).altered m.id g.connections u).nodes } := rfl
    _ = g := by rw [hnodes]

/-- The same where the node is reshaped both times or not at all. -/
theorem Valid.altered_back_if (h : g.Valid []) (hmem : m ∈ g.nodes) (htrim : g.Trim m)
    (hadded : g.connections ⊆ l) (hkeys : ∀ k ∈ m.defaults.keys, k ∈ (f m.defaults).keys)
    (hback : u (f m.defaults) = m.defaults) (b : Bool) :
    ∃ i, g.nextPort ≤ i ∧ (((g.altered m.id l f).reshapeIf m.id b).altered m.id g.connections
      u).reshapeIf m.id b = { g with nextPort := i } := by
  cases b with
  | true => exact h.altered_back hmem htrim hadded hkeys hback
  | false => exact ⟨g.nextPort, Nat.le_refl _, altered_altered h.ascending hmem hback⟩

/-! ## Groups of the width they should have -/

/-- Every variadic group, of values or of controls, shows the slots up to the highest one in use and
one more, within the limit of 256, and one slot if none is in use. -/
def Tight (g : Graph κ) : Prop := ∀ m ∈ g.nodes, ∀ d, m.HasGroup d → g.ExactAt m d

/-- In a tight graph a node that holds no slot open has the inputs that it wants. -/
theorem Valid.trim_of_tight (h : g.Valid []) (ht : g.Tight) (hmem : m ∈ g.nodes)
    (hdistinct : m.Distinct) (hheld : m.held = .empty) : g.Trim m := by
  obtain ⟨w, hw⟩ := (h.shaped m hmem List.not_mem_nil).formed.inputs
  have hwidth : ∀ d, m.HasGroup d → w d.name = g.arity m d.name := fun d hd =>
    (width_of_shape hw hdistinct hd).symm.trans
      ((settledAt_iff_exactAt h.ascending hmem hheld d).2 (ht m hmem d hd))
  rw [Trim, hw, wantedInputs_eq]
  unfold inputShape
  cases hk : m.kind with
  | action k =>
    have hslots : ∀ d ∈ (HasSignature.signature k).inputs,
        slotSpecs w d = slotSpecs (g.arity m) d := by
      intro d hd
      unfold slotSpecs
      split
      next hv => rw [hwidth d ⟨k, hk, hd, hv⟩]
      next => rfl
    simp only [List.flatMap_congr hslots]
  | entry => rfl
  | result => rfl

end Graph

/-! ## Connections -/

namespace Graph

variable {g g' : Graph Definition} {m : Node Definition} {a b : PortId} {j : Joint}

/-- Of two ports, those that admit one connection only have none. -/
def Vacant (g : Graph Definition) (a b : PortId) : Prop :=
  ∀ p q, p = a ∨ p = b → g.port? p = some q → q.role = .valueInput ∨ q.role = .controlOutput →
    g.isConnected p = false

/-- The end of a joint that admits one connection only. -/
def Joint.lone (j : Joint) : PlacedPort :=
  match j.kind with
  | .value => j.destination
  | .control => j.source

theorem Joint.touches_lone {c : Connection} (h : j.replaces c = true) :
    c.touches j.lone.port.index = true := by
  unfold Joint.replaces at h
  unfold Joint.lone Connection.touches
  cases hk : j.kind <;> simp only [hk, decide_eq_true_eq] at h <;> simp [h]

theorem Joins.lone (h : g.Joins j.connection j.source j.destination) :
    j.lone ∈ g.allPorts ∧ (j.lone.role = .valueInput ∨ j.lone.role = .controlOutput) := by
  unfold Joint.lone
  cases hk : j.kind with
  | value =>
    have hvalue : ¬ j.destination.port.decl.isControl = true := fun hcontrol =>
      nomatch hk.symm.trans (h.destination_control.1 hcontrol)
    exact ⟨h.destination_mem, .inl ((PlacedPort.role_eq_iff .input false).2
      ⟨h.destination_input, Bool.eq_false_iff.2 hvalue⟩)⟩
  | control =>
    exact ⟨h.source_mem, .inr ((PlacedPort.role_eq_iff .output true).2
      ⟨h.source_output, h.source_control.2 hk⟩)⟩

/-- A connection between two ports ends at both. -/
theorem touches_of_between {c : Connection} (h : between a b c = true) :
    c.touches a.index = true ∧ c.touches b.index = true := by
  simp only [between, Bool.or_eq_true, Bool.and_eq_true, decide_eq_true_eq] at h
  rcases h with ⟨hs, hd⟩ | ⟨hs, hd⟩ <;> simp [Connection.touches, hs, hd]

theorem between_comm (a b : PortId) : between a b = between b a := by
  funext c
  exact Bool.or_comm _ _

/-- Two ports may be given in either order to disconnect them. -/
theorem disconnect_comm {r : Graph Definition × Bool} :
    g.disconnect a b = .ok r ↔ g.disconnect b a = .ok r := by
  rw [disconnect_eq_ok, disconnect_eq_ok, between_comm]
  refine and_congr_left fun _ => ?_
  constructor <;> rintro ⟨p, q, hp, hq⟩ <;> exact ⟨q, p, hq, hp⟩

/-- No connection ends at the lone end of a joint between vacant ports. -/
theorem Vacant.touches_lone (h : g.Vacant a b) (hg : g.WellFormed)
    (hcheck : g.checkConnection a b = .ok j) {c : Connection} (hc : c ∈ g.connections) :
    (j.lone.port.index = a.index ∨ j.lone.port.index = b.index) ∧
      c.touches j.lone.port.index = false := by
  obtain ⟨hmem, hrole⟩ := (Joins.of_checkConnection hcheck).lone
  have hid : g.portId j.lone.port.index = a ∨ g.portId j.lone.port.index = b := by
    unfold Joint.lone
    rcases hg.ends_of_checkConnection hcheck with ⟨ha, hb⟩ | ⟨hb, ha⟩ <;> cases j.kind <;>
      simp [ha, hb]
  have hunwired := h _ _ hid (hg.port?_portId hmem) hrole
  have hnone : ∀ c ∈ g.connections, ¬ c.touches j.lone.port.index = true := by
    simpa [isConnected, portId, isWired] using hunwired
  exact ⟨hid.imp (congrArg PortId.index) (congrArg PortId.index), Bool.eq_false_iff.2 (hnone c hc)⟩

/-- No connection gives way to one between vacant ports. -/
theorem Vacant.not_replaces (h : g.Vacant a b) (hg : g.WellFormed)
    (hcheck : g.checkConnection a b = .ok j) {c : Connection} (hc : c ∈ g.connections) :
    j.replaces c = false := by
  have hlone := (h.touches_lone hg hcheck hc).2
  refine Bool.eq_false_iff.2 fun hr => ?_
  rw [Joint.touches_lone hr] at hlone
  exact Bool.noConfusion hlone

/-- And none joins them already. -/
theorem Vacant.not_between (h : g.Vacant a b) (hg : g.WellFormed)
    (hcheck : g.checkConnection a b = .ok j) {c : Connection} (hc : c ∈ g.connections) :
    between a b c = false := by
  obtain ⟨hend, hlone⟩ := h.touches_lone hg hcheck hc
  refine Bool.eq_false_iff.2 fun hbetween => ?_
  obtain ⟨ha, hb⟩ := touches_of_between hbetween
  rcases hend with he | he
  · rw [he, ha] at hlone
    exact Bool.noConfusion hlone
  · rw [he, hb] at hlone
    exact Bool.noConfusion hlone

/-- A connection between the ends of a joint is between the ports given. -/
theorem WellFormed.between_of_ends (hg : g.WellFormed) (hcheck : g.checkConnection a b = .ok j)
    {c : Connection} (hsource : c.source = j.source.port.index)
    (hdestination : c.destination = j.destination.port.index) : between a b c = true := by
  rcases hg.ends_of_checkConnection hcheck with ⟨rfl, rfl⟩ | ⟨rfl, rfl⟩ <;>
    simp [between, portId, hsource, hdestination]

/-- Whether a joint may resize the node that it leads to. -/
def Joint.mayResize (j : Joint) (m : Node Definition) : Bool :=
  decide (j.kind = .value) && m.hasVariadic

theorem altered_id (g : Graph Definition) (n : NodeId) (l : List Connection) :
    g.altered n l (fun t => t) = { g with connections := l } := by
  have hmap : ∀ m : Node Definition, m.mapDefaults (fun t => t) = m := fun m => rfl
  simp [altered, updateNode, hmap]

theorem refresh_one (g : Graph Definition) (n : NodeId) :
    g.refresh [n] = g.reshapeIf n ((g.node? n).any (·.hasVariadic)) := rfl

/-- A joint between vacant ports adds a connection and drops none. -/
theorem Vacant.linked_eq (h : g.Vacant a b) (hg : g.WellFormed)
    (hcheck : g.checkConnection a b = .ok j) :
    g.linked j = { g with connections := g.connections ++ [j.connection] } := by
  have hkept : (g.connections.filter fun c => !j.replaces c) = g.connections :=
    List.filter_eq_self.2 fun c hc => by simp [h.not_replaces hg hcheck hc]
  simp only [linked, sever, hkept]

/-- A joint between vacant ports adds a connection and reshapes the node that it leads to if it has
a group. -/
theorem Vacant.join_eq (h : g.Vacant a b) (hg : g.WellFormed)
    (hcheck : g.checkConnection a b = .ok j) (hm : m ∈ g.nodes) (hid : j.destination.node = m.id) :
    g.join j = (g.altered m.id (g.connections ++ [j.connection]) fun t => t).reshapeIf m.id
      (j.mayResize m) := by
  rcases Graph.join_eq g j with ⟨-, c, hc, hsource, hdestination⟩ | ⟨-, he⟩
  · have hbetween := hg.between_of_ends hcheck hsource hdestination
    rw [h.not_between hg hcheck hc] at hbetween
    exact Bool.noConfusion hbetween
  · have hnone : g.connections.filter j.replaces = [] :=
      List.filter_eq_nil_iff.2 fun c hc => by simp [h.not_replaces hg hcheck hc]
    have hlinked := h.linked_eq hg hcheck
    have hnode : ({ g with connections := g.connections ++ [j.connection] } : Graph _).node? m.id =
        some m := node?_of_mem hg.ascending hm
    rw [he, severed, hnone, hlinked, altered_id, Joint.mayResize]
    cases hk : j.kind with
    | value =>
      simp only [List.filterMap_nil, List.nil_append, hid, refresh_one, hnode, Option.any_some,
        decide_true, Bool.true_and]
    | control => rfl

/-- After a joint between vacant ports the new connection is the one between them. -/
theorem Vacant.spares_join (h : g.Vacant a b) (hv : g.Valid [])
    (hcheck : g.checkConnection a b = .ok j) : (g.linked j).Spares (g.join j) := by
  refine (hv.spares_join (.of_checkConnection hcheck)).resolve_left fun ⟨hmem, _⟩ => ?_
  have hbetween := hv.wellFormed.between_of_ends hcheck (c := j.connection) rfl rfl
  rw [h.not_between hv.wellFormed hcheck hmem] at hbetween
  exact Bool.noConfusion hbetween

/-- The node that a joint leads to is there afterwards, of the same kind. -/
theorem Vacant.mem_nodes_join (h : g.Vacant a b) (hv : g.Valid [])
    (hcheck : g.checkConnection a b = .ok j) (hm : m ∈ g.nodes) :
    ∃ m' ∈ (g.join j).nodes, m'.id = m.id ∧ m'.hasVariadic = m.hasVariadic := by
  obtain ⟨m', hm', hbare⟩ := (h.spares_join hv hcheck).image hm
  have hkind : m'.kind = m.kind := congrArg (fun k => k.kind) hbare
  refine ⟨m', hm', congrArg (fun k => k.id) hbare, ?_⟩
  simp only [Node.hasVariadic, Node.signature?, hkind]

/-- The connection of a joint may resize the node that it leads to if it carries a value and the
node has a group. -/
theorem Valid.resizedBy?_join (hv : g.Valid []) (h : g.Vacant a b)
    (hcheck : g.checkConnection a b = .ok j) (hm : m ∈ g.nodes) (hid : j.destination.node = m.id) :
    (g.join j).resizedBy? j.connection = if j.mayResize m then some m.id else none := by
  have hjoins := Joins.of_checkConnection hcheck
  have hv' := hv.join hjoins
  obtain ⟨m', hm', hid', hgroup⟩ := h.mem_nodes_join hv hcheck hm
  have hnode : (g.join j).node? m.id = some m' := hid' ▸ node?_of_mem hv'.ascending hm'
  have hport : (g.join j).portAt? j.connection.destination = some j.destination :=
    hv'.wellFormed.portAt?_eq_some_iff.2 ⟨(hv.joins_join hjoins).2.destination_mem, rfl⟩
  have hwired : j.connection.kind = j.kind := rfl
  unfold resizedBy? Joint.mayResize
  rw [hwired, hport]
  cases j.kind with
  | value => simp [hid, hnode, hgroup, hid']
  | control => simp

/-- Cutting the connection of a joint between vacant ports takes it away again and reshapes the node
that it led to if it has a group. -/
theorem Valid.cut_join (hv : g.Valid []) (h : g.Vacant a b)
    (hcheck : g.checkConnection a b = .ok j) (hm : m ∈ g.nodes) (hid : j.destination.node = m.id) :
    (g.join j).cut (between a b) [] =
      (((g.join j).altered m.id g.connections fun t => t).reshapeIf m.id (j.mayResize m), 1) := by
  have hnot : ∀ c ∈ g.connections, between a b c = false := fun c hc =>
    h.not_between hv.wellFormed hcheck hc
  have hbetween : between a b j.connection = true := hv.wellFormed.between_of_ends hcheck rfl rfl
  have hconnections : (g.join j).connections = g.connections ++ [j.connection] := by
    rw [(h.spares_join hv hcheck).wires, h.linked_eq hv.wellFormed hcheck]
  have hkept : ((g.join j).connections.filter fun c => !between a b c) = g.connections := by
    rw [hconnections, List.filter_append, List.filter_eq_self.2 fun c hc => by simp [hnot c hc]]
    simp [hbetween]
  have hcut : (g.join j).connections.filter (between a b) = [j.connection] := by
    rw [hconnections, List.filter_append, List.filter_eq_nil_iff.2 fun c hc => by simp [hnot c hc]]
    simp [hbetween]
  have hcount : (g.join j).connections.countP (between a b) = 1 := by
    rw [List.countP_eq_length_filter, hcut]
    rfl
  have hsevered : (g.join j).sever (between a b) =
      (g.join j).altered m.id g.connections fun t => t := by
    rw [altered_id, Graph.sever, hkept]
  have hresized : (g.join j).severed (between a b) = if j.mayResize m then [m.id] else [] := by
    rw [severed, hcut, List.filterMap_cons, hv.resizedBy?_join h hcheck hm hid]
    cases j.mayResize m <;> rfl
  have hall : ∀ l : List NodeId, (l.filter fun n => !([] : List NodeId).contains n) = l :=
    fun l => List.filter_eq_self.2 fun _ _ => rfl
  rw [Graph.cut, hresized, hcount, hsevered, hall]
  cases hr : j.mayResize m with
  | false => rfl
  | true =>
    obtain ⟨m', hm', hid', hgroup⟩ := h.mem_nodes_join hv hcheck hm
    have hnode := node?_altered (l := g.connections) (f := fun t => t)
      (hv.join (.of_checkConnection hcheck)).ascending hm'
    have hvariadic : (m'.mapDefaults fun t => t).hasVariadic = true := by
      rw [Joint.mayResize, Bool.and_eq_true] at hr
      exact hgroup.trans hr.2
    rw [hid'] at hnode
    simp only [if_true, refresh_one, hnode, Option.any_some, hvariadic]

/-- A connection between vacant ports is taken back by disconnecting them. -/
theorem Valid.disconnect_join (hv : g.Valid []) (h : g.Vacant a b)
    (hcheck : g.checkConnection a b = .ok j) (htrim : ∀ m ∈ g.nodes, g.Trim m) :
    ∃ i, g.nextPort ≤ i ∧ (g.join j).disconnect a b = .ok ({ g with nextPort := i }, true) := by
  have hjoins := Joins.of_checkConnection hcheck
  obtain ⟨m, hm, hid, -⟩ := exists_of_input hjoins.destination_mem hjoins.destination_input
  obtain ⟨i, hnext, hback⟩ := hv.altered_back_if (l := g.connections ++ [j.connection])
    (f := fun t => t) (u := fun t => t) hm (htrim m hm) (List.subset_append_left _ _)
    (fun _ hk => hk) rfl (j.mayResize m)
  rw [← h.join_eq hv.wellFormed hcheck hm hid] at hback
  obtain ⟨p, q, hp, hq, -⟩ := checkConnection_eq_ok.1 hcheck
  obtain ⟨hpa, hpb⟩ := hv.port?_join hcheck
  refine ⟨i, hnext, disconnect_eq_ok.2 ⟨⟨p, q, hpa.trans hp, hpb.trans hq⟩, ?_⟩⟩
  rw [hv.cut_join h hcheck hm hid, hback]
  rfl

/-! ## Defaults -/

/-- The node after a default is set. -/
theorem Valid.mem_nodes_setDefault (hv : g.Valid []) {n : NodeId} {k : SlotKey} {v : Value}
    (hs : g.setDefault n k v = .ok g') (hm : g.node? n = some m) :
    g'.signature = g.signature ∧ g'.connections = g.connections ∧
      ∃ m' ∈ g'.nodes, m'.bare = (m.mapDefaults (·.insert k v)).bare := by
  obtain ⟨hmem, rfl⟩ := node?_mem hm
  obtain ⟨-, rfl⟩ := setDefault_eq_ok.1 hs
  have hmem₁ : m.mapDefaults (·.insert k v) ∈
      (g.updateNode m.id (.mapDefaults (·.insert k v))).nodes :=
    mem_nodes_updateNode.2 ⟨m, hmem, if_pos rfl⟩
  unfold reshapeIf
  split
  · have hform : (g.altered m.id g.connections (·.insert k v)).Formed
        (m.mapDefaults (·.insert k v)) :=
      (hv.shaped m hmem List.not_mem_nil).formed.congr rfl rfl rfl rfl
    have hkeeps := hform.keeps (node?_altered hv.ascending hmem) (hv.slots_inputs (m := m) hmem)
    have hwf : (g.updateNode m.id (.mapDefaults (·.insert k v))).WellFormed :=
      hv.wellFormed.updateNode (fun _ => rfl) (fun _ => rfl) fun _ => rfl
    have hreshapes := reshapes_reshape hwf m.id
    exact ⟨hreshapes.signature, hkeeps.connections_reshape, hreshapes.image hmem₁⟩
  · exact ⟨rfl, rfl, _, hmem₁, rfl⟩

/-- A default that replaced none is taken back by clearing it. -/
theorem Valid.clearDefault_setDefault (hv : g.Valid []) {n : NodeId} {k : SlotKey} {v : Value}
    (hs : g.setDefault n k v = .ok g') (htrim : ∀ m ∈ g.nodes, g.Trim m)
    (hnone : ∀ m, g.node? n = some m → m.defaults.get? k = none) :
    ∃ i, g.nextPort ≤ i ∧ g'.clearDefault n k = .ok ({ g with nextPort := i }, some v) := by
  obtain ⟨hcheck, he⟩ := setDefault_eq_ok.1 hs
  obtain ⟨m, d, hm, hd, hgroup, -, hlimit⟩ := checkSlot_eq_ok.1 hcheck
  obtain ⟨hsignature, hconnections, m', hm', hbare⟩ := hv.mem_nodes_setDefault hs hm
  obtain ⟨hmem, rfl⟩ := node?_mem hm
  have hid : m'.id = m.id := congrArg (fun k => k.id) hbare
  have hkind : m'.kind = m.kind := congrArg (fun k => k.kind) hbare
  have hdefaults : m'.defaults = m.defaults.insert k v := congrArg (fun k => k.defaults) hbare
  have hnode : g'.node? m.id = some m' := hid ▸ node?_of_mem (hv.setDefault hs).ascending hm'
  have hcheck' : g'.checkSlot m.id k = .ok k.index.isSome := by
    refine checkSlot_eq_ok.2 ⟨m', d, hnode, ?_, hgroup, rfl, hlimit⟩
    rw [← hd]
    simp only [slotDecl?, hkind, hsignature]
  have hback : (m.defaults.insert k v).erase k = m.defaults := by
    refine Table.ext_get? fun j => ?_
    rw [Table.get?_erase, Table.get?_insert]
    split
    next hj => rw [hj, hnone m hm]
    next => rfl
  obtain ⟨i, hnext, hrestored⟩ := hv.altered_back_if (l := g.connections) (f := (·.insert k v))
    (u := (·.erase k)) hmem (htrim m hmem) (fun _ hc => hc)
    (fun j hj => Table.mem_keys_insert.2 (.inr hj)) hback k.index.isSome
  refine ⟨i, hnext, clearDefault_eq_ok.2 ⟨hcheck', m', hnode, ?_⟩⟩
  have hset : (g.altered m.id g.connections (·.insert k v)).reshapeIf m.id k.index.isSome = g' := he
  rw [hset, ← hconnections] at hrestored
  have hcleared : (g'.updateNode m.id (.mapDefaults (·.erase k))).reshapeIf m.id k.index.isSome =
      { g with nextPort := i, connections := g'.connections } := hrestored
  rw [hcleared, hdefaults, Table.get?_insert, if_pos rfl, hconnections]

end Graph

/-- In a reachable graph whose groups show as many slots as they should, a connection between two
ports of which none is connected that admits one connection only is taken back by disconnecting the
two in either order, and a default for a slot that had none by clearing it: the graph is the one
from before, but for the number of its next port. -/
theorem Reachable.taken_back {g : Graph Definition} (h : Reachable Definition.Built g)
    (ht : g.Tight) :
    (∀ a b g', g.connect a b = .ok g' → g.Vacant a b → ∃ i, g.nextPort ≤ i ∧
      g'.disconnect a b = .ok ({ g with nextPort := i }, true) ∧
      g'.disconnect b a = .ok ({ g with nextPort := i }, true)) ∧
    ∀ n k v g', g.setDefault n k v = .ok g' →
      (∀ m, g.node? n = some m → m.defaults.get? k = none) → ∃ i, g.nextPort ≤ i ∧
        g'.clearDefault n k = .ok ({ g with nextPort := i }, some v) := by
  have htrim : ∀ m ∈ g.nodes, g.Trim m := fun m hm =>
    h.valid.trim_of_tight ht hm (fun k hk => ((h.invariant.2 m hm).1 k hk).distinct)
      (h.invariant.2 m hm).2
  refine ⟨fun a b g' hc hvacant => ?_, fun n k v g' hs hnone =>
    h.valid.clearDefault_setDefault hs htrim hnone⟩
  obtain ⟨j, hcheck, rfl⟩ := connect_eq_ok.1 hc
  obtain ⟨i, hnext, hback⟩ := h.valid.disconnect_join hvacant hcheck htrim
  exact ⟨i, hnext, hback, disconnect_comm.1 hback⟩

/-- All groups of the chain of gathering nodes are of values. -/
theorem tight_gatherChain : gatherChain.Tight := by
  have hkinds : Reachable (· = Definition.gather) gatherChain :=
    .foldl (by simp [Edit.offers, NodeKind.action?]) (.blank 0 .standard)
  rintro m hm d ⟨k, hk, hd, hvariadic⟩
  obtain rfl := (hkinds.invariant.2 m hm).1 k hk
  refine exact_iff.1 reachable_exact_gatherChain.2 m hm d ⟨_, hk, hd, hvariadic, ?_⟩
  obtain rfl := List.mem_singleton.1 hd
  rfl

/-- A second slot of the chain is connected, or a default set far beyond its slots, and taken back.
-/
theorem taken_back_gatherChain :
    (∃ g i, gatherChain.connect ⟨0, 3⟩ ⟨0, 8⟩ = .ok g ∧
      (g.variadicSlots ⟨2⟩ "items").map (·.index) = [5, 8, 9] ∧
      g.disconnect ⟨0, 8⟩ ⟨0, 3⟩ = .ok ({ gatherChain with nextPort := i }, true)) ∧
    ∃ g i, gatherChain.setDefault ⟨2⟩ ⟨"items", some 4⟩ (.int 7) = .ok g ∧
      (g.variadicSlots ⟨2⟩ "items").map (·.index) = [5, 8, 9, 10, 11, 12] ∧
      g.clearDefault ⟨2⟩ ⟨"items", some 4⟩ =
        .ok ({ gatherChain with nextPort := i }, some (.int 7)) := by
  obtain ⟨hconnect, hdefault⟩ := reachable_exact_gatherChain.1.taken_back tight_gatherChain
  have hvacant : gatherChain.Vacant ⟨0, 3⟩ ⟨0, 8⟩ := by
    rintro p q (rfl | rfl) hq hrole
    · obtain rfl := Option.some.inj hq
      exact absurd hrole (by decide)
    · decide
  have hnone : ∀ m, gatherChain.node? ⟨2⟩ = some m →
      m.defaults.get? ⟨"items", some 4⟩ = none := by
    intro m hm
    obtain rfl := Option.some.inj hm
    rfl
  obtain ⟨i, -, -, hback⟩ := hconnect _ _ _ rfl hvacant
  obtain ⟨l, -, hcleared⟩ := hdefault ⟨2⟩ ⟨"items", some 4⟩ (.int 7) _ rfl hnone
  exact ⟨⟨_, i, rfl, by decide, hback⟩, _, l, rfl, by decide, hcleared⟩

end EffectGraph
