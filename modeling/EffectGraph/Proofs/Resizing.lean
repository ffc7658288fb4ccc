import EffectGraph.Proofs.Reachable

/-!
# Slots that come and go

What a reshape of a node in shape changes: it keeps every connection, and of its ports only spare
ones come and go (`Resized`), which are slots of variadic groups that no connection ends at and for
which no default is stored. The relation of a graph to the one after any number of reshapes
(`Spares`) follows by induction.
-/

namespace EffectGraph

open EffectGraph.Graph

/-! ## Ports handed out again -/

/-- A side that has its wanted ports keeps them as they are. -/
theorem reusePorts_specs_self (old : List Port) (next : Nat) :
    reusePorts (old.map Port.spec) old next = ⟨old, [], next⟩ := by
  induction old with
  | nil => rfl
  | cons p old ih =>
    have hfits : p.spec.fits p = true := PortSpec.fits_iff.2 rfl
    simp [reusePorts, hfits, ih]

/-- A port is handed out anew only if more ports of its declaration and slot are wanted than there
were. -/
theorem mem_old_of_count_le {ss : List PortSpec} {old : List Port} {next : Nat} {p : Port}
    (hp : p ∈ (reusePorts ss old next).ports)
    (hcount : ss.count p.spec ≤ (old.map Port.spec).count p.spec) : p ∈ old := by
  obtain ⟨fresh, hperm, -⟩ := reusePorts_perm ss old next
  have hspecs := (hperm.map Port.spec).count_eq p.spec
  have hdropped := reusePorts_count ss old next p.spec
  rw [List.map_append, List.map_append, reusePorts_specs, List.count_append, List.count_append]
    at hspecs
  have hmem := hperm.subset (List.mem_append_left _ hp)
  refine (List.mem_append.1 hmem).resolve_right fun hfresh => ?_
  have hpos := List.one_le_count_iff.2 (List.mem_map_of_mem (f := Port.spec) hfresh)
  omega

variable {κ : Type}

namespace Graph

/-! ## One reshape -/

/-- Whether a port can come or go without consequence: it is a slot of a variadic group and no
connection ends at it. -/
structure Spare (g : Graph κ) (p : Port) : Prop where
  variadic : p.decl.isVariadic = true
  slot : p.slot.isSome = true
  unwired : g.isWired p.index = false

/-- What may change about the ports of a node on the way to the given graph: spare slots come if no
default was stored for them, and go if none is stored afterwards. -/
structure Resized (g : Graph κ) (m m' : Node κ) : Prop where
  outputs : m'.outputs = m.outputs
  came : ∀ p ∈ m'.inputs, p ∉ m.inputs → g.Spare p ∧ p.key ∉ m.defaults.keys
  went : ∀ p ∈ m.inputs, p ∉ m'.inputs → g.Spare p ∧ p.key ∉ m'.defaults.keys

theorem Resized.refl (g : Graph κ) (m : Node κ) : g.Resized m m :=
  ⟨rfl, fun _ hp hnot => absurd hp hnot, fun _ hp hnot => absurd hp hnot⟩

theorem Resized.of_ports {g : Graph κ} {m m' : Node κ} (hinputs : m'.inputs = m.inputs)
    (houtputs : m'.outputs = m.outputs) : g.Resized m m' :=
  ⟨houtputs, fun _ hp hnot => absurd (hinputs ▸ hp) hnot,
    fun _ hp hnot => absurd (hinputs ▸ hp) hnot⟩

theorem Resized.trans {g : Graph κ} {m₁ m₂ m₃ : Node κ} (h : g.Resized m₁ m₂)
    (h' : g.Resized m₂ m₃) (hdefaults : m₂.defaults = m₁.defaults)
    (hdefaults' : m₃.defaults = m₂.defaults) : g.Resized m₁ m₃ := by
  refine ⟨h'.outputs.trans h.outputs, fun p hp hnot => ?_, fun p hp hnot => ?_⟩
  · by_cases hmid : p ∈ m₂.inputs
    · exact h.came p hmid hnot
    · exact hdefaults ▸ h'.came p hp hmid
  · by_cases hmid : p ∈ m₂.inputs
    · exact h'.went p hmid hnot
    · exact hdefaults' ▸ h.went p hp hmid

theorem Resized.congr {g g' : Graph κ} {m m' : Node κ} (h : g.Resized m m')
    (hconnections : g'.connections = g.connections) : g'.Resized m m' := by
  have hspare : ∀ {p}, g.Spare p → g'.Spare p := fun hp =>
    ⟨hp.variadic, hp.slot, by
      rw [isWired, hconnections]
      exact hp.unwired⟩
  exact ⟨h.outputs, fun p hp hnot => (h.came p hp hnot).imp_left hspare,
    fun p hp hnot => (h.went p hp hnot).imp_left hspare⟩

variable [HasSignature κ] {g g' : Graph κ} {stale : List NodeId} {n : NodeId} {m : Node κ}

/-- A new input of a node is a slot beyond the width that its group had. -/
theorem width_le_of_came {w : String → Nat} (hw : m.inputs.map Port.spec = g.inputShape m w)
    {p : Port} (hp : p ∈ (g.shapedNode m).inputs) (hnot : p ∉ m.inputs) :
    p.decl.isVariadic = true ∧ ∃ i, p.slot = some i ∧ w p.decl.name ≤ i := by
  have hwanted := spec_mem_of_mem_reusedInputs hp
  have hslot : ∃ i, p.slot = some i ∧ w p.decl.name ≤ i := by
    by_contra hnone
    refine hnot (mem_old_of_count_le hp ?_)
    -- Otherwise the node had as many ports like this one as are wanted.
    rw [hw, wantedInputs_eq]
    refine count_inputShape_le fun i hi => ?_
    by_contra hlt
    exact hnone ⟨i, hi, Nat.not_lt.1 hlt⟩
  obtain ⟨i, hi, hwidth⟩ := hslot
  rw [wantedInputs_eq] at hwanted
  obtain ⟨-, -, -, -, hvariadic⟩ := mem_inputShape hwanted (i := i) hi
  exact ⟨hvariadic, i, hi, hwidth⟩

/-- The reshape of a node that has kept its shape, while the defaults stored on it may have changed.
-/
theorem Valid.resized_shapedNode (h : g.Valid stale) {m₀ : Node κ} (hshaped : g.Shaped m₀)
    (hm : m ∈ g.nodes) (hkind : m.kind = m₀.kind) (hinputs : m.inputs = m₀.inputs)
    (houtputs : m.outputs = m₀.outputs) : g.Resized m₀ (g.shapedNode m) := by
  obtain ⟨w, hw, -, hcover⟩ := hshaped.inputs
  have hform : g.Formed m := hshaped.formed.congr rfl hkind hinputs houtputs
  have hwidth : m.inputs.map Port.spec = g.inputShape m w := by
    rw [hinputs, hw]
    simp only [inputShape, hkind]
  refine ⟨?_, fun p hp hnot => ?_, fun p hp hnot => ?_⟩
  · have hsame := reusePorts_specs_self m.outputs (g.reusedInputs m).nextPort
    rw [hform.outputs] at hsame
    exact (congrArg Reused.ports hsame).trans houtputs
  · obtain ⟨hvariadic, i, hi, hle⟩ := width_le_of_came hwidth hp (hinputs ▸ hnot)
    have hnew := (mem_of_mem_reusePorts hp).resolve_left (hinputs ▸ hnot)
    refine ⟨⟨hvariadic, by rw [hi]; rfl, ?_⟩, fun hkey => ?_⟩
    · -- Connections end at numbers in use, and this one is new.
      by_contra hwired
      obtain ⟨q, hq, hqi⟩ := h.wellFormed.mem_of_isWired (by simpa using hwired)
      have := h.wellFormed.used q hq
      omega
    · have hlt := hcover p.decl.name i (.inl (by rwa [Port.key, hi] at hkey))
      omega
  · have hdropped : p ∈ g.droppedPorts m := List.mem_append_left _
      ((mem_reusePorts_of_mem_old _ _ (hinputs ▸ hp)).resolve_left hnot)
    obtain ⟨-, i, hi, hle⟩ := hform.of_mem_droppedPorts hdropped
    have hspec : p.spec ∈ g.inputShape m w := hwidth ▸ List.mem_map_of_mem (hinputs ▸ hp)
    obtain ⟨-, -, -, -, hvariadic⟩ := mem_inputShape hspec (i := i) hi
    refine ⟨⟨hvariadic, by rw [hi]; rfl,
      hform.isWired_of_mem_droppedPorts (h.slots_inputs hm) hdropped⟩, fun hkey => ?_⟩
    -- The slot of a default is in use, so it lies within the arity.
    have hused : i ∈ g.usedSlots m p.decl.name :=
      mem_usedSlots.2 (.inr (.inl (by rwa [Port.key, hi] at hkey)))
    have := lt_arityOf hused (h.usedSlots_lt hm hused)
    exact absurd this (Nat.not_lt.2 hle)

/-! ## Any number of reshapes -/

/-- A graph after reshapes that cost nothing: the connections are the same, and nodes are resized.
-/
structure Spares (g g' : Graph κ) : Prop extends g.Reshapes g' where
  wires : g'.connections = g.connections
  resized : ∀ m ∈ g.nodes, ∀ m' ∈ g'.nodes, m'.id = m.id → g'.Resized m m'

omit [HasSignature κ] in
theorem Spares.refl (hg : g.Ascending) : g.Spares g :=
  { Reshapes.refl g with
    wires := rfl
    resized := fun m hm _ hk hid => hg.id_inj hk hm hid ▸ .refl g m }

omit [HasSignature κ] in
/-- A node stores the same after reshapes. -/
theorem Reshapes.bare_eq (h : g.Reshapes g') (hg : g.Ascending) {m' : Node κ} (hm : m ∈ g.nodes)
    (hm' : m' ∈ g'.nodes) (hid : m'.id = m.id) : m'.bare = m.bare := by
  obtain ⟨k, hk, hbare⟩ := h.origin hm'
  have hkm : k.id = m.id := (congrArg (·.id) hbare).trans hid
  rw [← hbare, hg.id_inj hk hm hkm]

omit [HasSignature κ] in
theorem Spares.trans {g₁ g₂ g₃ : Graph κ} (h₂ : g₂.Ascending)
    (h : g₁.Spares g₂) (h' : g₂.Spares g₃) : g₁.Spares g₃ := by
  refine { h.toReshapes.trans h'.toReshapes with
    wires := h'.wires.trans h.wires, resized := fun m hm k hk hid => ?_ }
  obtain ⟨m₂, hm₂, hbare⟩ := h.image hm
  have hid₂ : m₂.id = m.id := congrArg (·.id) hbare
  have hbare' := h'.bare_eq h₂ hm₂ hk (hid.trans hid₂.symm)
  exact ((h.resized m hm m₂ hm₂ hid₂).congr h'.wires).trans
    (h'.resized m₂ hm₂ k hk (hid.trans hid₂.symm)) (congrArg (·.defaults) hbare)
    (congrArg (·.defaults) hbare')

theorem Valid.spares_reshapeOne (h : g.Valid []) (n : NodeId) : g.Spares (g.reshapeOne n).1 := by
  refine { reshapes_reshapeOne h.ascending n with
    wires := (h.keeps List.not_mem_nil).connections_reshapeOne, resized := fun m hm k hk hid => ?_ }
  cases hn : g.node? n with
  | none =>
    rw [reshapeOne_of_none hn] at hk ⊢
    exact h.ascending.id_inj hk hm hid ▸ .refl g m
  | some m₁ =>
    rcases (mem_nodes_reshapeOne h.ascending hn).1 hk with ⟨hk, -⟩ | rfl
    · obtain rfl := h.ascending.id_inj hk hm hid
      exact .refl _ k
    · obtain rfl : m₁ = m := h.ascending.id_inj (node?_mem hn).1 hm hid
      exact (h.resized_shapedNode (h.shaped m₁ hm List.not_mem_nil) hm rfl rfl rfl).congr
        (h.keeps List.not_mem_nil).connections_reshapeOne

theorem Valid.spares_refresh (h : g.Valid []) (ns : List NodeId) : g.Spares (g.refresh ns) :=
  (refresh_induct (P := fun k => k.Valid [] ∧ g.Spares k)
    (fun _ n hk => ⟨hk.1.reshapeOne_mono n,
      hk.2.trans hk.1.ascending (hk.1.spares_reshapeOne n)⟩)
    ⟨h, .refl h.ascending⟩ ns).2

end Graph

end EffectGraph
