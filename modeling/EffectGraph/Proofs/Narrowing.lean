import EffectGraph.Proofs.Arity
import EffectGraph.Proofs.Resizing

/-!
# Nodes that only shrink

While a kind is redefined, connections only go and no default comes. A node that is reshaped again
and again meanwhile keeps no more slots in use, so its arities never grow: a slot that it has lost
does not come back (`Narrows`).
-/

namespace EffectGraph

open EffectGraph.Graph

variable {κ : Type}

theorem mem_dropped_iff {ss : List PortSpec} {old : List Port} {next : Nat}
    (hnodup : (old.map Port.spec).Nodup) {p : Port} :
    p ∈ (reusePorts ss old next).dropped ↔ p ∈ old ∧ p.spec ∉ ss := by
  constructor
  · intro hp
    refine ⟨mem_old_of_mem_dropped hp, fun hmem => ?_⟩
    have hcount := reusePorts_count ss old next p.spec
    have hdropped := List.one_le_count_iff.2 (List.mem_map_of_mem (f := Port.spec) hp)
    have hwanted := List.one_le_count_iff.2 hmem
    have hold := List.nodup_iff_count_le_one.1 hnodup p.spec
    omega
  · rintro ⟨hp, hnot⟩
    refine (mem_reusePorts_of_mem_old ss next hp).resolve_left fun hkept => hnot ?_
    have := List.mem_map_of_mem (f := Port.spec) hkept
    rwa [reusePorts_specs] at this

namespace Graph

/-- A group shows no more slots if no more are in use. -/
theorem arityOf_mono {u v : List Nat} (h : ∀ i ∈ u, i ∈ v) : arityOf u ≤ arityOf v := by
  cases hu : u.max? with
  | none =>
    have hone : arityOf u = 1 := by simp [arityOf, hu]
    exact hone ▸ arityOf_pos v
  | some a =>
    obtain ⟨ha, -⟩ := List.max?_eq_some_iff.1 hu
    cases hv : v.max? with
    | none => exact absurd (h a ha) (List.max?_eq_none_iff.1 hv ▸ List.not_mem_nil)
    | some b =>
      have hab := (List.max?_eq_some_iff.1 hv).2 a (h a ha)
      simp only [arityOf, hu, hv]
      omega

variable [HasSignature κ] {g g' : Graph κ} {m m' : Node κ} {n : NodeId}

/-- A port is wanted within smaller widths only if it is wanted within larger ones. -/
theorem mem_inputShape_mono {w a : String → Nat} (hle : ∀ group, w group ≤ a group) {s : PortSpec}
    (hs : s ∈ g.inputShape m w) : s ∈ g.inputShape m a := by
  have hcount : (g.inputShape m w).count s ≤ (g.inputShape m a).count s :=
    count_inputShape_le fun i hi => Nat.lt_of_lt_of_le (mem_inputShape hs hi).1 (hle _)
  have hpos := List.one_le_count_iff.2 hs
  exact List.one_le_count_iff.1 (hpos.trans hcount)

theorem inputShape_congr (hsignature : g'.signature = g.signature) (hkind : m'.kind = m.kind)
    (w : String → Nat) : g'.inputShape m' w = g.inputShape m w := by
  simp only [inputShape, hkind, hsignature]

/-- How the state of a node, in its graph, follows from an earlier one: no slot has come into use,
the ports shown are old or were wanted then, and a port that is gone was a slot beyond the arity. -/
structure Narrows (g : Graph κ) (m : Node κ) (g' : Graph κ) (m' : Node κ) : Prop where
  signature : g'.signature = g.signature
  kind : m'.kind = m.kind
  used : ∀ group, ∀ i ∈ g'.usedSlots m' group, i ∈ g.usedSlots m group
  shown : ∀ s ∈ m'.inputs.map Port.spec, s ∈ m.inputs.map Port.spec ∨ s ∈ g.wantedInputs m
  gone : ∀ p ∈ m.inputs, p ∉ m'.inputs → p.spec ∉ m'.inputs.map Port.spec ∧
    ∃ i, p.slot = some i ∧ g'.arity m' p.decl.name ≤ i

theorem Narrows.refl (g : Graph κ) (m : Node κ) : g.Narrows m g m :=
  ⟨rfl, rfl, fun _ _ hi => hi, fun _ hs => .inl hs, fun _ hp hnot => absurd hp hnot⟩

theorem Narrows.arity_le (h : g.Narrows m g' m') (group : String) :
    g'.arity m' group ≤ g.arity m group := arityOf_mono (h.used group)

theorem Narrows.mem_wantedInputs (h : g.Narrows m g' m') {s : PortSpec}
    (hs : s ∈ g'.wantedInputs m') : s ∈ g.wantedInputs m := by
  rw [wantedInputs_eq, inputShape_congr h.signature h.kind] at hs
  rw [wantedInputs_eq]
  exact mem_inputShape_mono h.arity_le hs

/-- A slot beyond the arity of its group is not wanted. -/
theorem not_mem_wantedInputs {p : Port} {i : Nat} (hi : p.slot = some i)
    (harity : g.arity m p.decl.name ≤ i) : p.spec ∉ g.wantedInputs m := by
  intro hs
  rw [wantedInputs_eq] at hs
  exact absurd (mem_inputShape hs (i := i) hi).1 (Nat.not_lt.2 harity)

theorem Narrows.trans {g₁ g₂ g₃ : Graph κ} {m₁ m₂ m₃ : Node κ} (h : g₁.Narrows m₁ g₂ m₂)
    (h' : g₂.Narrows m₂ g₃ m₃) : g₁.Narrows m₁ g₃ m₃ := by
  refine ⟨h'.signature.trans h.signature, h'.kind.trans h.kind,
    fun group i hi => h.used group i (h'.used group i hi), fun s hs => ?_, fun p hp hnot => ?_⟩
  · rcases h'.shown s hs with hs | hs
    · exact h.shown s hs
    · exact .inr (h.mem_wantedInputs hs)
  · by_cases hmid : p ∈ m₂.inputs
    · exact h'.gone p hmid hnot
    · obtain ⟨hspec, i, hi, harity⟩ := h.gone p hp hmid
      refine ⟨fun hs => ?_, i, hi, Nat.le_trans (h'.arity_le _) harity⟩
      rcases h'.shown _ hs with hs | hs
      · exact hspec hs
      · exact not_mem_wantedInputs hi harity hs

omit [HasSignature κ] in
theorem isWired_of_subset (h : g'.connections ⊆ g.connections) {i : Nat}
    (hi : g'.isWired i = true) : g.isWired i = true := by
  obtain ⟨c, hc, ht⟩ := List.any_eq_true.1 hi
  exact List.any_eq_true.2 ⟨c, h hc, ht⟩

/-- A node that is left alone narrows while connections go. -/
theorem Narrows.of_connections (hsignature : g'.signature = g.signature)
    (h : g'.connections ⊆ g.connections) (m : Node κ) : g.Narrows m g' m := by
  refine ⟨hsignature, rfl, fun group i hi => ?_, fun _ hs => .inl hs,
    fun _ hp hnot => absurd hp hnot⟩
  rw [mem_usedSlots] at hi ⊢
  refine hi.imp_left fun ⟨p, hp, hname, hslot, hwired⟩ => ?_
  exact ⟨p, hp, hname, hslot, isWired_of_subset h hwired⟩

omit [HasSignature κ] in
/-- Ports that have come and gone stay spare while connections go. -/
theorem Resized.of_subset (h : g.Resized m m') (hsub : g'.connections ⊆ g.connections) :
    g'.Resized m m' := by
  have hspare : ∀ {p}, g.Spare p → g'.Spare p := fun hp => by
    refine ⟨hp.variadic, hp.slot, ?_⟩
    by_contra hwired
    have := isWired_of_subset hsub (by simpa using hwired)
    rw [hp.unwired] at this
    exact Bool.noConfusion this
  exact ⟨h.outputs, fun p hp hnot => (h.came p hp hnot).imp_left hspare,
    fun p hp hnot => (h.went p hp hnot).imp_left hspare⟩

/-- The slots in use after a reshape were in use before it. -/
theorem Valid.usedSlots_shapedNode {stale : List NodeId} (h : g.Valid stale)
    (hsub : g'.connections ⊆ g.connections) {group : String} {i : Nat}
    (hi : i ∈ g'.usedSlots (g.shapedNode m) group) : i ∈ g.usedSlots m group := by
  rw [mem_usedSlots] at hi ⊢
  refine hi.imp_left fun ⟨p, hp, hname, hslot, hwired⟩ => ?_
  have hwired := isWired_of_subset hsub hwired
  -- A new port is not connected, since connections end at numbers that are in use.
  refine ⟨p, (mem_of_mem_reusePorts hp).resolve_right fun hnew => ?_, hname, hslot, hwired⟩
  obtain ⟨q, hq, hqi⟩ := h.wellFormed.mem_of_isWired hwired
  have := h.wellFormed.used q hq
  omega

/-- The reshape of a node in shape narrows it. -/
theorem Valid.narrows_reshapeOne (h : g.Valid []) (hm : m ∈ g.nodes)
    (hm' : m' ∈ (g.reshapeOne n).1.nodes) (hid : m'.id = m.id) :
    g.Narrows m (g.reshapeOne n).1 m' := by
  have hconnections := (h.keeps (n := n) List.not_mem_nil).connections_reshapeOne
  have hsub : (g.reshapeOne n).1.connections ⊆ g.connections := fun _ hc => hconnections ▸ hc
  have hother (hk : m' ∈ g.nodes) : g.Narrows m (g.reshapeOne n).1 m' := by
    obtain rfl := h.ascending.id_inj hk hm hid
    exact .of_connections reshapeOne_signature hsub m'
  cases hn : g.node? n with
  | none =>
    have hsame := reshapeOne_of_none hn
    exact hother (by rwa [hsame] at hm')
  | some k =>
    rcases (mem_nodes_reshapeOne h.ascending hn).1 hm' with ⟨hm', -⟩ | rfl
    · exact hother hm'
    · obtain rfl : k = m := h.ascending.id_inj (node?_mem hn).1 hm hid
      have hused : ∀ group, ∀ i ∈ (g.reshapeOne n).1.usedSlots (g.shapedNode k) group,
          i ∈ g.usedSlots k group := fun group i hi => h.usedSlots_shapedNode hsub hi
      have hspecs : (g.shapedNode k).inputs.map Port.spec = g.wantedInputs k := reusePorts_specs ..
      refine ⟨reshapeOne_signature, rfl, hused, fun s hs => .inr (hspecs ▸ hs), fun p hp hnot => ?_⟩
      have hdropped : p ∈ g.droppedPorts k := List.mem_append_left _
        ((mem_reusePorts_of_mem_old _ _ hp).resolve_left hnot)
      obtain ⟨-, i, hi, harity⟩ :=
        (h.shaped k hm List.not_mem_nil).formed.of_mem_droppedPorts hdropped
      exact ⟨hspecs ▸ not_mem_wantedInputs hi harity, i, hi,
        Nat.le_trans (arityOf_mono (hused p.decl.name)) harity⟩

end Graph

end EffectGraph
