import EffectGraph.Proofs.Reshape
import EffectGraph.Proofs.Tables
import Mathlib.Data.List.Range

/-!
# Nodes in shape

A node is formed (`Formed`) if it has the ports that its kind declares, each variadic group running
from slot zero up to some width. It is in shape (`Shaped`) if the widths lie within the limit and
cover the slots that the node keeps open by what it stores.

A reshape brings its node into shape whatever it was like before, and it costs a node that is formed
no port that is connected (`Formed.isWired_of_mem_droppedPorts`): so a reshape that follows an edit
of stored values or connections never loses a connection and never spreads to other nodes.
-/

namespace EffectGraph

variable {κ : Type} [HasSignature κ]

/-- Whether a node keeps a slot of a group open by what it stores: a default or a hold. -/
def Node.Reserves (n : Node κ) (group : String) (i : Nat) : Prop :=
  (⟨group, some i⟩ : SlotKey) ∈ n.defaults.keys ∨ n.held.get? group = some i

namespace Graph

/-! ## Shapes by width -/

/-- The ports of a declared input if every variadic group has the given width. -/
def slotSpecs (w : String → Nat) (d : PortDecl) : List PortSpec :=
  if d.isVariadic then (List.range (w d.name)).map fun i => ⟨d, some i⟩ else [.single d]

/-- The inputs of a node if every variadic group has the given width. -/
def inputShape (g : Graph κ) (n : Node κ) (w : String → Nat) : List PortSpec :=
  match n.kind with
  | .action k => .control enterName :: (HasSignature.signature k).inputs.flatMap (slotSpecs w)
  | .entry => []
  | .result => .control enterName :: (g.signature.elim [] (·.outputs)).map .single

theorem wantedInputs_eq (g : Graph κ) (n : Node κ) :
    g.wantedInputs n = g.inputShape n (g.arity n) := by
  unfold wantedInputs inputShape
  cases n.kind <;> rfl

theorem mem_slotSpecs {w : String → Nat} {d : PortDecl} {s : PortSpec} (h : s ∈ slotSpecs w d) :
    s.decl = d ∧ ∀ i, s.slot = some i → d.isVariadic = true ∧ i < w d.name := by
  unfold slotSpecs at h
  split at h
  next hd =>
    obtain ⟨i, hi, rfl⟩ := List.mem_map.1 h
    refine ⟨rfl, fun j hj => ⟨hd, ?_⟩⟩
    obtain rfl := Option.some.inj hj
    exact List.mem_range.1 hi
  next =>
    obtain rfl := List.mem_singleton.1 h
    exact ⟨rfl, fun i hi => by simp [PortSpec.single] at hi⟩

/-- A slot of a shape belongs to a variadic group that the kind declares and lies within its
width. -/
theorem mem_inputShape {g : Graph κ} {n : Node κ} {w : String → Nat} {s : PortSpec} {i : Nat}
    (h : s ∈ g.inputShape n w) (hi : s.slot = some i) :
    i < w s.decl.name ∧ ∃ k, n.kind = .action k ∧ s.decl ∈ (HasSignature.signature k).inputs ∧
      s.decl.isVariadic = true := by
  unfold inputShape at h
  split at h
  next k hk =>
    rcases List.mem_cons.1 h with rfl | h
    · simp [PortSpec.control, PortSpec.single] at hi
    · obtain ⟨d, hd, hs⟩ := List.mem_flatMap.1 h
      obtain ⟨rfl, hslot⟩ := mem_slotSpecs hs
      exact ⟨(hslot i hi).2, k, hk, hd, (hslot i hi).1⟩
  next => simp at h
  next =>
    rcases List.mem_cons.1 h with rfl | h
    · simp [PortSpec.control, PortSpec.single] at hi
    · obtain ⟨d, -, rfl⟩ := List.mem_map.1 h
      simp [PortSpec.single] at hi

theorem slot_of_mem_wantedOutputs {g : Graph κ} {n : Node κ} {s : PortSpec}
    (h : s ∈ g.wantedOutputs n) : s.slot = none := by
  have hmap : ∀ ds : List PortDecl, s ∈ PortSpec.control exitName :: ds.map .single →
      s.slot = none := by
    intro ds hs
    rcases List.mem_cons.1 hs with rfl | hs
    · rfl
    · obtain ⟨d, -, rfl⟩ := List.mem_map.1 hs
      rfl
  unfold wantedOutputs at h
  split at h
  · exact hmap _ h
  · exact hmap _ h
  · simp at h

theorem count_slotSpecs_le {w a : String → Nat} {s : PortSpec}
    (h : ∀ i, s.slot = some i → i < a s.decl.name) (d : PortDecl) :
    (slotSpecs w d).count s ≤ (slotSpecs a d).count s := by
  unfold slotSpecs
  split
  next hd =>
    have hnodup : ((List.range (w d.name)).map fun i => (⟨d, some i⟩ : PortSpec)).Nodup :=
      List.nodup_range.map fun i j hij => by simpa using hij
    -- A slot occurs once in its group, so it is enough that the other group has it at all.
    by_cases hs : s ∈ (List.range (w d.name)).map fun i => (⟨d, some i⟩ : PortSpec)
    · obtain ⟨i, -, rfl⟩ := List.mem_map.1 hs
      have hmem : (⟨d, some i⟩ : PortSpec) ∈ (List.range (a d.name)).map fun i => ⟨d, some i⟩ :=
        List.mem_map_of_mem (List.mem_range.2 (h i rfl))
      exact (List.nodup_iff_count_le_one.1 hnodup _).trans (List.one_le_count_iff.2 hmem)
    · rw [List.count_eq_zero.2 hs]
      exact Nat.zero_le _
  next => exact Nat.le_refl _

/-- Between two shapes of a node a port can only be missing from the second if it is a slot beyond
its width there. -/
theorem count_inputShape_le {g : Graph κ} {n : Node κ} {w a : String → Nat} {s : PortSpec}
    (h : ∀ i, s.slot = some i → i < a s.decl.name) :
    (g.inputShape n w).count s ≤ (g.inputShape n a).count s := by
  unfold inputShape
  split
  next k _ =>
    have hflat : ∀ ds : List PortDecl,
        (ds.flatMap (slotSpecs w)).count s ≤ (ds.flatMap (slotSpecs a)).count s := by
      intro ds
      induction ds with
      | nil => exact Nat.le_refl _
      | cons d ds ih =>
        have := count_slotSpecs_le (w := w) h d
        simp only [List.flatMap_cons, List.count_append]
        omega
    have := hflat (HasSignature.signature k).inputs
    simp only [List.count_cons]
    omega
  next => exact Nat.le_refl _
  next => exact Nat.le_refl _

/-! ## Slots in use -/

omit [HasSignature κ] in
theorem isWired_iff {g : Graph κ} {i : Nat} :
    g.isWired i = true ↔ ∃ c ∈ g.connections, c.source = i ∨ c.destination = i := by
  simp [isWired, Connection.touches]

omit [HasSignature κ] in
theorem WellFormed.mem_of_isWired {g : Graph κ} (hg : g.WellFormed) {i : Nat}
    (h : g.isWired i = true) : ∃ q ∈ g.allPorts, q.port.index = i := by
  obtain ⟨c, hc, hi⟩ := isWired_iff.1 h
  obtain ⟨s, d, hj⟩ := hg.joined c hc
  rcases hi with rfl | rfl
  · exact ⟨s, hj.source_mem, hj.source_index⟩
  · exact ⟨d, hj.destination_mem, hj.destination_index⟩

omit [HasSignature κ] in
theorem mem_usedSlots {g : Graph κ} {n : Node κ} {group : String} {i : Nat} :
    i ∈ g.usedSlots n group ↔
      (∃ p ∈ n.inputs, p.decl.name = group ∧ p.slot = some i ∧ g.isWired p.index = true) ∨
        n.Reserves group i := by
  simp only [usedSlots, List.mem_append, List.mem_filterMap, Option.mem_toList, or_assoc,
    Node.Reserves]
  refine or_congr ?_ (or_congr ?_ Iff.rfl)
  · constructor
    · rintro ⟨p, hp, h⟩
      split at h
      next hc =>
        simp only [Bool.and_eq_true, decide_eq_true_eq] at hc
        exact ⟨p, hp, hc.1, h, hc.2⟩
      next => simp at h
    · rintro ⟨p, hp, hname, hslot, hwired⟩
      exact ⟨p, hp, by simp [hname, hwired, hslot]⟩
  · constructor
    · rintro ⟨k, hk, h⟩
      split at h
      next hname =>
        obtain ⟨name, index⟩ := k
        simp only at hname h
        rw [← hname, ← h]
        exact hk
      next => simp at h
    · intro hk
      exact ⟨_, hk, by simp⟩

theorem arityOf_pos (used : List Nat) : 0 < arityOf used := by
  unfold arityOf
  split
  · simp only [slotLimit]
    omega
  · exact Nat.one_pos

theorem arityOf_le (used : List Nat) : arityOf used ≤ slotLimit := by
  unfold arityOf
  split
  · exact Nat.min_le_right _ _
  · simp [slotLimit]

/-- The arity of a group covers the slots in use, as long as they lie below the limit. -/
theorem lt_arityOf {used : List Nat} {i : Nat} (hi : i ∈ used) (h : i < slotLimit) :
    i < arityOf used := by
  unfold arityOf
  cases hmax : used.max? with
  | none => simp [List.max?_eq_none_iff.1 hmax] at hi
  | some highest =>
    have := (List.max?_eq_some_iff.1 hmax).2 i hi
    simp only
    omega

/-! ## Nodes in shape -/

/-- The node has the ports that its kind declares, and every variadic group runs from slot zero. -/
structure Formed (g : Graph κ) (n : Node κ) : Prop where
  outputs : n.outputs.map Port.spec = g.wantedOutputs n
  inputs : ∃ w : String → Nat, n.inputs.map Port.spec = g.inputShape n w

/-- The node has the ports that its kind declares, and every variadic group runs from slot zero up
to a width that covers the slots that the node keeps open. -/
structure Shaped (g : Graph κ) (n : Node κ) : Prop where
  outputs : n.outputs.map Port.spec = g.wantedOutputs n
  inputs : ∃ w : String → Nat, n.inputs.map Port.spec = g.inputShape n w ∧
    (∀ group, 0 < w group ∧ w group ≤ slotLimit) ∧ ∀ group i, n.Reserves group i → i < w group

theorem Shaped.formed {g : Graph κ} {m : Node κ} (h : g.Shaped m) : g.Formed m :=
  ⟨h.outputs, h.inputs.imp fun _ hw => hw.1⟩

theorem Formed.congr {g g' : Graph κ} {m m' : Node κ} (h : g.Formed m)
    (hsignature : g'.signature = g.signature) (hkind : m'.kind = m.kind)
    (hinputs : m'.inputs = m.inputs) (houtputs : m'.outputs = m.outputs) : g'.Formed m' := by
  obtain ⟨w, hw⟩ := h.inputs
  refine ⟨?_, w, ?_⟩
  · rw [houtputs, h.outputs]
    simp only [wantedOutputs, hkind, hsignature]
  · rw [hinputs, hw]
    simp only [inputShape, hkind, hsignature]

/-- Connections do not matter for the shape, and a node stays in shape as long as it keeps no more
slots open. -/
theorem Shaped.congr {g g' : Graph κ} {m m' : Node κ} (h : g.Shaped m)
    (hsignature : g'.signature = g.signature) (hkind : m'.kind = m.kind)
    (hinputs : m'.inputs = m.inputs) (houtputs : m'.outputs = m.outputs)
    (hreserves : ∀ group i, m'.Reserves group i → m.Reserves group i) : g'.Shaped m' := by
  obtain ⟨w, hw, hbounds, hcover⟩ := h.inputs
  refine ⟨(h.formed.congr hsignature hkind hinputs houtputs).outputs, w, ?_, hbounds,
    fun group i hi => hcover group i (hreserves group i hi)⟩
  rw [hinputs, hw]
  simp only [inputShape, hkind, hsignature]

/-- The shape of a node depends on the graph through its signature alone. -/
theorem Shaped.of_signature {g g' : Graph κ} {m : Node κ} (h : g.Shaped m)
    (hsignature : g'.signature = g.signature) : g'.Shaped m :=
  h.congr hsignature rfl rfl rfl fun _ _ hi => hi

section Dropped

variable {g : Graph κ} {m : Node κ}

theorem spec_mem_of_mem_reusedInputs {p : Port} (h : p ∈ (g.reusedInputs m).ports) :
    p.spec ∈ g.wantedInputs m := by
  have := List.mem_map_of_mem (f := Port.spec) h
  rwa [reusedInputs, reusePorts_specs] at this

theorem spec_mem_of_mem_reusedOutputs {p : Port} (h : p ∈ (g.reusedOutputs m).ports) :
    p.spec ∈ g.wantedOutputs m := by
  have := List.mem_map_of_mem (f := Port.spec) h
  rwa [reusedOutputs, reusePorts_specs] at this

/-- A formed node loses nothing in a reshape but slots beyond the arity of their group. -/
theorem Formed.of_mem_droppedPorts (h : g.Formed m) {p : Port} (hp : p ∈ g.droppedPorts m) :
    p ∈ m.inputs ∧ ∃ i, p.slot = some i ∧ g.arity m p.decl.name ≤ i := by
  obtain ⟨w, hw⟩ := h.inputs
  rcases List.mem_append.1 hp with hp | hp
  · refine ⟨mem_old_of_mem_dropped hp, ?_⟩
    by_contra hnot
    -- Otherwise the shape at the arity has as many ports like this one, and none is dropped.
    have hle : (g.inputShape m w).count p.spec ≤ (g.inputShape m (g.arity m)).count p.spec := by
      refine count_inputShape_le fun i hi => ?_
      by_contra hlt
      exact hnot ⟨i, hi, Nat.not_lt.1 hlt⟩
    have hcount := reusePorts_count (g.wantedInputs m) m.inputs g.nextPort p.spec
    have hpos := List.one_le_count_iff.2 (List.mem_map_of_mem (f := Port.spec) hp)
    rw [wantedInputs_eq, hw] at hcount
    rw [reusedInputs, wantedInputs_eq] at hpos
    omega
  · have hcount :=
      reusePorts_count (g.wantedOutputs m) m.outputs (g.reusedInputs m).nextPort p.spec
    have hpos := List.one_le_count_iff.2 (List.mem_map_of_mem (f := Port.spec) hp)
    rw [h.outputs] at hcount
    rw [reusedOutputs] at hpos
    omega

/-- A formed node loses no port that is connected. -/
theorem Formed.isWired_of_mem_droppedPorts (h : g.Formed m)
    (hslots : ∀ p ∈ m.inputs, ∀ i, p.slot = some i → i < slotLimit) {p : Port}
    (hp : p ∈ g.droppedPorts m) : g.isWired p.index = false := by
  obtain ⟨hmem, i, hi, harity⟩ := h.of_mem_droppedPorts hp
  by_contra hwired
  have hused : i ∈ g.usedSlots m p.decl.name :=
    mem_usedSlots.2 (.inl ⟨p, hmem, rfl, hi, by simpa using hwired⟩)
  have := lt_arityOf hused (hslots p hmem i hi)
  exact absurd this (Nat.not_lt.2 harity)

/-- The reshape of a formed node costs no connection. -/
theorem Formed.not_loses (h : g.Formed m)
    (hslots : ∀ p ∈ m.inputs, ∀ i, p.slot = some i → i < slotLimit) {c : Connection}
    (hc : c ∈ g.connections) : g.loses m c = false := by
  by_contra hl
  obtain ⟨p, hp, ht⟩ := List.any_eq_true.1 (by simpa [loses] using hl)
  have hwired : g.isWired p.index = true := List.any_eq_true.2 ⟨c, hc, by simpa using ht⟩
  rw [h.isWired_of_mem_droppedPorts hslots hp] at hwired
  exact Bool.noConfusion hwired

end Dropped

end Graph

end EffectGraph
