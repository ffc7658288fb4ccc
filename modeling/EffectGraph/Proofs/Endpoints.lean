import EffectGraph.Proofs.Placing

/-!
# Ports by name

Which outputs and inputs a node has under a name is a matter of its kind and of the signature of the
definition that owns the graph (`NodeKind.exit?`, `NodeKind.entrance?`), but for the slots of its
groups, which come and go. A slot that is kept open is there (`Shaped.find?_input`). Whether an
output may lead to an input is a matter of their declarations (`PortDecl.Meets`).
-/

namespace EffectGraph

open EffectGraph.Graph Snapshot

namespace NodeKind

/-- The outputs of a node of the kind in order, in a graph that is owned by a definition with the
given signature. -/
def exits (owner : Option Signature) : NodeKind Definition → List PortDecl
  | .action d => .control exitName :: d.signature.outputs
  | .entry =>
    .control exitName :: owner.elim [] fun s => s.inputs.map (·.packed) ++ s.consts
  | .result => []

/-- The inputs of a node of the kind in order, the groups left out. -/
def singles (owner : Option Signature) : NodeKind Definition → List PortDecl
  | .action d => .control enterName :: d.signature.inputs.filter fun p => !p.isVariadic
  | .entry => []
  | .result => .control enterName :: owner.elim [] (·.outputs)

/-- The declaration of the output with a name. -/
def exit? (owner : Option Signature) (kind : NodeKind Definition) (name : String) :
    Option PortDecl :=
  (kind.exits owner).find? fun d => d.name = name

/-- The declaration of the input with a name and a slot. Slots are those of the groups of an action
kind, up to the limit. -/
def entrance? (owner : Option Signature) (kind : NodeKind Definition) (name : String) :
    Option Nat → Option PortDecl
  | none => (kind.singles owner).find? fun d => d.name = name
  | some i =>
    (kind.action?.bind fun d => d.signature.input? name).filter fun p =>
      p.isVariadic && decide (i < slotLimit)

/-- The kind declares what a slot key names, as a group exactly if the key has an index, which is
below the limit. -/
def HasSlot (owner : Option Signature) (kind : NodeKind Definition) (k : SlotKey) : Prop :=
  (∃ p, ((kind.slots owner).find? fun d => d.name = k.name) = some p ∧
    p.isVariadic = k.index.isSome) ∧ ∀ i, k.index = some i → i < slotLimit

/-- The ports of an action node do not depend on the owner of its graph. -/
theorem exit?_action (owner owner' : Option Signature) (d : Definition) :
    (NodeKind.action d).exit? owner = (NodeKind.action d).exit? owner' := rfl

theorem entrance?_action (owner owner' : Option Signature) (d : Definition) (name : String)
    (slot : Option Nat) :
    (NodeKind.action d).entrance? owner name slot =
      (NodeKind.action d).entrance? owner' name slot := by
  cases slot <;> rfl

end NodeKind

/-- What passes a port. -/
def PortDecl.passes (p : PortDecl) : ConnectionKind := if p.isControl then .control else .value

/-- An output may lead to an input: control passes both, or a value passes both and the type of the
one feeds that of the other under the standard conversions. -/
def PortDecl.Meets (p q : PortDecl) : Prop :=
  p.isControl = q.isControl ∧ (p.isControl = false → ValueType.feeds .standard p.type q.type = true)

namespace Graph

variable {g : Graph Definition} {m : Node Definition} {n : NodeId} {name : String}

/-- A slot key may be used at a node exactly if the kind of the node declares it. -/
theorem checkSlot_eq_ok_iff {k : SlotKey} :
    g.checkSlot n k = .ok k.index.isSome ↔
      ∃ m, g.node? n = some m ∧ m.kind.HasSlot g.signature k := by
  rw [checkSlot_eq_ok]
  simp only [slotDecl?_eq, NodeKind.HasSlot, true_and]
  constructor
  · rintro ⟨m, d, hm, hd, hgroup, hlimit⟩
    exact ⟨m, hm, ⟨d, hd, hgroup⟩, hlimit⟩
  · rintro ⟨m, hm, ⟨d, hd, hgroup⟩, hlimit⟩
    exact ⟨m, d, hm, hd, hgroup, hlimit⟩

/-- The output found under a name is the one that the kind declares. -/
theorem Shaped.find?_outputs (h : g.Shaped m) :
    (m.outputs.find? fun p => p.decl.name = name).map (·.decl) = m.kind.exit? g.signature name := by
  have hdecls : m.outputs.map (·.decl) = m.kind.exits g.signature := by
    have hspecs := congrArg (List.map PortSpec.decl) h.outputs
    rw [List.map_map] at hspecs
    refine hspecs.trans ?_
    unfold wantedOutputs NodeKind.exits
    cases m.kind <;>
      simp [PortSpec.control, PortSpec.single, Function.comp_def, HasSignature.signature]
  rw [NodeKind.exit?, ← hdecls, List.find?_map]
  rfl

/-- The single ports among those of a list of declarations. -/
theorem find?_single_flatMap (w : String → Nat) (ds : List PortDecl) :
    ((ds.flatMap (slotSpecs w)).find? fun s => s.decl.name = name && s.slot = none).map (·.decl) =
      (ds.filter fun d => !d.isVariadic).find? fun d => d.name = name := by
  induction ds with
  | nil => rfl
  | cons d ds ih =>
    rw [List.flatMap_cons, List.find?_append]
    cases hv : d.isVariadic with
    | false =>
      have hone : slotSpecs w d = [.single d] := by simp [slotSpecs, hv]
      by_cases hn : d.name = name
      · simp [hone, hv, hn, PortSpec.single]
      · simpa [hone, hv, hn, PortSpec.single] using ih
    | true =>
      have hnone : ((slotSpecs w d).find? fun s => s.decl.name = name && s.slot = none) = none := by
        simp [slotSpecs, hv]
      simpa [hnone, hv] using ih

/-- The slots of a group are found if no other input has its name before it. -/
theorem find?_slot_flatMap {w : String → Nat} {ds : List PortDecl} {d : PortDecl} {i : Nat}
    (hd : (ds.find? fun d => d.name = name) = some d) (hv : d.isVariadic = true)
    (hi : i < w name) :
    (ds.flatMap (slotSpecs w)).find? (fun s => s.decl.name = name && s.slot = some i) =
      some ⟨d, some i⟩ := by
  induction ds with
  | nil => simp at hd
  | cons e es ih =>
    rw [List.flatMap_cons, List.find?_append]
    by_cases hn : e.name = name
    · obtain rfl : e = d := by simpa [hn] using hd
      have hfind : ((slotSpecs w e).find? fun s => s.decl.name = name && s.slot = some i) =
          some ⟨e, some i⟩ := by
        have hfirst : ∀ j, j < i → ¬j = i := fun j hj => Nat.ne_of_lt hj
        simpa [slotSpecs, hv, hn, List.find?_map] using ⟨hi, hfirst⟩
      rw [hfind, Option.some_or]
    · have hnone : ((slotSpecs w e).find? fun s => s.decl.name = name && s.slot = some i) =
          none := by
        refine List.find?_eq_none.2 fun s hs htest => hn ?_
        rw [← (mem_slotSpecs hs).1]
        simp only [Bool.and_eq_true, decide_eq_true_eq] at htest
        exact htest.1
      rw [hnone, Option.none_or]
      exact ih (by simpa [hn] using hd)

/-- The single input found under a name is the one that the kind declares. -/
theorem Shaped.find?_single (h : g.Shaped m) :
    (m.inputs.find? fun p => p.decl.name = name && p.slot = none).map (·.decl) =
      m.kind.entrance? g.signature name none := by
  obtain ⟨w, hw, -⟩ := h.inputs
  have hspecs : (m.inputs.find? fun p => p.decl.name = name && p.slot = none).map (·.decl) =
      ((m.inputs.map Port.spec).find? fun s => s.decl.name = name && s.slot = none).map
        (·.decl) := by
    rw [List.find?_map, Option.map_map]
    rfl
  rw [hspecs, hw]
  unfold inputShape NodeKind.entrance? NodeKind.singles
  cases m.kind with
  | action d =>
    by_cases hn : enterName = name
    · simp [PortSpec.control, PortSpec.single, PortDecl.control, hn]
    · simp only [PortSpec.control, PortSpec.single, PortDecl.control, List.find?_cons, hn,
        decide_false, Bool.false_and]
      exact find?_single_flatMap w d.signature.inputs
  | entry => rfl
  | result =>
    by_cases hn : enterName = name
    · simp [PortSpec.control, PortSpec.single, PortDecl.control, hn]
    · simp only [PortSpec.control, PortSpec.single, PortDecl.control, List.find?_cons, hn,
        decide_false, List.find?_map, Option.map_map, Function.comp_def, decide_true,
        Bool.and_true, Option.map_id']
      rfl

/-- A slot below the width of its group is found, if the kind declares the group. -/
theorem Shaped.find?_slot (h : g.Shaped m) {i : Nat} {p : PortDecl}
    (hp : m.kind.entrance? g.signature name (some i) = some p)
    (hheld : ∃ j, m.Reserves name j ∧ i ≤ j) :
    ∃ q, (m.inputs.find? fun q => q.decl.name = name && q.slot = some i) = some q ∧ q.decl = p := by
  obtain ⟨w, hw, -, hcover⟩ := h.inputs
  obtain ⟨j, hj, hij⟩ := hheld
  have hi : i < w name := Nat.lt_of_le_of_lt hij (hcover name j hj)
  cases hkind : m.kind with
  | action d =>
    simp only [NodeKind.entrance?, hkind, NodeKind.action?, Option.bind_some,
      Option.filter_eq_some_iff, Bool.and_eq_true, decide_eq_true_eq] at hp
    obtain ⟨hfind, hv, -⟩ := hp
    have hspec := find?_slot_flatMap hfind hv hi
    have hinputs : (m.inputs.map Port.spec).find?
        (fun s => s.decl.name = name && s.slot = some i) = some ⟨p, some i⟩ := by
      rw [hw, inputShape, hkind,
        List.find?_cons_of_neg (by simp [PortSpec.control, PortSpec.single])]
      exact hspec
    rw [List.find?_map] at hinputs
    obtain ⟨q, hq, hqs⟩ := Option.map_eq_some_iff.1 hinputs
    exact ⟨q, hq, congrArg PortSpec.decl hqs⟩
  | entry => simp [NodeKind.entrance?, hkind, NodeKind.action?] at hp
  | result => simp [NodeKind.entrance?, hkind, NodeKind.action?] at hp

/-- Only nodes of an action kind have slots. -/
theorem Shaped.action_of_slot (h : g.Shaped m) {p : Port} (hp : p ∈ m.inputs) {i : Nat}
    (hi : p.slot = some i) : ∃ d, m.kind = .action d := by
  obtain ⟨w, hw, -⟩ := h.inputs
  have hmem : p.spec ∈ g.inputShape m w := hw ▸ List.mem_map_of_mem hp
  obtain ⟨-, d, hd, -⟩ := mem_inputShape hmem hi
  exact ⟨d, hd⟩

/-- The input found under a name and a slot is the one that the kind declares, if the slot is one
that may be held open and is. -/
theorem Shaped.find?_input (h : g.Shaped m) {slot : Option Nat}
    (hslot : ∀ i, slot = some i → (∃ j, m.Reserves name j ∧ i ≤ j) ∧
      m.kind.HasSlot g.signature ⟨name, some i⟩) :
    (m.inputs.find? fun p => p.decl.name = name && p.slot = slot).map (·.decl) =
      m.kind.entrance? g.signature name slot := by
  cases slot with
  | none => exact h.find?_single
  | some i =>
    obtain ⟨hheld, ⟨p, hp, hgroup⟩, hlimit⟩ := hslot i rfl
    cases hkind : m.kind with
    | action d =>
      have hdecl : m.kind.entrance? g.signature name (some i) = some p := by
        rw [hkind] at hp ⊢
        refine Option.filter_eq_some_iff.2 ⟨hp, ?_⟩
        simpa using ⟨hgroup, hlimit i rfl⟩
      obtain ⟨q, hq, rfl⟩ := h.find?_slot hdecl hheld
      rw [hq, ← hkind, hdecl, Option.map_some]
    | entry => simp [hkind, NodeKind.slots] at hp
    -- A signature may declare a group among its outputs, but Return has no slots.
    | result =>
      refine Option.map_eq_none_iff.2 (List.find?_eq_none.2 fun q hq htest => ?_)
      simp only [Bool.and_eq_true, decide_eq_true_eq] at htest
      obtain ⟨d, hd⟩ := h.action_of_slot hq htest.2
      simp [hkind] at hd

/-- An output of a node that tells its ports apart is declared under its name. -/
theorem Shaped.exit?_eq (h : g.Shaped m) (ha : m.kind.Addressable g.signature) {p : Port}
    (hp : p ∈ m.outputs) : m.kind.exit? g.signature p.decl.name = some p.decl := by
  have hfind := find?_of_nodup_map (h.nodup_outputs ha) hp
    (p := fun q => q.decl.name = p.decl.name) (by simp)
  rw [← h.find?_outputs, hfind, Option.map_some]

/-- An input of a node that tells its ports apart is declared under its name and slot. -/
theorem Shaped.entrance?_eq (h : g.Shaped m) (ha : m.kind.Addressable g.signature) {p : Port}
    (hp : p ∈ m.inputs) (hlimit : ∀ i, p.slot = some i → i < slotLimit) :
    m.kind.entrance? g.signature p.decl.name p.slot = some p.decl := by
  cases hslot : p.slot with
  | none =>
    have hfind := find?_of_nodup_map (h.nodup_inputs ha) hp
      (p := fun q => q.decl.name = p.decl.name && q.slot = none) (by simp [Port.key, hslot])
    rw [← h.find?_single, hfind, Option.map_some]
  | some i =>
    obtain ⟨w, hw, -⟩ := h.inputs
    obtain ⟨-, d, hkind, hdecl, hgroup⟩ :=
      mem_inputShape (hw ▸ List.mem_map_of_mem (f := Port.spec) hp) hslot
    rw [hkind] at ha ⊢
    have hfind := find?_of_nodup_map (List.nodup_cons.1 ha.inputs).2 hdecl
      (p := fun q => q.name = p.decl.name) (fun q => by simp [Port.spec])
    exact Option.filter_eq_some_iff.2 ⟨hfind, by simpa using ⟨hgroup, hlimit i hslot⟩⟩

/-- Two ports of different nodes, an output and an input, may be connected exactly if their
declarations meet. -/
theorem checkConnection_iff {a b : PortId} {n n' : NodeId} {p q : Port}
    (ha : g.port? a = some ⟨n, .output, p⟩) (hb : g.port? b = some ⟨n', .input, q⟩)
    (hhook : g.hook = .standard) :
    (∃ j, g.checkConnection a b = .ok j) ↔ n ≠ n' ∧ p.decl.Meets q.decl := by
  simp only [checkConnection_eq_ok, ha, hb, Option.some.injEq, exists_and_left, exists_eq_left',
    hhook, PortDecl.Meets]
  refine and_congr_right fun _ => ?_
  cases hp : p.decl.isControl <;> cases hq : q.decl.isControl <;>
    simp [orient?, PlacedPort.role, PortRole.of, hp, hq]

end Graph

end EffectGraph
