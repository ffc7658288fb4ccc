import EffectGraph.Proofs.Lookups
import EffectGraph.Proofs.RoundTrip

/-!
# Graphs that are told apart by the numbers of their ports only

Twins have the same nodes up to ports and the same connections by name (`Twin`). Their ports may
have different numbers, their connections may come in different orders, and a variadic group may
show more slots in one of them than in the other. Ports of twins correspond by node, side,
declaration and slot (`TwinPorts`). Connections lead from corresponding ports to corresponding ports
(`Twin.valueSource?`, `Twin.nextControl?`), and a slot that only one of them shows is idle there: it
is not connected and has no default (`Twin.slot`).
-/

namespace EffectGraph

open EffectGraph.Graph Snapshot

/-- Two graphs with the same nodes up to their ports, and the same connections by name. -/
structure Twin (g r : Graph Definition) : Prop where
  original : g.Valid []
  addressable : ∀ m ∈ g.nodes, m.Addressable
  mirrors : Mirrors g r
  records : r.records = g.records

/-- A port of each of two graphs, at the same place of the same node. -/
structure TwinPorts (g r : Graph Definition) (a b : PlacedPort) : Prop where
  left : a ∈ g.allPorts
  right : b ∈ r.allPorts
  node : b.node = a.node
  direction : b.direction = a.direction
  spec : b.port.spec = a.port.spec

/-- Two ids that denote ports at the same place, with a property that depends on the place. -/
def Corresponds (g r : Graph Definition) (P : PlacedPort → Prop) (p q : PortId) : Prop :=
  ∃ a b, TwinPorts g r a b ∧ P a ∧ p = g.portId a.port.index ∧ q = r.portId b.port.index

/-- A value input of a given type that is not connected and has no default. -/
def Graph.Idle (g : Graph Definition) (t : ValueType) (p : PortId) : Prop :=
  ∃ a ∈ g.allPorts, a.role = .valueInput ∧ a.port.decl.type = t ∧ p = g.portId a.port.index ∧
    g.valueSource? p = none ∧ ∀ m, g.node? a.node = some m → m.defaults.get? a.port.key = none

/-- What stands at one place of a group in each of two graphs: slots at the same place, or a slot
in one of them that is idle there. -/
inductive SlotPair (g r : Graph Definition) (t : ValueType) : Option PortId → Option PortId → Prop
  | both {p q : PortId} (h : Corresponds g r (·.port.decl.isControl = false) p q) :
    SlotPair g r t (some p) (some q)
  | left {p : PortId} (h : g.Idle t p) : SlotPair g r t (some p) none
  | right {q : PortId} (h : r.Idle t q) : SlotPair g r t none (some q)
  | none : SlotPair g r t none none

def Aligned (g r : Graph Definition) (t : ValueType) (ps qs : List PortId) : Prop :=
  ∀ i : Nat, SlotPair g r t ps[i]? qs[i]?

variable {g r : Graph Definition} {a b : PlacedPort} {P Q : PlacedPort → Prop} {p q : PortId}

namespace TwinPorts

theorem symm (h : TwinPorts g r a b) : TwinPorts r g b a :=
  ⟨h.right, h.left, h.node.symm, h.direction.symm, h.spec.symm⟩

theorem decl (h : TwinPorts g r a b) : b.port.decl = a.port.decl := congrArg PortSpec.decl h.spec

theorem slot (h : TwinPorts g r a b) : b.port.slot = a.port.slot := congrArg PortSpec.slot h.spec

theorem key (h : TwinPorts g r a b) : b.port.key = a.port.key := by
  simp only [Port.key, h.decl, h.slot]

theorem role (h : TwinPorts g r a b) : b.role = a.role := by
  simp only [PlacedPort.role, h.direction, h.decl]

end TwinPorts

theorem Corresponds.mono (h : Corresponds g r P p q) (hP : ∀ a, P a → Q a) :
    Corresponds g r Q p q := by
  obtain ⟨a, b, hab, ha, hp, hq⟩ := h
  exact ⟨a, b, hab, hP a ha, hp, hq⟩

namespace Aligned

variable {t : ValueType} {ps qs : List PortId}

theorem symm (h : Aligned g r t ps qs) : Aligned r g t qs ps := fun i => by
  have hpair := h i
  generalize ps[i]? = x, qs[i]? = y at hpair
  cases hpair with
  | both h =>
    obtain ⟨a, b, hab, hvalue, rfl, rfl⟩ := h
    exact .both ⟨b, a, hab.symm, (congrArg PortDecl.isControl hab.decl).trans hvalue, rfl, rfl⟩
  | left h => exact .right h
  | right h => exact .left h
  | none => exact .none

/-- Slots that the other graph does not show are idle. -/
theorem idle (h : Aligned g r t ps []) (hp : p ∈ ps) : g.Idle t p := by
  obtain ⟨i, hi⟩ := List.mem_iff_getElem?.1 hp
  have hpair := h i
  rw [hi] at hpair
  cases hpair with
  | left hidle => exact hidle

end Aligned

/-- Two options are related if whatever is found first has its like, and nothing is found second
where nothing was found first. -/
theorem optionRel_of {α β : Type} {R : α → β → Prop} {o : Option α} {o' : Option β}
    (hsome : ∀ x, o = some x → ∃ y, o' = some y ∧ R x y)
    (hnone : ∀ y, o' = some y → ∃ x, o = some x) : Option.Rel R o o' := by
  cases ho : o with
  | some x =>
    obtain ⟨y, hy, hxy⟩ := hsome x ho
    exact hy ▸ .some hxy
  | none =>
    cases ho' : o' with
    | none => exact .none
    | some y =>
      obtain ⟨x, hx⟩ := hnone y ho'
      simp [ho] at hx

/-! ## Twins -/

namespace Twin

theorem symm (h : Twin g r) : Twin r g where
  original := h.mirrors.valid
  addressable := h.mirrors.addressable_nodes h.addressable
  mirrors := ⟨h.original, h.mirrors.core.symm, h.mirrors.hook.symm,
    .inl fun m hm => (h.mirrors.addressable_nodes h.addressable m hm).imp fun _ hd => hd.1⟩
  records := h.records.symm

theorem valid (h : Twin g r) : r.Valid [] := h.mirrors.valid

theorem image_addressable (h : Twin g r) : r.Addressable :=
  addressable_of_nodes h.symm.addressable

theorem image (h : Twin g r) {m : Node Definition} (hm : m ∈ g.nodes) :
    ∃ k ∈ r.nodes, k.core = m.core :=
  List.mem_map.1 (h.mirrors.core ▸ List.mem_map_of_mem hm)

/-- The node of one graph under an id, and that of its twin. -/
theorem node? (h : Twin g r) (n : NodeId) :
    Option.Rel (fun m k => m ∈ g.nodes ∧ k.core = m.core) (g.node? n) (r.node? n) := by
  have hfound : ∀ {g r : Graph Definition}, Twin g r → ∀ m, g.node? n = some m →
      ∃ k, r.node? n = some k ∧ m ∈ g.nodes ∧ k.core = m.core := by
    intro g r h m hm
    obtain ⟨hmem, hid⟩ := node?_mem hm
    obtain ⟨k, hk, he⟩ := h.image hmem
    have hkid : k.id = n := (congrArg Node.id he).trans hid
    exact ⟨k, hkid ▸ node?_of_mem h.valid.ascending hk, hmem, he⟩
  exact optionRel_of (hfound h) fun k hk =>
    (hfound h.symm k hk).imp fun _ hx => hx.1

/-- Ports of twins are at the same place if they have the same node, side and key. -/
theorem ports_of_key (h : Twin g r) (ha : a ∈ g.allPorts) (hb : b ∈ r.allPorts)
    (hnode : b.node = a.node) (hdirection : b.direction = a.direction)
    (hkey : b.port.key = a.port.key) : TwinPorts g r a b := by
  obtain ⟨hname, hslot⟩ := SlotKey.mk.inj hkey
  have hra := h.image_addressable
  cases hside : a.direction with
  | output =>
    obtain ⟨b', hb', hbn, hbd, hspec⟩ := h.mirrors.exists_output h.original ha hside
    have hdecl : b'.port.decl = a.port.decl := congrArg PortSpec.decl hspec
    have he := h.valid.output_unique hra hb hb' (hdirection.trans hside) hbd (hnode.trans hbn.symm)
      (by rw [hname, hdecl])
    exact ⟨ha, hb, hnode, hdirection, he ▸ hspec⟩
  | input =>
    obtain ⟨m, hm, hmn, hpa⟩ := exists_of_input ha hside
    obtain ⟨k, hk, hkn, hpb⟩ := exists_of_input hb (hdirection.trans hside)
    obtain ⟨k', hk', hid, hkind⟩ := h.mirrors.image hm
    have hids := hkn.symm.trans (hnode.trans (hmn.trans hid.symm))
    obtain rfl := h.valid.ascending.id_inj hk hk' hids
    obtain ⟨d, hd, hs⟩ := h.addressable m hm
    -- Both ports are declared by the kind of their nodes, which tells inputs apart by name.
    have hdecl : b.port.decl = a.port.decl := by
      have hda := (h.original.shaped m hm List.not_mem_nil).decl_mem hd hpa
      have hdb := (h.valid.shaped k hk List.not_mem_nil).decl_mem (hkind.trans hd) hpb
      exact hs.decl_inj hdb hda hname
    exact ⟨ha, hb, hnode, hdirection, PortSpec.mk.injEq .. ▸ ⟨hdecl, hslot⟩⟩

/-! ### Connections -/

/-- A connection has its like between the ports at the same places. -/
theorem exists_joins (h : Twin g r) {c : Connection} (hc : c ∈ g.connections)
    (hj : g.Joins c a b) : ∃ c' ∈ r.connections, ∃ a' b', r.Joins c' a' b' ∧
      TwinPorts g r a a' ∧ TwinPorts g r b b' := by
  have hrecord := h.original.wellFormed.mem_records hc ⟨a, b, hj, rfl⟩
  rw [← h.records] at hrecord
  obtain ⟨c', hc', a', b', hj', he⟩ := h.valid.wellFormed.described_of_mem_records hrecord
  obtain ⟨hsource, hport, hdest, hname, -, -⟩ := ConnectionRecord.mk.inj he
  have hslots : b.port.slot = b'.port.slot := by
    rw [← slotOf_ofEnds c.kind a (h.original.slots b hj.destination_mem), he,
      slotOf_ofEnds c'.kind a' (h.valid.slots b' hj'.destination_mem)]
  have houtput : a'.port.key = a.port.key := by
    have hnone : ∀ {g : Graph Definition} {c : Connection} {a b : PlacedPort}, g.Valid [] →
        g.Joins c a b → a.port.slot = none := by
      intro g c a b hg hj
      obtain ⟨m, hm, -, hp⟩ := exists_of_output hj.source_mem hj.source_output
      have hspecs := (hg.shaped m hm List.not_mem_nil).outputs
      exact slot_of_mem_wantedOutputs (hspecs ▸ List.mem_map_of_mem (f := Port.spec) hp)
    rw [Port.key, Port.key, ← hport, hnone h.valid hj', hnone h.original hj]
  have hinput : b'.port.key = b.port.key := by rw [Port.key, Port.key, ← hname, ← hslots]
  exact ⟨c', hc', a', b', hj',
    h.ports_of_key hj.source_mem hj'.source_mem (congrArg NodeId.mk hsource.symm)
      (hj'.source_output.trans hj.source_output.symm) houtput,
    h.ports_of_key hj.destination_mem hj'.destination_mem (congrArg NodeId.mk hdest.symm)
      (hj'.destination_input.trans hj.destination_input.symm) hinput⟩

/-- The two ports of a graph that are at the same place as a port of its twin are one. -/
theorem ports_unique (h : Twin g r) {b' : PlacedPort} (hb : TwinPorts g r a b)
    (hb' : TwinPorts g r a b') : b = b' := by
  have hra := h.image_addressable
  cases hside : a.direction with
  | input =>
    exact h.valid.input_unique hra hb.right hb'.right (hb.direction.trans hside)
      (hb'.direction.trans hside) (hb.node.trans hb'.node.symm) (hb.key.trans hb'.key.symm)
  | output =>
    exact h.valid.output_unique hra hb.right hb'.right (hb.direction.trans hside)
      (hb'.direction.trans hside) (hb.node.trans hb'.node.symm) (by rw [hb.decl, hb'.decl])

/-- Value inputs at the same place are connected to value outputs at the same place. -/
theorem valueSource? (h : Twin g r) (hpq : Corresponds g r (·.role = .valueInput) p q) :
    Option.Rel (Corresponds g r (·.role = .valueOutput)) (g.valueSource? p)
      (r.valueSource? q) := by
  have hfound : ∀ {g r : Graph Definition} {a b : PlacedPort}, Twin g r → TwinPorts g r a b →
      a.role = .valueInput → ∀ x, g.valueSource? (g.portId a.port.index) = some x →
      ∃ y, r.valueSource? (r.portId b.port.index) = some y ∧
        Corresponds g r (·.role = .valueOutput) x y := by
    intro g r a b h hab hrole x hx
    obtain ⟨c, hc, s, hj, rfl⟩ :=
      (h.original.wellFormed.valueSource?_eq_some hab.left hrole).1 hx
    obtain ⟨c', hc', s', b', hj', hs, hb⟩ := h.exists_joins hc hj
    obtain rfl := h.ports_unique hab hb
    refine ⟨_, (h.valid.wellFormed.valueSource?_eq_some hab.right (hab.role.trans hrole)).2
      ⟨c', hc', s', hj', rfl⟩, s, s', hs, ?_, rfl, rfl⟩
    -- The connection carries a value, as its destination takes one.
    have hvalue : s.port.decl.isControl = false := by
      refine Bool.eq_false_iff.2 fun hcontrol => ?_
      have hdest := hj.destination_control.2 (hj.source_control.1 hcontrol)
      have hcarried := ((PlacedPort.role_eq_iff .input false).1 hrole).2
      exact Bool.false_ne_true (hcarried.symm.trans hdest)
    exact (PlacedPort.role_eq_iff .output false).2 ⟨hj.source_output, hvalue⟩
  obtain ⟨a, b, hab, hrole, rfl, rfl⟩ := hpq
  exact optionRel_of (hfound h hab hrole) fun y hy =>
    (hfound h.symm hab.symm (hab.role.trans hrole) y hy).imp fun _ hx => hx.1

/-- Control outputs at the same place lead to control inputs at the same place. -/
theorem nextControl? (h : Twin g r) (hpq : Corresponds g r (·.role = .controlOutput) p q) :
    Option.Rel (Corresponds g r (·.role = .controlInput)) (g.nextControl? p)
      (r.nextControl? q) := by
  have hfound : ∀ {g r : Graph Definition} {a b : PlacedPort}, Twin g r → TwinPorts g r a b →
      a.role = .controlOutput → ∀ x, g.nextControl? (g.portId a.port.index) = some x →
      ∃ y, r.nextControl? (r.portId b.port.index) = some y ∧
        Corresponds g r (·.role = .controlInput) x y := by
    intro g r a b h hab hrole x hx
    obtain ⟨c, hc, d, hj, rfl⟩ :=
      (h.original.wellFormed.nextControl?_eq_some hab.left hrole).1 hx
    obtain ⟨c', hc', b', d', hj', hb, hd⟩ := h.exists_joins hc hj
    obtain rfl := h.ports_unique hab hb
    refine ⟨_, (h.valid.wellFormed.nextControl?_eq_some hab.right (hab.role.trans hrole)).2
      ⟨c', hc', d', hj', rfl⟩, d, d', hd, ?_, rfl, rfl⟩
    have hsource := ((PlacedPort.role_eq_iff .output true).1 hrole).2
    have hcontrol := hj.destination_control.2 (hj.source_control.1 hsource)
    exact (PlacedPort.role_eq_iff .input true).2 ⟨hj.destination_input, hcontrol⟩
  obtain ⟨a, b, hab, hrole, rfl, rfl⟩ := hpq
  exact optionRel_of (hfound h hab hrole) fun y hy =>
    (hfound h.symm hab.symm (hab.role.trans hrole) y hy).imp fun _ hx => hx.1

/-! ### Ports by name -/

theorem output? (h : Twin g r) (n : NodeId) (name : String) :
    Option.Rel (Corresponds g r (·.direction = .output)) (g.output? n name) (r.output? n name) := by
  have hfound : ∀ {g r : Graph Definition}, Twin g r → ∀ x, g.output? n name = some x →
      ∃ y, r.output? n name = some y ∧ Corresponds g r (·.direction = .output) x y := by
    intro g r h x hx
    obtain ⟨a, ha, hside, rfl, rfl, rfl⟩ := output?_eq_some hx
    obtain ⟨b, hb, hnode, hdirection, hspec⟩ :=
      h.mirrors.exists_output h.original ha hside
    have hab : TwinPorts g r a b := ⟨ha, hb, hnode, hdirection.trans hside.symm, hspec⟩
    have hy := h.valid.output?_eq h.image_addressable hb hdirection
    rw [hnode, hab.decl] at hy
    exact ⟨_, hy, a, b, hab, hside, rfl, rfl⟩
  exact optionRel_of (hfound h) fun y hy =>
    (hfound h.symm y hy).imp fun _ hx => hx.1

theorem input? (h : Twin g r) (n : NodeId) (name : String) :
    Option.Rel (Corresponds g r fun a => a.node = n ∧ a.direction = .input ∧
      a.port.decl.name = name) (g.input? n name none) (r.input? n name none) := by
  have hfound : ∀ {g r : Graph Definition}, Twin g r → ∀ x, g.input? n name none = some x →
      ∃ y, r.input? n name none = some y ∧ Corresponds g r (fun a => a.node = n ∧
        a.direction = .input ∧ a.port.decl.name = name) x y := by
    intro g r h x hx
    obtain ⟨a, ha, hside, rfl, hkey, rfl⟩ := input?_eq_some hx
    obtain ⟨rfl, hslot⟩ := SlotKey.mk.inj hkey
    obtain ⟨b, hb, hnode, hdirection, hspec⟩ :=
      h.mirrors.exists_input h.original ha hside fun i hi => by simp [hslot] at hi
    have hab : TwinPorts g r a b := ⟨ha, hb, hnode, hdirection.trans hside.symm, hspec⟩
    have hy := h.valid.input?_eq h.image_addressable hb hdirection
    rw [hnode, hab.decl, hab.slot, hslot] at hy
    exact ⟨_, hy, a, b, hab, ⟨rfl, hside, rfl⟩, rfl, rfl⟩
  exact optionRel_of (hfound h) fun y hy =>
    (hfound h.symm y hy).imp fun _ hx => hx.1

/-! ### Slots of twins -/

section Slots

variable {m : Node Definition} {k : Definition} {d : PortDecl} {i : Nat} (h : Twin g r)
  (hm : m ∈ g.nodes) (hkind : m.kind = .action k) (hd : d ∈ k.signature.inputs)

include h hm hkind

theorem signature_addressable : k.signature.Addressable := by
  obtain ⟨k', hk', hs⟩ := h.addressable m hm
  obtain rfl : k = k' := by simpa [hkind] using hk'
  exact hs

/-- An input of a node by the name of a declared one has its declaration. -/
theorem decl_of_name {e : PortDecl} (he : e ∈ .control enterName :: k.signature.inputs)
    (ha : a ∈ g.allPorts) (hside : a.direction = .input) (hnode : a.node = m.id)
    (hname : a.port.decl.name = e.name) : a.port.decl = e := by
  obtain ⟨m', hm', hid, hpa⟩ := exists_of_input ha hside
  obtain rfl := h.original.ascending.id_inj hm hm' (hnode.symm.trans hid)
  have hdecl := (h.original.shaped m hm List.not_mem_nil).decl_mem hkind hpa
  exact (h.signature_addressable hm hkind).decl_inj hdecl he hname

include hd

/-- A slot with a default is shown by the twin too. -/
theorem exists_slot_of_default (hvariadic : d.isVariadic = true) {v : Value}
    (hv : m.defaults.get? ⟨d.name, some i⟩ = some v) :
    ∃ q, r.input? m.id d.name (some i) = some q := by
  obtain ⟨n, hn, hcore⟩ := h.image hm
  have hid : n.id = m.id := (congrArg Node.id hcore :)
  have hdefaults : n.defaults = m.defaults := (congrArg Node.defaults hcore :)
  obtain ⟨-, hcover, hget⟩ := (h.valid.shaped n hn List.not_mem_nil).variadicSlots
    ((congrArg Node.kind hcore).trans hkind) hd hvariadic
    (h.signature_addressable hm hkind).distinct h.valid.ascending hn
  have hreserves : n.Reserves d.name i := by
    refine .inl (Table.mem_keys_iff.2 ?_)
    rw [hdefaults, hv]
    rfl
  rw [← hid, ← hget i]
  exact ⟨_, List.getElem?_eq_getElem (hcover i hreserves)⟩

variable (hvalue : d.isControl = false)

include hvalue

/-- A slot that the twin does not show is idle. -/
theorem idle (hvariadic : d.isVariadic = true) (hp : g.input? m.id d.name (some i) = some p)
    (hq : r.input? m.id d.name (some i) = none) : g.Idle d.type p := by
  obtain ⟨a, ha, hside, hnode, hkey, rfl⟩ := input?_eq_some hp
  have hdecl := h.decl_of_name hm hkind (.tail _ hd) ha hside hnode (congrArg SlotKey.name hkey)
  have hcarries := (congrArg PortDecl.isControl hdecl).trans hvalue
  have hrole : a.role = .valueInput := (PlacedPort.role_eq_iff .input false).2 ⟨hside, hcarries⟩
  refine ⟨a, ha, hrole, congrArg PortDecl.type hdecl, rfl, ?_, fun m' hm' => ?_⟩
  · -- A connection would have its like at the same place of the twin.
    refine Option.eq_none_iff_forall_ne_some.2 fun x hx => ?_
    obtain ⟨c, hc, s, hj, -⟩ := (h.original.wellFormed.valueSource?_eq_some ha hrole).1 hx
    obtain ⟨-, -, -, b, -, -, hab⟩ := h.exists_joins hc hj
    have hfound := h.valid.input?_eq h.image_addressable hab.right
      (hab.direction.trans hside)
    obtain ⟨hname, hslot⟩ := SlotKey.mk.inj hkey
    simp [hab.node, hab.decl, hab.slot, hnode, hname, hslot, hq] at hfound
  · -- A default would keep the slot open in the twin.
    refine Option.eq_none_iff_forall_ne_some.2 fun v hv => ?_
    have hsame := hnode ▸ node?_of_mem h.original.ascending hm
    obtain rfl := Option.some.inj (hsame.symm.trans hm')
    obtain ⟨q, hfound⟩ := h.exists_slot_of_default hm hkind hd hvariadic (hkey ▸ hv)
    simp [hq] at hfound

/-- The groups of two twins show slots at the same places, and idle slots beyond. -/
theorem slots (hvariadic : d.isVariadic = true) :
    g.variadicSlots m.id d.name ≠ [] ∧ r.variadicSlots m.id d.name ≠ [] ∧
      Aligned g r d.type (g.variadicSlots m.id d.name) (r.variadicSlots m.id d.name) := by
  obtain ⟨n, hn, hcore⟩ := h.image hm
  have hid : n.id = m.id := (congrArg Node.id hcore :)
  have hkindn : n.kind = .action k := (congrArg Node.kind hcore).trans hkind
  have hs := (h.signature_addressable hm hkind).distinct
  obtain ⟨hshown, -, hget⟩ := (h.original.shaped m hm List.not_mem_nil).variadicSlots
    hkind hd hvariadic hs h.original.ascending hm
  obtain ⟨hshown', -, hget'⟩ := (h.valid.shaped n hn List.not_mem_nil).variadicSlots
    hkindn hd hvariadic hs h.valid.ascending hn
  rw [hid] at hshown' hget'
  refine ⟨hshown, hshown', fun i => ?_⟩
  rw [hget, hget']
  cases hp : g.input? m.id d.name (some i) with
  | none =>
    cases hq : r.input? m.id d.name (some i) with
    | none => exact .none
    | some q => exact .right (h.symm.idle hn hkindn hd hvalue hvariadic (hid ▸ hq) (hid ▸ hp))
  | some p =>
    cases hq : r.input? m.id d.name (some i) with
    | none => exact .left (h.idle hm hkind hd hvalue hvariadic hp hq)
    | some q =>
      obtain ⟨a, ha, haside, hanode, hakey, rfl⟩ := input?_eq_some hp
      obtain ⟨b, hb, hbside, hbnode, hbkey, rfl⟩ := input?_eq_some hq
      have hab := h.ports_of_key ha hb (hbnode.trans hanode.symm) (hbside.trans haside.symm)
        (hbkey.trans hakey.symm)
      have hdecl :=
        h.decl_of_name hm hkind (.tail _ hd) ha haside hanode (congrArg SlotKey.name hakey)
      exact .both ⟨a, b, hab, (congrArg PortDecl.isControl hdecl).trans hvalue, rfl, rfl⟩

end Slots

end Twin

end EffectGraph
