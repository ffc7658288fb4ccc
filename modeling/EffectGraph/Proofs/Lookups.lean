import EffectGraph.Proofs.Conforming

/-!
# What is found in a valid graph

The ports that a graph finds by name, and the ends of the connections that it finds by port. In a
well-formed graph a value input or a control output has one connection at most, so that it does not
matter in which order connections were made (`WellFormed.valueSource?_eq_some`,
`WellFormed.nextControl?_eq_some`). The slots of a group are found under their places
(`Shaped.variadicSlots`).
-/

namespace EffectGraph

open EffectGraph.Graph

variable {g : Graph Definition}

/-- The role of a port tells its side and what it carries. -/
theorem PlacedPort.role_eq_iff {p : PlacedPort} (side : Direction) (isControl : Bool) :
    p.role = .of side isControl ↔ p.direction = side ∧ p.port.decl.isControl = isControl := by
  unfold PlacedPort.role
  cases p.direction <;> cases side <;> cases p.port.decl.isControl <;> cases isControl <;>
    simp [PortRole.of]

theorem Connection.Excludes.symm {c d : Connection} (h : c.Excludes d) : d.Excludes c := by
  obtain ⟨hkind, ⟨hvalue, hend⟩ | ⟨hcontrol, hend⟩⟩ := h
  · exact ⟨hkind.symm, .inl ⟨hkind ▸ hvalue, hend.symm⟩⟩
  · exact ⟨hkind.symm, .inr ⟨hkind ▸ hcontrol, hend.symm⟩⟩

namespace Graph

variable {s d : PlacedPort} {x : PortId} {n : NodeId} {name : String} {slot : Option Nat}

/-- A port that admits one connection has one at most. -/
theorem WellFormed.connection_unique (h : g.WellFormed) {q : PlacedPort} (hq : q ∈ g.allPorts)
    (hrole : q.role = .valueInput ∨ q.role = .controlOutput) {c c' : Connection}
    (hc : c ∈ g.connections) (hc' : c' ∈ g.connections) (ht : c.touches q.port.index = true)
    (ht' : c'.touches q.port.index = true) : c' = c := by
  by_contra hne
  have : Std.Symm fun c d : Connection => ¬c.Excludes d := ⟨fun _ _ hnot hex => hnot hex.symm⟩
  exact h.single.forall hc' hc hne (h.excludes hq hrole hc' hc ht' ht)

/-- The source of a connection to a value input is a value output. -/
theorem Joins.role_source {c : Connection} (h : g.Joins c s d) (hrole : d.role = .valueInput) :
    s.role = .valueOutput := by
  refine (PlacedPort.role_eq_iff .output false).2 ⟨h.source_output, ?_⟩
  have hvalue := ((PlacedPort.role_eq_iff .input false).1 hrole).2
  have hcontrol := h.source_control.trans h.destination_control.symm
  by_contra hsource
  rw [hcontrol.1 (by simpa using hsource)] at hvalue
  exact Bool.noConfusion hvalue

/-- A value input has the source of its connection. -/
theorem WellFormed.valueSource?_eq_some (h : g.WellFormed) (hd : d ∈ g.allPorts)
    (hrole : d.role = .valueInput) : g.valueSource? (g.portId d.port.index) = some x ↔
      ∃ c ∈ g.connections, ∃ s, g.Joins c s d ∧ g.portId s.port.index = x := by
  simp only [valueSource?, portId, if_true, Option.map_eq_some_iff]
  constructor
  · rintro ⟨c, hc, rfl⟩
    have hmem := List.mem_of_find?_eq_some hc
    have htest := List.find?_some hc
    have hend := of_decide_eq_true htest
    obtain ⟨s, t, hj⟩ := h.joined c hmem
    obtain rfl := h.port_inj hj.destination_mem hd (hj.destination_index.trans hend)
    exact ⟨c, hmem, s, hj, by rw [hj.source_index]⟩
  · rintro ⟨c, hc, s, hj, rfl⟩
    refine ⟨c, find?_eq_of_unique hc (by simp [hj.destination_index]) fun c' hc' ht' => ?_,
      by rw [hj.source_index]⟩
    refine h.connection_unique hd (.inl hrole) hc hc' ?_ ?_
    · simp [Connection.touches, hj.destination_index]
    · simp [Connection.touches, of_decide_eq_true ht']

theorem WellFormed.nextControl?_eq_some (h : g.WellFormed) (hs : s ∈ g.allPorts)
    (hrole : s.role = .controlOutput) : g.nextControl? (g.portId s.port.index) = some x ↔
      ∃ c ∈ g.connections, ∃ d, g.Joins c s d ∧ g.portId d.port.index = x := by
  simp only [nextControl?, portId, if_true, Option.map_eq_some_iff]
  constructor
  · rintro ⟨c, hc, rfl⟩
    have hmem := List.mem_of_find?_eq_some hc
    have htest := List.find?_some hc
    have hend := of_decide_eq_true htest
    obtain ⟨t, d, hj⟩ := h.joined c hmem
    obtain rfl := h.port_inj hj.source_mem hs (hj.source_index.trans hend)
    exact ⟨c, hmem, d, hj, by rw [hj.destination_index]⟩
  · rintro ⟨c, hc, d, hj, rfl⟩
    refine ⟨c, find?_eq_of_unique hc (by simp [hj.source_index]) fun c' hc' ht' => ?_,
      by rw [hj.destination_index]⟩
    refine h.connection_unique hs (.inr hrole) hc hc' ?_ ?_
    · simp [Connection.touches, hj.source_index]
    · simp [Connection.touches, of_decide_eq_true ht']

theorem WellFormed.mem_records (h : g.WellFormed) {c : Connection} (hc : c ∈ g.connections)
    {e : ConnectionRecord} (he : g.Described c e) : e ∈ g.records :=
  (perm_sortRecords _).symm.subset (List.mem_filterMap.2 ⟨c, hc, (h.described_iff hc).1 he⟩)

theorem input?_eq_some (h : g.input? n name slot = some x) : ∃ d ∈ g.allPorts,
    d.direction = .input ∧ d.node = n ∧ d.port.key = ⟨name, slot⟩ ∧ x = g.portId d.port.index := by
  obtain ⟨m, hm, h⟩ := Option.bind_eq_some_iff.1 h
  obtain ⟨p, hp, rfl⟩ := Option.map_eq_some_iff.1 h
  obtain ⟨hmem, rfl⟩ := node?_mem hm
  have htest := List.find?_some hp
  simp only [Bool.and_eq_true, decide_eq_true_eq] at htest
  exact ⟨_, input_mem_allPorts hmem (List.mem_of_find?_eq_some hp), rfl, rfl,
    by rw [Port.key, htest.1, htest.2], rfl⟩

theorem output?_eq_some (h : g.output? n name = some x) : ∃ s ∈ g.allPorts,
    s.direction = .output ∧ s.node = n ∧ s.port.decl.name = name ∧
      x = g.portId s.port.index := by
  obtain ⟨m, hm, h⟩ := Option.bind_eq_some_iff.1 h
  obtain ⟨p, hp, rfl⟩ := Option.map_eq_some_iff.1 h
  obtain ⟨hmem, rfl⟩ := node?_mem hm
  have htest := List.find?_some hp
  exact ⟨_, output_mem_allPorts hmem (List.mem_of_find?_eq_some hp), rfl, rfl,
    of_decide_eq_true htest, rfl⟩

/-- No output is found under two names. -/
theorem WellFormed.output?_name_inj (h : g.WellFormed) {n' : NodeId} {name' : String}
    (hx : g.output? n name = some x) (hx' : g.output? n' name' = some x) : name = name' := by
  obtain ⟨s, hs, -, -, rfl, rfl⟩ := output?_eq_some hx
  obtain ⟨t, ht, -, -, rfl, hid⟩ := output?_eq_some hx'
  rw [h.port_inj hs ht (congrArg PortId.index hid)]

/-- A declared output of an action node is found under its name, if need be another that has it. -/
theorem Valid.exists_output (h : g.Valid []) {m : Node Definition} (hm : m ∈ g.nodes)
    {k : Definition} (hkind : m.kind = .action k) {c : PortDecl} (hc : c ∈ k.signature.outputs) :
    ∃ p port, g.output? m.id c.name = some p ∧ g.port? p = some port := by
  have hdecls := (h.shaped m hm List.not_mem_nil).decl_outputs hkind
  obtain ⟨q, hq, rfl⟩ := List.mem_map.1 (hdecls ▸ List.mem_cons_of_mem _ hc : c ∈ m.outputs.map _)
  obtain ⟨r, hr⟩ := Option.isSome_iff_exists.1
    (List.find?_isSome.2 ⟨q, hq, decide_eq_true rfl⟩ :
      (m.outputs.find? fun r => r.decl.name = q.decl.name).isSome = true)
  have hport := h.wellFormed.port?_portId (output_mem_allPorts hm (List.mem_of_find?_eq_some hr))
  exact ⟨g.portId r.index, _, by simp [output?, node?_of_mem h.ascending hm, hr], hport⟩

/-- An action node has an exit. -/
theorem Valid.exists_exit (h : g.Valid []) {m : Node Definition} (hm : m ∈ g.nodes)
    {k : Definition} (hkind : m.kind = .action k) : ∃ p port, g.output? m.id exitName = some p ∧
      g.port? p = some port ∧ port.port.decl.isControl = true := by
  have hdecls := (h.shaped m hm List.not_mem_nil).decl_outputs hkind
  obtain ⟨q, qs, hports, hq, -⟩ := List.map_eq_cons_iff.1 hdecls
  have hmem : q ∈ m.outputs := hports ▸ List.mem_cons_self
  refine ⟨g.portId q.index, _, ?_, h.wellFormed.port?_portId (output_mem_allPorts hm hmem), ?_⟩
  · simp [output?, node?_of_mem h.ascending hm, hports, hq, PortDecl.control]
  · simp [hq, PortDecl.control]

/-- A declared input of an action node that is not a group belongs to the shape of the node. -/
theorem single_mem_of_input {m : Node Definition} {k : Definition} (hkind : m.kind = .action k)
    {c : PortDecl} (hc : c ∈ k.signature.inputs) (hsingle : c.isVariadic = false)
    (w : String → Nat) : PortSpec.single c ∈ g.inputShape m w := by
  rw [inputShape, hkind]
  exact List.mem_cons_of_mem _ (List.mem_flatMap.2 ⟨c, hc, by simp [slotSpecs, hsingle]⟩)

/-- A declared output of the owner belongs to the shape of Return. -/
theorem single_mem_of_output {m : Node Definition} (hkind : m.kind = .result) {s : Signature}
    (hs : g.signature = some s) {c : PortDecl} (hc : c ∈ s.outputs) (w : String → Nat) :
    PortSpec.single c ∈ g.inputShape m w := by
  rw [inputShape, hkind, hs]
  exact List.mem_cons_of_mem _ (List.mem_map_of_mem hc)

theorem Shaped.exists_single {m : Node Definition} (h : g.Shaped m) {c : PortDecl}
    (hc : ∀ w, PortSpec.single c ∈ g.inputShape m w) :
    ∃ q ∈ m.inputs, q.decl = c ∧ q.slot = none := by
  obtain ⟨w, hw, -⟩ := h.inputs
  obtain ⟨q, hq, he⟩ := List.mem_map.1 (hw ▸ hc w : PortSpec.single c ∈ m.inputs.map Port.spec)
  obtain ⟨hdecl, hslot⟩ := PortSpec.mk.inj he
  exact ⟨q, hq, hdecl, hslot⟩

/-- An input that belongs to the shape of a node is found under its name, if need be another that
has it. -/
theorem Valid.exists_input (h : g.Valid []) {m : Node Definition} (hm : m ∈ g.nodes)
    {c : PortDecl} (hc : ∀ w, PortSpec.single c ∈ g.inputShape m w) :
    ∃ p, g.input? m.id c.name none = some p := by
  obtain ⟨q, hq, hdecl, hslot⟩ := (h.shaped m hm List.not_mem_nil).exists_single hc
  obtain ⟨r, hr⟩ := Option.isSome_iff_exists.1
    (List.find?_isSome.2 ⟨q, hq, by simp [hdecl, hslot]⟩ :
      (m.inputs.find? fun r => r.decl.name = c.name && r.slot = none).isSome = true)
  exact ⟨g.portId r.index, by simp [input?, node?_of_mem h.ascending hm, hr]⟩

/-- A declared output of the owner is found under its name at Return. -/
theorem Valid.exists_result_input (h : g.Valid []) {s : Signature} (hs : g.signature = some s)
    {n : NodeId} (hn : g.resultNode? = some n) {c : PortDecl} (hc : c ∈ s.outputs) :
    ∃ p, g.input? n c.name none = some p := by
  obtain ⟨m, hm, rfl, hkind⟩ := mem_of_resultNode? hn
  exact h.exists_input hm (single_mem_of_output hkind hs hc)

/-! ## Slots -/

/-- The slots of a group are those of one declared input. -/
theorem filter_flatMap_slotSpecs {w : String → Nat} {ds : List PortDecl} {d : PortDecl}
    (hnames : (ds.map (·.name)).Nodup) (hd : d ∈ ds) (hvariadic : d.isVariadic = true) :
    (ds.flatMap (slotSpecs w)).filter (fun s => s.decl.name = d.name && s.slot.isSome) =
      slotSpecs w d := by
  have hnone : ∀ e : PortDecl, e.name ≠ d.name →
      (slotSpecs w e).filter (fun s => s.decl.name = d.name && s.slot.isSome) = [] := by
    intro e hne
    refine List.filter_eq_nil_iff.2 fun s hs htest => hne ?_
    simp only [(mem_slotSpecs hs).1, Bool.and_eq_true, decide_eq_true_eq] at htest
    exact htest.1
  have hall : (slotSpecs w d).filter (fun s => s.decl.name = d.name && s.slot.isSome) =
      slotSpecs w d := by
    refine List.filter_eq_self.2 fun s hs => ?_
    rw [slotSpecs, if_pos hvariadic] at hs
    obtain ⟨i, -, rfl⟩ := List.mem_map.1 hs
    simp
  induction ds with
  | nil => simp at hd
  | cons e es ih =>
    obtain ⟨hhead, htail⟩ := List.nodup_cons.1 (List.map_cons ▸ hnames)
    rw [List.flatMap_cons, List.filter_append]
    rcases List.mem_cons.1 hd with rfl | hd
    · have hrest : (es.flatMap (slotSpecs w)).filter
          (fun s => s.decl.name = d.name && s.slot.isSome) = [] := by
        rw [List.filter_flatMap]
        refine List.flatMap_eq_nil_iff.2 fun e he => hnone e fun hname => hhead ?_
        exact hname ▸ List.mem_map_of_mem he
      rw [hall, hrest, List.append_nil]
    · have hne : e.name ≠ d.name := fun hname => hhead (hname ▸ List.mem_map_of_mem hd)
      rw [hnone e hne, List.nil_append, ih htail hd]

section Group

variable {m : Node Definition} (h : g.Shaped m) {k : Definition} (hkind : m.kind = .action k)
  {d : PortDecl} (hd : d ∈ k.signature.inputs) (hvariadic : d.isVariadic = true)

include h hkind hd hvariadic

/-- The ports of a group are its slots in order, one at least and all those that its node keeps
open. -/
theorem Shaped.exists_width (hk : k.signature.Distinct) :
    ∃ w, 0 < w ∧ (∀ i, m.Reserves d.name i → i < w) ∧
      (m.inputs.filter fun p => p.decl.name = d.name && p.slot.isSome).map Port.spec =
        (List.range w).map fun i => ⟨d, some i⟩ := by
  obtain ⟨w, hw, hbounds, hcover⟩ := h.inputs
  refine ⟨w d.name, (hbounds d.name).1, hcover d.name, ?_⟩
  have hfilter : (m.inputs.filter fun p => p.decl.name = d.name && p.slot.isSome).map Port.spec =
      (g.inputShape m w).filter fun s => s.decl.name = d.name && s.slot.isSome := by
    rw [← hw, List.filter_map]
    rfl
  have hcontrol : (PortSpec.control enterName).slot.isSome = false := rfl
  have hgroup := filter_flatMap_slotSpecs (w := w) hk hd hvariadic
  rw [slotSpecs, if_pos hvariadic] at hgroup
  rw [hfilter, inputShape, hkind, List.filter_cons_of_neg (by simp [hcontrol])]
  exact hgroup

/-- A group shows at least one slot and all those that its node keeps open, and its slots are its
inputs in order. -/
theorem Shaped.variadicSlots (hk : k.signature.Distinct) (hg : g.Ascending) (hm : m ∈ g.nodes) :
    g.variadicSlots m.id d.name ≠ [] ∧
      (∀ i, m.Reserves d.name i → i < (g.variadicSlots m.id d.name).length) ∧
      ∀ i, (g.variadicSlots m.id d.name)[i]? = g.input? m.id d.name (some i) := by
  obtain ⟨w, hpos, hreserves, hspecs⟩ := h.exists_width hkind hd hvariadic hk
  have hslots : g.variadicSlots m.id d.name = (m.inputs.filter fun p =>
      p.decl.name = d.name && p.slot.isSome).map fun p => g.portId p.index := by
    simp only [Graph.variadicSlots, node?_of_mem hg hm]
  rw [hslots]
  generalize hps : (m.inputs.filter fun p => p.decl.name = d.name && p.slot.isSome) = ps
    at hspecs ⊢
  have hlength : ps.length = w := by simpa using congrArg List.length hspecs
  rw [List.length_map, hlength]
  refine ⟨fun he => ?_, hreserves, fun i => ?_⟩
  · rw [List.map_eq_nil_iff.1 he] at hlength
    exact hpos.ne hlength
  -- An input of the group at a place stands at this place among the slots.
  have hplace : ∀ p ∈ m.inputs, (decide (p.decl.name = d.name) && decide (p.slot = some i)) = true →
      ps[i]? = some p := by
    intro p hp htest
    simp only [Bool.and_eq_true, decide_eq_true_eq] at htest
    obtain ⟨j, hj⟩ := List.mem_iff_getElem?.1
      (hps ▸ List.mem_filter.2 ⟨hp, by simp [htest]⟩ : p ∈ ps)
    have hspec := congrArg (·[j]?) hspecs
    have hjw : j < w := hlength ▸ (List.getElem?_eq_some_iff.1 hj).1
    simp only [List.getElem?_map, hj, List.getElem?_range hjw] at hspec
    have hslot := congrArg PortSpec.slot (Option.some.inj hspec)
    obtain rfl : j = i := Option.some.inj (hslot.symm.trans htest.2)
    exact hj
  rw [List.getElem?_map, Graph.input?, node?_of_mem hg hm, Option.bind_some]
  congr 1
  cases hp : ps[i]? with
  | some p =>
    have hspec := congrArg (·[i]?) hspecs
    have hi : i < w := hlength ▸ (List.getElem?_eq_some_iff.1 hp).1
    simp only [List.getElem?_map, hp, List.getElem?_range hi] at hspec
    obtain ⟨hdecl, hslot⟩ := PortSpec.mk.inj (Option.some.inj hspec)
    have hmem := (List.mem_filter.1 (hps ▸ List.mem_of_getElem? hp)).1
    refine (find?_eq_of_unique hmem (by simp [hdecl, hslot]) fun q hq htest => ?_).symm
    exact Option.some.inj ((hplace q hq htest).symm.trans hp)
  | none =>
    refine (List.find?_eq_none.2 fun q hq htest => ?_).symm
    exact Option.some_ne_none q ((hplace q hq htest).symm.trans hp)

end Group

end Graph

end EffectGraph
