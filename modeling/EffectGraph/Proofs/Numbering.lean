import EffectGraph.Proofs.Exact
import EffectGraph.Proofs.Worlds

/-!
# Port ids are never reused

A graph gives each new port the next number and never takes a number back. So whatever follows from
a graph by operations has, under the numbers that the graph has given out, only ports that the graph
has (`Graph.Evolves`), and graphs have different identities, which their port ids carry
(`World.Sound`). Hence over any history of any number of graphs an id denotes one port at most, for
one stretch of time, in one graph (`portIds_lasting`).
-/

namespace EffectGraph

open EffectGraph.Graph Snapshot

/-! ## What follows from a graph -/

namespace Graph

variable {κ : Type} {g g' g'' : Graph κ}

/-- A graph follows from another by giving out further numbers and dropping ports. -/
structure Evolves (g g' : Graph κ) : Prop where
  id : g'.id = g.id
  numbered : g'.Numbered
  nextPort : g.nextPort ≤ g'.nextPort
  /-- A port of the later graph is one of the earlier or has a new number. -/
  ports : ∀ q ∈ g'.allPorts, q ∈ g.allPorts ∨ g.nextPort ≤ q.port.index

theorem Numbered.evolves (h : g.Numbered) : g.Evolves g :=
  ⟨rfl, h, Nat.le_refl _, fun _ hq => .inl hq⟩

theorem Evolves.trans (h : g.Evolves g') (h' : g'.Evolves g'') : g.Evolves g'' := by
  refine ⟨h'.id.trans h.id, h'.numbered, Nat.le_trans h.nextPort h'.nextPort, fun q hq => ?_⟩
  rcases h'.ports q hq with hq | hq
  · exact h.ports q hq
  · exact .inr (Nat.le_trans h.nextPort hq)

/-- A change that makes no ports. -/
theorem Numbered.evolves_of_sublist (h : g.Numbered) (hid : g'.id = g.id) (hasc : g'.Ascending)
    (hports : g'.allPorts.Sublist g.allPorts) (hnext : g'.nextPort = g.nextPort) :
    g.Evolves g' := by
  refine ⟨hid, ⟨hasc, ?_, fun q hq => ?_⟩, Nat.le_of_eq hnext.symm,
    fun q hq => .inl (hports.subset hq)⟩
  · have hnumbers : g'.numbers.Sublist g.numbers := hports.map _
    exact h.distinct.sublist hnumbers
  · rw [hnext]
    exact h.used q (hports.subset hq)

/-- A change of anything but the nodes and the numbers. -/
theorem Numbered.evolves_of_nodes (h : g.Numbered) (hid : g'.id = g.id)
    (hnodes : g'.nodes = g.nodes) (hnext : g'.nextPort = g.nextPort) : g.Evolves g' := by
  refine h.evolves_of_sublist hid ?_ ?_ hnext
  · rw [Ascending, hnodes]
    exact h.ascending
  · rw [allPorts, allPorts, hnodes]

/-- A change of what a node stores. -/
theorem Numbered.evolves_updateNode (h : g.Numbered) (n : NodeId) {f : Node κ → Node κ}
    (hid : ∀ m, (f m).id = m.id) (hinputs : ∀ m, (f m).inputs = m.inputs)
    (houtputs : ∀ m, (f m).outputs = m.outputs) : g.Evolves (g.updateNode n f) := by
  refine h.evolves_of_sublist rfl ?_ ?_ rfl
  · rw [ascending_iff, nodeIds_updateNode hid]
    exact (ascending_iff g).1 h.ascending
  · rw [allPorts_updateNode hid hinputs houtputs]

theorem Numbered.evolves_without (h : g.Numbered) (n : NodeId) : g.Evolves (g.without n) := by
  have hnodes : (g.without n).nodes.Sublist g.nodes := List.filter_sublist
  exact h.evolves_of_sublist rfl (h.ascending.sublist hnodes) (hnodes.flatMap _) rfl

theorem Numbered.evolves_insertNode (h : g.Numbered) {n : NodeId} (hfree : g.node? n = none)
    (kind : NodeKind κ) :
    g.Evolves { g with nodes := insertNode (.fresh n kind) g.nodes } := by
  refine h.evolves_of_sublist rfl ?_ ?_ rfl
  · exact insertNode_pairwise h.ascending (node?_eq_none_iff.1 hfree)
  · rw [allPorts_insertNode]

theorem Numbered.clone (h : g.Numbered) (i : Nat) : (g.clone i).Numbered :=
  ⟨h.ascending, h.distinct, h.used⟩

section Operations

variable [HasSignature κ] {n : NodeId}

theorem Evolves.reshapeOne (h : g.Evolves g') (n : NodeId) : g.Evolves (g'.reshapeOne n).1 := by
  have hreshapes := reshapes_reshapeOne h.numbered.ascending n
  exact h.trans ⟨hreshapes.id, h.numbered.reshapeOne n, hreshapes.nextPort, hreshapes.ports⟩

theorem Evolves.reshape (h : g.Evolves g') (n : NodeId) : g.Evolves (g'.reshape n) :=
  reshape_induct (fun _ m hk => hk.reshapeOne m) h n

theorem Evolves.refresh (h : g.Evolves g') (ns : List NodeId) : g.Evolves (g'.refresh ns) :=
  refresh_induct (fun _ m hk => hk.reshapeOne m) h ns

theorem Evolves.reshapeIf (h : g.Evolves g') (n : NodeId) (isGroup : Bool) :
    g.Evolves (g'.reshapeIf n isGroup) := by
  unfold Graph.reshapeIf
  split
  · exact h.reshape n
  · exact h

theorem Numbered.evolves_addNodeAt (h : g.Numbered) {kind : NodeKind κ}
    (ha : g.addNodeAt n kind = .ok g') : g.Evolves g' := by
  obtain ⟨-, hfree, -, rfl⟩ := addNodeAt_eq_ok.1 ha
  exact (h.evolves_insertNode hfree kind).reshape n

theorem Numbered.evolves_cut (h : g.Numbered) (p : Connection → Bool) (except : List NodeId) :
    g.Evolves (g.cut p except).1 := by
  have hsever : g.Evolves (g.sever p) := h.evolves_of_nodes rfl rfl rfl
  exact hsever.refresh _

theorem Numbered.evolves_connect (h : g.Numbered) {a b : PortId} (hc : g.connect a b = .ok g') :
    g.Evolves g' := by
  obtain ⟨j, -, rfl⟩ := connect_eq_ok.1 hc
  rcases join_eq g j with ⟨he, -⟩ | ⟨-, he⟩
  · rw [he]
    exact h.evolves
  · have hlinked : g.Evolves (g.linked j) := h.evolves_of_nodes rfl rfl rfl
    rw [he]
    exact hlinked.refresh _

theorem Numbered.evolves_wire (h : g.Numbered) {source destination : NodeId}
    {output input : String} (hw : g.wire source output destination input = .ok g') :
    g.Evolves g' := by
  obtain ⟨a, b, -, -, hc⟩ := wire_eq_ok.1 hw
  exact h.evolves_connect hc

theorem Numbered.evolves_removeNode (h : g.Numbered) {r : Graph κ × Node κ}
    (hr : g.removeNode n = .ok r) : g.Evolves r.1 := by
  obtain ⟨m, -, -, hr⟩ := removeNode_eq_ok.1 hr
  rw [← hr]
  have hcut := h.evolves_cut (touchesNode m) [n]
  exact hcut.trans (hcut.numbered.evolves_without n)

theorem Numbered.evolves_setConst (h : g.Numbered) {name : String} {v : Value}
    (hs : g.setConst n name v = .ok g') : g.Evolves g' := by
  obtain ⟨-, rfl⟩ := setConst_eq_ok.1 hs
  exact h.evolves_updateNode n (fun _ => rfl) (fun _ => rfl) fun _ => rfl

omit [HasSignature κ] in
theorem Numbered.evolves_setPosition (h : g.Numbered) {p : Position}
    (hp : g.setPosition n p = .ok g') : g.Evolves g' := by
  obtain ⟨-, rfl⟩ := setPosition_eq_ok.1 hp
  exact h.evolves_updateNode n (fun _ => rfl) (fun _ => rfl) fun _ => rfl

theorem Numbered.evolves_mapDefaults (h : g.Numbered) (n : NodeId) (isGroup : Bool)
    (f : Table SlotKey Value → Table SlotKey Value) :
    g.Evolves ((g.updateNode n (.mapDefaults f)).reshapeIf n isGroup) := by
  have hstored := h.evolves_updateNode n (f := .mapDefaults f) (fun _ => rfl) (fun _ => rfl)
    fun _ => rfl
  exact hstored.reshapeIf n isGroup

theorem Numbered.evolves_setDefault (h : g.Numbered) {k : SlotKey} {v : Value}
    (hs : g.setDefault n k v = .ok g') : g.Evolves g' := by
  obtain ⟨-, rfl⟩ := setDefault_eq_ok.1 hs
  exact h.evolves_mapDefaults n _ _

theorem Numbered.evolves_ensure (h : g.Numbered) {kind : NodeKind κ} {present : Option NodeId}
    {r : Graph κ × Option NodeId} (he : g.ensure kind present = .ok r) : g.Evolves r.1 := by
  rcases ensure_eq_ok.1 he with ⟨m, -, rfl⟩ | ⟨-, k, m, ha, rfl⟩
  · exact h.evolves.reshape m
  · exact h.evolves_addNodeAt (addNode_eq_ok.1 ha).1

theorem Numbered.evolves_setSignature (h : g.Numbered) {s : Signature}
    (hs : g.setSignature s = .ok g') : g.Evolves g' := by
  obtain ⟨r, r', hr, hr', hwire⟩ := setSignature_eq_ok.1 hs
  have hsigned : g.Evolves { g with signature := some s } := h.evolves_of_nodes rfl rfl rfl
  have hentry := hsigned.trans (hsigned.numbered.evolves_ensure hr)
  have hresult := hentry.trans (hentry.numbered.evolves_ensure hr')
  rcases hwire with ⟨e, t, -, -, hwire⟩ | ⟨-, rfl⟩
  · exact hresult.trans (hresult.numbered.evolves_wire hwire)
  · exact hresult

theorem Numbered.evolves_redefine (h : g.Numbered) (kind : κ) : g.Evolves (g.redefine kind).1 := by
  refine List.foldlRecOn (motive := g.Evolves) _ _ h.evolves fun k hk n _ => ?_
  have hturned := hk.numbered.evolves_updateNode n (f := .turn kind) (fun _ => rfl) (fun _ => rfl)
    fun _ => rfl
  exact (hk.trans hturned).reshape n

theorem Numbered.evolves_hold (h : g.Numbered) {group : String} {index : Nat}
    (hh : g.hold n group index = .ok g') : g.Evolves g' := by
  obtain ⟨-, rfl⟩ := hold_eq_ok.1 hh
  have hraised := h.evolves_updateNode n (f := raised group index) (fun _ => rfl) (fun _ => rfl)
    fun _ => rfl
  exact hraised.reshape n

theorem Numbered.evolves_release (h : g.Numbered) : g.Evolves g.release := by
  have hids : g.unheld.nodeIds = g.nodeIds := by simp [nodeIds, unheld, Function.comp_def]
  have hunheld : g.Evolves g.unheld := by
    refine h.evolves_of_sublist rfl ?_ ?_ rfl
    · rw [ascending_iff, hids]
      exact (ascending_iff g).1 h.ascending
    · rw [allPorts_unheld]
  exact List.foldlRecOn (motive := g.Evolves) _ _ hunheld fun _ hk n _ => hk.reshape n

/-- Every edit of a graph in place only gives out further numbers and drops ports. -/
theorem Numbered.evolves_edit (h : g.Numbered) {e : Edit κ} (hin : e.inPlace = true)
    (he : e.apply g = .ok g') : g.Evolves g' := by
  cases e with
  | addNode kind =>
    obtain ⟨r, hr, rfl⟩ := map_eq_ok.1 he
    exact h.evolves_addNodeAt (addNode_eq_ok.1 hr).1
  | addNodeAt n kind => exact h.evolves_addNodeAt he
  | removeNode n =>
    obtain ⟨r, hr, rfl⟩ := map_eq_ok.1 he
    exact h.evolves_removeNode hr
  | setSignature s => exact h.evolves_setSignature he
  | connect a b => exact h.evolves_connect he
  | wire source output destination input => exact h.evolves_wire he
  | disconnect a b =>
    obtain ⟨r, hr, rfl⟩ := map_eq_ok.1 he
    obtain ⟨-, rfl⟩ := disconnect_eq_ok.1 hr
    exact h.evolves_cut _ _
  | isolatePort p =>
    obtain ⟨r, hr, rfl⟩ := map_eq_ok.1 he
    obtain ⟨-, rfl⟩ := isolatePort_eq_ok.1 hr
    exact h.evolves_cut _ _
  | isolateNode n =>
    obtain ⟨r, hr, rfl⟩ := map_eq_ok.1 he
    obtain ⟨m, -, rfl⟩ := isolateNode_eq_ok.1 hr
    exact h.evolves_cut _ _
  | setConst n name v => exact h.evolves_setConst he
  | setDefault n k v => exact h.evolves_setDefault he
  | clearDefault n k =>
    obtain ⟨r, hr, rfl⟩ := map_eq_ok.1 he
    obtain ⟨-, m, -, rfl⟩ := clearDefault_eq_ok.1 hr
    exact h.evolves_mapDefaults n _ _
  | setPosition n p => exact h.evolves_setPosition he
  | redefine kind =>
    obtain rfl := Except.ok.inj he
    exact h.evolves_redefine kind
  | clone i => exact absurd hin (by simp [Edit.inPlace])

end Operations

/-! ## Ids over time -/

/-- The port that an id denotes stays the same. -/
theorem Evolves.port?_eq (h : g.Evolves g') (hg : g.Numbered) {p : PortId} {q q' : PlacedPort}
    (hq : g.port? p = some q) (hq' : g'.port? p = some q') : q' = q := by
  obtain ⟨-, hat⟩ := port?_eq_some_iff.1 hq
  obtain ⟨-, hat'⟩ := port?_eq_some_iff.1 hq'
  obtain ⟨hmem, hindex⟩ := portAt?_mem hat
  obtain ⟨hmem', hindex'⟩ := portAt?_mem hat'
  have hused := hg.used q hmem
  have hold : q' ∈ g.allPorts := (h.ports q' hmem').resolve_right (by omega)
  exact hg.port_inj hold hmem (hindex'.trans hindex.symm)

/-- An id that has come to denote nothing denotes nothing from then on. -/
theorem Evolves.port?_eq_none (h : g.Evolves g') (h' : g'.Evolves g'') (hg : g.Numbered)
    {p : PortId} {q : PlacedPort} (hq : g.port? p = some q) (hq' : g'.port? p = none) :
    g''.port? p = none := by
  obtain ⟨hgraph, hat⟩ := port?_eq_some_iff.1 hq
  obtain ⟨hmem, hindex⟩ := portAt?_mem hat
  have hused := hg.used q hmem
  have hnext := h.nextPort
  refine Option.eq_none_iff_forall_ne_some.2 fun r hr => ?_
  obtain ⟨-, hatr⟩ := port?_eq_some_iff.1 hr
  obtain ⟨hmemr, hindexr⟩ := portAt?_mem hatr
  have hold : r ∈ g'.allPorts := (h'.ports r hmemr).resolve_right (by omega)
  have hfound : g'.port? p = some r :=
    port?_eq_some_iff.2 ⟨hgraph.trans h.id.symm, h.numbered.portAt?_eq_some_iff.2 ⟨hold, hindexr⟩⟩
  simp [hq'] at hfound

/-- The ids that a graph hands out: those of the ports that its nodes list and its connections join,
and the answers of its look-ups. -/
inductive HandsOut (g : Graph κ) : PortId → Prop
  | listed {m : Node κ} {p : Port} (hm : m ∈ g.nodes) (hp : p ∈ m.ports) :
    HandsOut g (g.portId p.index)
  | source {c : Connection} (hc : c ∈ g.connections) : HandsOut g (g.portId c.source)
  | destination {c : Connection} (hc : c ∈ g.connections) : HandsOut g (g.portId c.destination)
  | input {n : NodeId} {name : String} {slot : Option Nat} {p : PortId}
    (h : g.input? n name slot = some p) : HandsOut g p
  | output {n : NodeId} {name : String} {p : PortId} (h : g.output? n name = some p) : HandsOut g p
  | slot {n : NodeId} {group : String} {p : PortId} (h : p ∈ g.variadicSlots n group) :
    HandsOut g p
  | valueSource {a p : PortId} (h : g.valueSource? a = some p) : HandsOut g p
  | nextControl {a p : PortId} (h : g.nextControl? a = some p) : HandsOut g p
  | neighbour {a p : PortId} (h : p ∈ g.neighbours a) : HandsOut g p

theorem HandsOut.graph_eq {p : PortId} (h : g.HandsOut p) : p.graph = g.id := by
  cases h with
  | listed | source | destination => rfl
  | input h =>
    obtain ⟨m, -, hp⟩ := Option.bind_eq_some_iff.1 h
    obtain ⟨r, -, rfl⟩ := Option.map_eq_some_iff.1 hp
    rfl
  | output h =>
    obtain ⟨m, -, hp⟩ := Option.bind_eq_some_iff.1 h
    obtain ⟨r, -, rfl⟩ := Option.map_eq_some_iff.1 hp
    rfl
  | slot h =>
    unfold variadicSlots at h
    split at h
    · simp at h
    · obtain ⟨r, -, rfl⟩ := List.mem_map.1 h
      rfl
  | valueSource h =>
    unfold valueSource? at h
    split at h
    · obtain ⟨c, -, rfl⟩ := Option.map_eq_some_iff.1 h
      rfl
    · simp at h
  | nextControl h =>
    unfold nextControl? at h
    split at h
    · obtain ⟨c, -, rfl⟩ := Option.map_eq_some_iff.1 h
      rfl
    · simp at h
  | neighbour h =>
    unfold neighbours at h
    split at h
    · obtain ⟨i, -, rfl⟩ := List.mem_map.1 h
      rfl
    · simp at h

end Graph

/-! ## Made graphs -/

theorem Graph.numbered_empty {κ : Type} (id : Nat) (hook : ConversionHook) :
    (Graph.empty id hook : Graph κ).Numbered :=
  ⟨.nil, .nil, by simp [Graph.empty, allPorts]⟩

theorem Graph.evolves_withSignature {κ : Type} [HasSignature κ] {id : Nat} {hook : ConversionHook}
    {s : Signature} {g : Graph κ} (h : Graph.withSignature id hook s = .ok g) :
    (Graph.empty id hook).Evolves g :=
  (numbered_empty id hook).evolves_setSignature h

namespace Snapshot

variable {c : Catalog} {g g' : Graph Definition}

theorem evolves_placeNode {r : NodeRecord} (hg : g.Numbered) (h : placeNode c g r = .ok g') :
    g.Evolves g' := by
  obtain ⟨kind, g₁, g₂, g₃, -, h₁, h₂, h₃, h₄⟩ := placeNode_eq_ok.1 h
  have hadded := hg.evolves_addNodeAt h₁
  have hmoved := hadded.trans (hadded.numbered.evolves_setPosition h₂)
  have hconsts : g.Evolves g₃ := restoreConsts_induct
    (fun _ _ _ _ hk hs => hk.trans (hk.numbered.evolves_setConst hs)) h₃ hmoved
  exact restoreDefaults_induct
    (fun _ _ _ _ hk hs => hk.trans (hk.numbered.evolves_setDefault hs)) h₄ hconsts

theorem evolves_rebuild {id : Nat} {owner : Option Signature} {s : Snapshot}
    (h : s.rebuild c id owner = .ok g) : (canvas id owner).Evolves g := by
  obtain ⟨g₁, g₂, g₃, h₁, h₂, h₃, rfl⟩ := rebuild_eq_ok.1 h
  have hsigned : (Graph.empty id .standard).Evolves (canvas id owner) :=
    (numbered_empty id .standard).evolves_of_nodes rfl rfl rfl
  have hblank := hsigned.numbered.evolves
  have hplaced : (canvas id owner).Evolves g₁ := placeNodes_induct
    (fun _ _ _ hk hp => hk.trans (evolves_placeNode hk.numbered hp)) h₁ hblank
  have hheld : (canvas id owner).Evolves g₂ := holdSlots_induct
    (fun _ _ _ _ _ hk hh => hk.trans (hk.numbered.evolves_hold hh)) h₂ hplaced
  have hjoined : (canvas id owner).Evolves g₃ := restoreConnections_induct
    (fun _ _ _ _ hk hc => hk.trans (hk.numbered.evolves_connect hc)) h₃ hheld
  exact hjoined.trans hjoined.numbered.evolves_release

end Snapshot

theorem Operation.evolves_perform {κ : Type} [HasSignature κ] {g : Graph κ} (h : g.Numbered)
    (o : Operation κ) : g.Evolves (o.perform g) := by
  refine o.perform_induct (fun r hr => ?_) h.evolves
  cases o with
  | edit e hin =>
    have happly : e.apply g = .ok r.1 := by
      rw [Edit.apply_eq, show e.outcome g = .ok r from hr]
      rfl
    exact h.evolves_edit hin happly
  | rehook hook =>
    obtain rfl := Except.ok.inj hr
    exact h.evolves_of_nodes rfl rfl rfl

/-! ## Worlds -/

theorem toOption_eq_some {ε α : Type} {x : Except ε α} {a : α} :
    x.toOption = some a ↔ x = .ok a := by
  cases x <;> simp [Except.toOption]

namespace World

/-- The graphs of a world have different identities, all of them used up, and in each the numbers
tell the ports apart. -/
structure Sound (w : World) : Prop where
  distinct : ∀ {j k : Nat} {g c : Graph Definition}, w.graphs[j]? = some g → w.graphs[k]? = some c →
    g.id = c.id → j = k
  used : ∀ {k : Nat} {g : Graph Definition}, w.graphs[k]? = some g → g.id < w.nextId
  numbered : ∀ {k : Nat} {g : Graph Definition}, w.graphs[k]? = some g → g.Numbered

/-- Each graph of a world is followed, at its place, by one of a later world. -/
def Evolves (w w' : World) : Prop :=
  ∀ (k : Nat) (g : Graph Definition), w.graphs[k]? = some g →
    ∃ g', w'.graphs[k]? = some g' ∧ g.Evolves g'

variable {w w' w'' : World}

theorem Sound.evolves (h : w.Sound) : w.Evolves w := fun _ g hg => ⟨g, hg, (h.numbered hg).evolves⟩

theorem Evolves.trans (h : w.Evolves w') (h' : w'.Evolves w'') : w.Evolves w'' := by
  intro k g hg
  obtain ⟨g', hg', hevolves⟩ := h k g hg
  obtain ⟨g'', hg'', hevolves'⟩ := h' k g' hg'
  exact ⟨g'', hg'', hevolves.trans hevolves'⟩

theorem sound_start (first : Nat) : (start first).Sound :=
  ⟨by simp [start], by simp [start], by simp [start]⟩

theorem getElem?_enter_cases {made : Option (Graph Definition)} {k : Nat} {g : Graph Definition}
    (hg : (w.enter made).graphs[k]? = some g) :
    w.graphs[k]? = some g ∨ k = w.graphs.length ∧ made = some g := by
  rw [enter, List.getElem?_append] at hg
  by_cases hk : k < w.graphs.length
  · rw [if_pos hk] at hg
    exact .inl hg
  · rw [if_neg hk] at hg
    cases made with
    | none => simp at hg
    | some c =>
      obtain ⟨hlt, hgc⟩ := List.getElem?_eq_some_iff.1 hg
      simp only [Option.toList_some, List.length_singleton] at hlt
      exact .inr ⟨by omega, by simpa using hgc⟩

/-- A graph that is made under the next identity is another one. -/
theorem Sound.enter (h : w.Sound) {made : Option (Graph Definition)}
    (hmade : ∀ g, made = some g → g.id = w.nextId ∧ g.Numbered) :
    (w.enter made).Sound ∧ w.Evolves (w.enter made) := by
  refine ⟨⟨fun {j k g c} hg hc hid => ?_, fun {k g} hg => ?_, fun {k g} hg => ?_⟩, fun k g hg =>
    ⟨g, getElem?_enter hg made, (h.numbered hg).evolves⟩⟩
  · rcases getElem?_enter_cases hg with hg | ⟨hj, hg⟩ <;>
      rcases getElem?_enter_cases hc with hc | ⟨hk, hc⟩
    · exact h.distinct hg hc hid
    · have hused := h.used hg
      rw [hid, (hmade c hc).1] at hused
      exact absurd hused (Nat.lt_irrefl _)
    · have hused := h.used hc
      rw [← hid, (hmade g hg).1] at hused
      exact absurd hused (Nat.lt_irrefl _)
    · exact hj.trans hk.symm
  · have hnext : (w.enter made).nextId = w.nextId + 1 := rfl
    rcases getElem?_enter_cases hg with hg | ⟨-, hg⟩
    · have hused := h.used hg
      omega
    · have hid := (hmade g hg).1
      omega
  · rcases getElem?_enter_cases hg with hg | ⟨-, hg⟩
    · exact h.numbered hg
    · exact (hmade g hg).2

/-- Operations keep identities. -/
theorem Sound.called (h : w.Sound) (k : Nat) (o : Operation Definition) :
    (w.step (.called k o)).Sound ∧ w.Evolves (w.step (.called k o)) := by
  have hevolves : w.Evolves (w.step (.called k o)) := by
    intro j g hg
    have hnumbered := h.numbered hg
    refine ⟨_, getElem?_called hg k o, ?_⟩
    split
    · exact o.evolves_perform hnumbered
    · exact hnumbered.evolves
  have horigin : ∀ {j : Nat} {g' : Graph Definition},
      (w.step (.called k o)).graphs[j]? = some g' → ∃ g, w.graphs[j]? = some g ∧ g.Evolves g' := by
    intro j g' hg'
    have hlt := (List.getElem?_eq_some_iff.1 hg').1
    have hlength : (w.step (.called k o)).graphs.length = w.graphs.length := List.length_modify ..
    have hg : w.graphs[j]? = some w.graphs[j] := List.getElem?_eq_getElem (hlength ▸ hlt)
    obtain ⟨g'', hg'', hstep⟩ := hevolves j _ hg
    obtain rfl := Option.some.inj (hg'.symm.trans hg'')
    exact ⟨_, hg, hstep⟩
  refine ⟨⟨fun {i j g' c'} hg' hc' hid => ?_, fun {j g'} hg' => ?_, fun {j g'} hg' => ?_⟩, hevolves⟩
  · obtain ⟨g, hg, hstep⟩ := horigin hg'
    obtain ⟨c, hc, hstep'⟩ := horigin hc'
    exact h.distinct hg hc (hstep.id.symm.trans (hid.trans hstep'.id))
  · obtain ⟨g, hg, hstep⟩ := horigin hg'
    rw [hstep.id]
    exact h.used hg
  · obtain ⟨g, hg, hstep⟩ := horigin hg'
    exact hstep.numbered

/-- One act. -/
theorem Sound.step (h : w.Sound) (a : Act) : (w.step a).Sound ∧ w.Evolves (w.step a) := by
  cases a with
  | blank =>
    refine h.enter fun g hg => ?_
    obtain rfl := Option.some.inj hg
    exact ⟨rfl, numbered_empty _ _⟩
  | signed s =>
    refine h.enter fun g hg => ?_
    have hevolves := evolves_withSignature (toOption_eq_some.1 hg)
    exact ⟨hevolves.id, hevolves.numbered⟩
  | rebuilt c owner s =>
    refine h.enter fun g hg => ?_
    have hevolves := evolves_rebuild (toOption_eq_some.1 hg)
    exact ⟨hevolves.id, hevolves.numbered⟩
  | cloned k =>
    rw [World.step]
    split
    next g hg =>
      refine h.enter fun c hc => ?_
      obtain rfl := Option.some.inj hc
      exact ⟨rfl, (h.numbered hg).clone _⟩
    next => exact ⟨h, h.evolves⟩
  | called k o => exact h.called k o

/-- Any number of acts. -/
theorem Sound.run (h : w.Sound) (acts : List Act) :
    (w.run acts).Sound ∧ w.Evolves (w.run acts) := by
  induction acts generalizing w with
  | nil => exact ⟨h, h.evolves⟩
  | cons a acts ih =>
    obtain ⟨hsound, hevolves⟩ := h.step a
    obtain ⟨hrun, hevolves'⟩ := ih hsound
    exact ⟨hrun, hevolves.trans hevolves'⟩

/-- The world after the first acts of a history. -/
def moment (first : Nat) (acts : List Act) (m : Nat) : World := (start first).run (acts.take m)

theorem sound_moment (first : Nat) (acts : List Act) (m : Nat) : (moment first acts m).Sound :=
  ((sound_start first).run _).1

theorem evolves_moment {m m' : Nat} (first : Nat) (acts : List Act) (hm : m ≤ m') :
    (moment first acts m).Evolves (moment first acts m') := by
  obtain ⟨d, rfl⟩ := Nat.exists_eq_add_of_le hm
  rw [moment, moment, List.take_add, run_append]
  exact ((sound_moment first acts m).run _).2

theorem port?_eq_some_iff {k : Nat} {p : PortId} {q : PlacedPort} :
    w.port? k p = some q ↔ ∃ g, w.graphs[k]? = some g ∧ g.port? p = some q :=
  Option.bind_eq_some_iff

end World

open World in
/-- In every history of any number of graphs: what an id denotes in a graph at two moments is the
same port; once it has come to denote nothing there it denotes nothing there at any later moment;
and an id that a graph hands out at some moment denotes nothing in another graph at any moment. -/
theorem portIds_lasting (first : Nat) (acts : List Act) :
    (∀ k p m m' q q', m ≤ m' → (moment first acts m).port? k p = some q →
        (moment first acts m').port? k p = some q' → q' = q) ∧
      (∀ k p m m' m'' q, m ≤ m' → m' ≤ m'' → (moment first acts m).port? k p = some q →
        (moment first acts m').port? k p = none → (moment first acts m'').port? k p = none) ∧
      ∀ j k p m m' g, j ≠ k → (moment first acts m).graphs[j]? = some g → g.HandsOut p →
        (moment first acts m').port? k p = none := by
  refine ⟨fun k p m m' q q' hm hq hq' => ?_, fun k p m m' m'' q hm hm' hq hnone => ?_,
    fun j k p m m' g hjk hg hp => ?_⟩
  · obtain ⟨g, hg, hgq⟩ := port?_eq_some_iff.1 hq
    obtain ⟨g', hg', hevolves⟩ := evolves_moment first acts hm k g hg
    obtain ⟨c, hc, hcq⟩ := port?_eq_some_iff.1 hq'
    obtain rfl := Option.some.inj (hc.symm.trans hg')
    exact hevolves.port?_eq ((sound_moment ..).numbered hg) hgq hcq
  · obtain ⟨g, hg, hgq⟩ := port?_eq_some_iff.1 hq
    obtain ⟨g', hg', hevolves⟩ := evolves_moment first acts hm k g hg
    obtain ⟨g'', hg'', hevolves'⟩ := evolves_moment first acts hm' k g' hg'
    have hnone' : g'.port? p = none := by rwa [World.port?, hg', Option.bind_some] at hnone
    rw [World.port?, hg'', Option.bind_some]
    exact hevolves.port?_eq_none hevolves'
      ((sound_moment ..).numbered hg) hgq hnone'
  · refine Option.eq_none_iff_forall_ne_some.2 fun q hq => ?_
    obtain ⟨c, hc, hcq⟩ := port?_eq_some_iff.1 hq
    -- Both graphs are there at the later of the two moments, under the identities they have always.
    obtain ⟨g', hg', hevolves⟩ := evolves_moment first acts (Nat.le_max_left m m') j g hg
    obtain ⟨c', hc', hevolves'⟩ := evolves_moment first acts (Nat.le_max_right m m') k c hc
    refine hjk ((sound_moment first acts (max m m')).distinct hg' hc' ?_)
    rw [hevolves.id, hevolves'.id, ← hp.graph_eq, (Graph.port?_eq_some_iff.1 hcq).1]

/-- A slot is opened by a connection, the graph is cloned, and in the first graph the slot is closed
and opened again. -/
def gatherHistory : List Act :=
  [.blank,
    .called 0 (.edit (.addNode (.action .gather)) rfl),
    .called 0 (.edit (.addNode (.action .gather)) rfl),
    .connected 0 ⟨1, 3⟩ ⟨1, 5⟩,
    .cloned 0,
    .disconnected 0 ⟨1, 3⟩ ⟨1, 5⟩,
    .connected 0 ⟨1, 3⟩ ⟨1, 5⟩]

/-- The second slot of the group of the second node under a number. -/
def secondSlot (number : Nat) : PlacedPort :=
  ⟨⟨2⟩, .input, ⟨number, .variadic "items" .any, some 1⟩⟩

open World in
/-- The slot that comes back has a new id; the old one denotes it in neither graph. -/
theorem portIds_lasting_gatherHistory :
    (moment 1 gatherHistory 4).port? 0 ⟨1, 8⟩ = some (secondSlot 8) ∧
      (moment 1 gatherHistory 6).port? 0 ⟨1, 8⟩ = none ∧
      (moment 1 gatherHistory 7).port? 0 ⟨1, 9⟩ = some (secondSlot 9) ∧
      (moment 1 gatherHistory 7).port? 0 ⟨1, 8⟩ = none ∧
      (moment 1 gatherHistory 7).port? 1 ⟨2, 8⟩ = some (secondSlot 8) ∧
      (moment 1 gatherHistory 7).port? 1 ⟨1, 9⟩ = none ∧
      ∀ q, (moment 1 gatherHistory 5).port? 0 ⟨1, 8⟩ = some q → q = secondSlot 8 := by
  obtain ⟨hsame, hgone, hapart⟩ := portIds_lasting 1 gatherHistory
  have hopen : (moment 1 gatherHistory 4).port? 0 ⟨1, 8⟩ = some (secondSlot 8) := by decide
  have hclosed : (moment 1 gatherHistory 6).port? 0 ⟨1, 8⟩ = none := by decide
  have hback : (moment 1 gatherHistory 7).port? 0 ⟨1, 9⟩ = some (secondSlot 9) := by decide
  refine ⟨hopen, hclosed, hback, hgone 0 _ 4 6 7 _ (by decide) (by decide) hopen hclosed,
    by decide, ?_, fun q hq => hsame 0 _ 4 5 _ q (by decide) hopen hq⟩
  obtain ⟨g, hg, hslot⟩ := port?_eq_some_iff.1 hback
  obtain ⟨hmem, -⟩ := portAt?_mem (Graph.port?_eq_some_iff.1 hslot).2
  obtain ⟨m, hm, hlist⟩ := mem_allPorts.1 hmem
  obtain ⟨-, hside⟩ := mem_placedPorts.1 hlist
  have hlisted : (secondSlot 9).port ∈ m.ports :=
    List.mem_append_left _ (by simpa [secondSlot] using hside)
  have hid : (1 : Nat) = g.id := (Graph.port?_eq_some_iff.1 hslot).1
  have hgraph : g.portId 9 = ⟨1, 9⟩ := by rw [portId, ← hid]
  exact hapart 0 1 _ 7 7 g (by decide) hg (hgraph ▸ .listed hm hlisted)

end EffectGraph
