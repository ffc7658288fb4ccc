import EffectGraph.Graph.Edit
import Mathlib.Data.List.Nodup
import Mathlib.Data.List.Perm.Lattice
import Mathlib.Data.List.Perm.Subperm

/-!
# Ports and connections of a graph

Ports are listed by their nodes and addressed by number. A graph is well formed (`WellFormed`) if no
number is listed twice, every connection joins an output to an input of another node that it may be
joined to, and no value input and no control output has more than one connection.

In a well-formed graph a number denotes exactly the port that is listed under it
(`WellFormed.portAt?_eq_some_iff`).
-/

namespace EffectGraph

variable {κ : Type}

/-- A search finds an element that passes the test if no other one does. -/
theorem find?_eq_of_unique {α : Type} {p : α → Bool} {l : List α} {a : α} (ha : a ∈ l)
    (hp : p a = true) (hunique : ∀ b ∈ l, p b = true → b = a) : l.find? p = some a := by
  cases hf : l.find? p with
  | none => exact absurd hp (List.find?_eq_none.1 hf a ha)
  | some b => rw [hunique b (List.mem_of_find?_eq_some hf) (List.find?_some hf)]

/-- Two connections of which a graph holds at most one: both end at one value input, or both leave
one control output. -/
def Connection.Excludes (c d : Connection) : Prop :=
  c.kind = d.kind ∧ (c.kind = .value ∧ c.destination = d.destination ∨
    c.kind = .control ∧ c.source = d.source)

namespace Graph

/-! ## Nodes by id -/

/-- The nodes stand in ascending order of their ids, so no id occurs twice. -/
def Ascending (g : Graph κ) : Prop := g.nodes.Pairwise fun m n => m.id.number < n.id.number

theorem ne_of_number_lt {a b : Node κ} (h : a.id.number < b.id.number) : a.id ≠ b.id := by
  intro he
  rw [he] at h
  exact UInt32.lt_irrefl _ h

theorem Ascending.nodup_ids {g : Graph κ} (h : g.Ascending) : g.nodeIds.Nodup :=
  List.pairwise_map.2 (h.imp ne_of_number_lt)

theorem Ascending.id_inj {g : Graph κ} (h : g.Ascending) {m n : Node κ} (hm : m ∈ g.nodes)
    (hn : n ∈ g.nodes) (he : m.id = n.id) : m = n :=
  List.inj_on_of_nodup_map h.nodup_ids hm hn he

theorem node?_mem {g : Graph κ} {n : NodeId} {m : Node κ} (h : g.node? n = some m) :
    m ∈ g.nodes ∧ m.id = n := by
  have hp := List.find?_some h
  exact ⟨List.mem_of_find?_eq_some h, by simpa using hp⟩

theorem node?_of_mem {g : Graph κ} (h : g.Ascending) {m : Node κ} (hm : m ∈ g.nodes) :
    g.node? m.id = some m :=
  find?_eq_of_unique hm (by simp) fun k hk hid => h.id_inj hk hm (by simpa using hid)

theorem node?_eq_none_iff {g : Graph κ} {n : NodeId} :
    g.node? n = none ↔ ∀ m ∈ g.nodes, m.id ≠ n := by
  simp [node?]

theorem mem_nodes_updateNode {g : Graph κ} {n : NodeId} {f : Node κ → Node κ} {k : Node κ} :
    k ∈ (g.updateNode n f).nodes ↔ ∃ m ∈ g.nodes, (if m.id = n then f m else m) = k := by
  simp [updateNode]

/-- The node with a given id stands at one place in the list, and an update of it replaces it there.
-/
theorem node?_split {g : Graph κ} (h : g.Ascending) {n : NodeId} {m : Node κ}
    (hm : g.node? n = some m) :
    ∃ l₁ l₂, g.nodes = l₁ ++ m :: l₂ ∧ (∀ k ∈ l₁ ++ l₂, k.id ≠ n) ∧
      ∀ f, (g.updateNode n f).nodes = l₁ ++ f m :: l₂ := by
  obtain ⟨hmem, rfl⟩ := node?_mem hm
  obtain ⟨l₁, l₂, hl⟩ := List.append_of_mem hmem
  have hp := h
  rw [Ascending, hl, List.pairwise_append, List.pairwise_cons] at hp
  obtain ⟨-, ⟨hafter, -⟩, hbefore⟩ := hp
  -- Ids ascend strictly along the list, so the id does not occur before or after the node.
  have hne : ∀ k ∈ l₁ ++ l₂, k.id ≠ m.id := by
    intro k hk
    rcases List.mem_append.1 hk with hk | hk
    · exact ne_of_number_lt (hbefore k hk m List.mem_cons_self)
    · exact (ne_of_number_lt (hafter k hk)).symm
  have hfix : ∀ f : Node κ → Node κ, ∀ l : List (Node κ), (∀ k ∈ l, k.id ≠ m.id) →
      (l.map fun k => if k.id = m.id then f k else k) = l := by
    intro f l hl
    exact (List.map_congr_left fun k hk => if_neg (hl k hk)).trans (List.map_id' l)
  refine ⟨l₁, l₂, hl, hne, fun f => ?_⟩
  have h₁ := hfix f l₁ fun k hk => hne k (List.mem_append_left _ hk)
  have h₂ := hfix f l₂ fun k hk => hne k (List.mem_append_right _ hk)
  simp [updateNode, hl, h₁, h₂]

/-! ## The ports of a graph -/

/-- Every port with its place: node after node, the inputs of a node before its outputs. -/
def allPorts (g : Graph κ) : List PlacedPort := g.nodes.flatMap placedPorts

theorem mem_placedPorts {n : Node κ} {q : PlacedPort} :
    q ∈ placedPorts n ↔ q.node = n.id ∧
      (q.direction = .input ∧ q.port ∈ n.inputs ∨ q.direction = .output ∧ q.port ∈ n.outputs) := by
  obtain ⟨node, direction, port⟩ := q
  simp only [placedPorts, List.mem_append, List.mem_map, PlacedPort.mk.injEq]
  constructor
  · rintro (⟨p, hp, rfl, rfl, rfl⟩ | ⟨p, hp, rfl, rfl, rfl⟩) <;> simp [hp]
  · rintro ⟨rfl, ⟨rfl, hp⟩ | ⟨rfl, hp⟩⟩
    · exact .inl ⟨port, hp, rfl, rfl, rfl⟩
    · exact .inr ⟨port, hp, rfl, rfl, rfl⟩

theorem mem_allPorts {g : Graph κ} {q : PlacedPort} :
    q ∈ g.allPorts ↔ ∃ n ∈ g.nodes, q ∈ placedPorts n := by
  simp [allPorts]

theorem input_mem_allPorts {g : Graph κ} {m : Node κ} (hm : m ∈ g.nodes) {p : Port}
    (hp : p ∈ m.inputs) : ⟨m.id, .input, p⟩ ∈ g.allPorts :=
  mem_allPorts.2 ⟨m, hm, mem_placedPorts.2 ⟨rfl, .inl ⟨rfl, hp⟩⟩⟩

theorem output_mem_allPorts {g : Graph κ} {m : Node κ} (hm : m ∈ g.nodes) {p : Port}
    (hp : p ∈ m.outputs) : ⟨m.id, .output, p⟩ ∈ g.allPorts :=
  mem_allPorts.2 ⟨m, hm, mem_placedPorts.2 ⟨rfl, .inr ⟨rfl, hp⟩⟩⟩

theorem exists_of_input {g : Graph κ} {q : PlacedPort} (hq : q ∈ g.allPorts)
    (hin : q.direction = .input) : ∃ m ∈ g.nodes, q.node = m.id ∧ q.port ∈ m.inputs := by
  obtain ⟨m, hm, hqm⟩ := mem_allPorts.1 hq
  obtain ⟨hid, hp⟩ := mem_placedPorts.1 hqm
  exact ⟨m, hm, hid, by simpa [hin] using hp⟩

theorem exists_of_output {g : Graph κ} {q : PlacedPort} (hq : q ∈ g.allPorts)
    (hout : q.direction = .output) : ∃ m ∈ g.nodes, q.node = m.id ∧ q.port ∈ m.outputs := by
  obtain ⟨m, hm, hqm⟩ := mem_allPorts.1 hq
  obtain ⟨hid, hp⟩ := mem_placedPorts.1 hqm
  exact ⟨m, hm, hid, by simpa [hout] using hp⟩

theorem numbers_placedPorts (n : Node κ) :
    (placedPorts n).map (·.port.index) = n.ports.map (·.index) := by
  simp [placedPorts, Node.ports, Function.comp_def]

/-- The numbers of all ports, each as often as it is listed. -/
def numbers (g : Graph κ) : List Nat := g.allPorts.map (·.port.index)

theorem portAt?_eq_find? (g : Graph κ) (i : Nat) :
    g.portAt? i = g.allPorts.find? fun q => q.port.index = i :=
  List.find?_flatMap.symm

theorem portAt?_mem {g : Graph κ} {i : Nat} {q : PlacedPort} (h : g.portAt? i = some q) :
    q ∈ g.allPorts ∧ q.port.index = i := by
  rw [portAt?_eq_find?] at h
  have hp := List.find?_some h
  exact ⟨List.mem_of_find?_eq_some h, by simpa using hp⟩

/-- The two ends of a connection: an output and an input of different nodes, both for what the
connection carries, and of types that may be connected if it carries a value. -/
structure Joins (g : Graph κ) (c : Connection) (source destination : PlacedPort) : Prop where
  source_mem : source ∈ g.allPorts
  destination_mem : destination ∈ g.allPorts
  source_index : source.port.index = c.source
  destination_index : destination.port.index = c.destination
  source_output : source.direction = .output
  destination_input : destination.direction = .input
  nodes_ne : source.node ≠ destination.node
  source_control : source.port.decl.isControl = true ↔ c.kind = .control
  destination_control : destination.port.decl.isControl = true ↔ c.kind = .control
  feeds : c.kind = .value →
    ValueType.feeds g.hook source.port.decl.type destination.port.decl.type = true

/-- The numbers of a graph tell its ports apart. -/
structure Numbered (g : Graph κ) : Prop where
  ascending : g.Ascending
  /-- No number is listed twice. -/
  distinct : g.numbers.Nodup
  /-- The numbers still to be given out are not in use. -/
  used : ∀ q ∈ g.allPorts, q.port.index < g.nextPort

theorem Numbered.port_inj {g : Graph κ} (h : g.Numbered) {p q : PlacedPort}
    (hp : p ∈ g.allPorts) (hq : q ∈ g.allPorts) (he : p.port.index = q.port.index) : p = q :=
  List.inj_on_of_nodup_map h.distinct hp hq he

/-- In a graph of which the numbers tell the ports apart, a number denotes the port that is listed
under it. -/
theorem Numbered.portAt?_eq_some_iff {g : Graph κ} (h : g.Numbered) {i : Nat}
    {q : PlacedPort} : g.portAt? i = some q ↔ q ∈ g.allPorts ∧ q.port.index = i := by
  refine ⟨portAt?_mem, fun ⟨hq, hi⟩ => ?_⟩
  rw [portAt?_eq_find?]
  refine find?_eq_of_unique hq (by simpa using hi) fun p hp hpi => ?_
  exact h.port_inj hp hq ((by simpa using hpi : p.port.index = i).trans hi.symm)

/-- What every edit of a graph keeps. -/
structure WellFormed (g : Graph κ) : Prop where
  ascending : g.Ascending
  /-- No number is listed twice. -/
  distinct : g.numbers.Nodup
  /-- The numbers still to be given out are not in use. -/
  used : ∀ q ∈ g.allPorts, q.port.index < g.nextPort
  joined : ∀ c ∈ g.connections, ∃ s d, g.Joins c s d
  single : g.connections.Pairwise fun c d => ¬c.Excludes d

theorem WellFormed.numbered {g : Graph κ} (h : g.WellFormed) : g.Numbered :=
  ⟨h.ascending, h.distinct, h.used⟩

theorem WellFormed.port_inj {g : Graph κ} (h : g.WellFormed) {p q : PlacedPort}
    (hp : p ∈ g.allPorts) (hq : q ∈ g.allPorts) (he : p.port.index = q.port.index) : p = q :=
  h.numbered.port_inj hp hq he

/-- In a well-formed graph a number denotes the port that is listed under it. -/
theorem WellFormed.portAt?_eq_some_iff {g : Graph κ} (h : g.WellFormed) {i : Nat}
    {q : PlacedPort} : g.portAt? i = some q ↔ q ∈ g.allPorts ∧ q.port.index = i :=
  h.numbered.portAt?_eq_some_iff

end Graph

end EffectGraph
