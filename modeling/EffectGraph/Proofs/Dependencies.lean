import EffectGraph.Proofs.Failures
import EffectGraph.Proofs.Redefining

/-!
# How values depend on one another

A node depends on the nodes whose outputs are connected to its value inputs (`Graph.DependsOn`), and
the value of a port is to be had from one node at most (`Graph.Demands`). An input demands what the
output demands that it is connected to (`WellFormed.demands_iff`). The ports that a node reads for
its arguments are its value inputs, one and all (`WellFormed.demands_of_draws`,
`Valid.draws_of_input`).
-/

namespace EffectGraph

namespace Graph

open Relation

variable {g : Graph Definition} {a b n : NodeId} {p x : PortId} {port : PlacedPort}

/-- A node depends on another if an output of the other is connected to one of its value inputs. -/
def DependsOn (g : Graph Definition) (a b : NodeId) : Prop :=
  ∃ c ∈ g.connections, c.kind = .value ∧ ∃ source destination, g.Joins c source destination ∧
    destination.node = a ∧ source.node = b

/-- A node lies on a cycle of dependencies. -/
def Cyclic (g : Graph Definition) (n : NodeId) : Prop := TransGen g.DependsOn n n

/-- The node that the value of a port is to be had from: its own one for an output, for an input the
one of the output that it is connected to. -/
inductive Demands (g : Graph Definition) (p : PortId) : NodeId → Prop
  | output {port : PlacedPort} (hport : g.port? p = some port) (hrole : port.role = .valueOutput) :
    Demands g p port.node
  | input {c : Connection} {source port : PlacedPort} (hport : g.port? p = some port)
    (hrole : port.role = .valueInput) (hc : c ∈ g.connections) (hj : g.Joins c source port) :
    Demands g p source.node

/-- A node that the value of a port is to be had from, be it by way of others. -/
def Reaches (g : Graph Definition) (p : PortId) (n : NodeId) : Prop :=
  ∃ a, g.Demands p a ∧ ReflTransGen g.DependsOn a n

/-- No node that the value of a port is to be had from lies on a cycle. -/
def Grounded (g : Graph Definition) (p : PortId) : Prop := ∀ n, g.Reaches p n → ¬ g.Cyclic n

/-! ## Ports -/

theorem demands_output (hport : g.port? p = some port) (hrole : port.role = .valueOutput) :
    g.Demands p n ↔ n = port.node := by
  constructor
  · intro h
    cases h with
    | output hport' => rw [Option.some.inj (hport.symm.trans hport')]
    | input hport' hrole' =>
      obtain rfl := Option.some.inj (hport.symm.trans hport')
      exact nomatch hrole.symm.trans hrole'
  · rintro rfl
    exact .output hport hrole

theorem demands_input (hport : g.port? p = some port) (hrole : port.role = .valueInput) :
    g.Demands p n ↔ ∃ c ∈ g.connections, ∃ source, g.Joins c source port ∧ source.node = n := by
  constructor
  · intro h
    cases h with
    | output hport' hrole' =>
      obtain rfl := Option.some.inj (hport.symm.trans hport')
      exact nomatch hrole.symm.trans hrole'
    | input hport' _ hc hj =>
      obtain rfl := Option.some.inj (hport.symm.trans hport')
      exact ⟨_, hc, _, hj, rfl⟩
  · rintro ⟨c, hc, source, hj, rfl⟩
    exact .input hport hrole hc hj

/-- A value input demands what the output demands that it is connected to. -/
theorem WellFormed.demands_iff (hg : g.WellFormed) (hport : g.port? p = some port)
    (hrole : port.role = .valueInput) (hx : g.valueSource? p = some x) :
    g.Demands p n ↔ g.Demands x n := by
  obtain ⟨hmem, rfl⟩ := (port?_eq_some_iff_mem hg).1 hport
  obtain ⟨c, hc, source, hj, rfl⟩ := (hg.valueSource?_eq_some hmem hrole).1 hx
  rw [demands_input hport hrole,
    demands_output (hg.port?_portId hj.source_mem) (hj.role_source hrole)]
  constructor
  · rintro ⟨c', hc', source', hj', rfl⟩
    -- There is one connection to the input at most.
    have hx' := (hg.valueSource?_eq_some hmem hrole).2 ⟨c', hc', source', hj', rfl⟩
    have hid : g.portId source.port.index = g.portId source'.port.index :=
      Option.some.inj (hx.symm.trans hx')
    rw [hg.port_inj hj.source_mem hj'.source_mem (congrArg PortId.index hid)]
  · rintro rfl
    exact ⟨c, hc, source, hj, rfl⟩

/-- A value input that is not connected demands nothing. -/
theorem WellFormed.not_demands (hg : g.WellFormed) (hport : g.port? p = some port)
    (hrole : port.role = .valueInput) (hx : g.valueSource? p = none) : ¬ g.Demands p n := by
  obtain ⟨hmem, rfl⟩ := (port?_eq_some_iff_mem hg).1 hport
  rw [demands_input hport hrole]
  rintro ⟨c, hc, source, hj, -⟩
  have hsome := (hg.valueSource?_eq_some hmem hrole).2 ⟨c, hc, source, hj, rfl⟩
  exact nomatch hx.symm.trans hsome

/-- A value input that is placed at a node is one of its inputs. -/
theorem WellFormed.mem_inputs_of_role (hg : g.WellFormed) {node : Node Definition}
    (hnode : node ∈ g.nodes) (hport : port ∈ g.allPorts) (hid : port.node = node.id)
    (hrole : port.role = .valueInput) :
    port.port ∈ node.inputs ∧ port.port.decl.isControl = false := by
  obtain ⟨hin, hvalue⟩ := (PlacedPort.role_eq_iff .input false).1 hrole
  obtain ⟨m, hm, hid', hmem⟩ := exists_of_input hport hin
  have hfound := node?_of_mem hg.ascending hm
  rw [← hid', hid, node?_of_mem hg.ascending hnode] at hfound
  obtain rfl := Option.some.inj hfound
  exact ⟨hmem, hvalue⟩

/-- A node depends on what its value inputs demand. -/
theorem WellFormed.dependsOn_iff (hg : g.WellFormed) : g.DependsOn a b ↔
    ∃ port ∈ g.allPorts, port.node = a ∧ port.role = .valueInput ∧
      g.Demands (g.portId port.port.index) b := by
  constructor
  · rintro ⟨c, hc, hkind, source, destination, hj, rfl, rfl⟩
    have hvalue : destination.port.decl.isControl = false :=
      Bool.eq_false_iff.2 fun h => nomatch hkind.symm.trans (hj.destination_control.1 h)
    have hrole := (PlacedPort.role_eq_iff .input false).2 ⟨hj.destination_input, hvalue⟩
    exact ⟨destination, hj.destination_mem, rfl, hrole,
      .input (hg.port?_portId hj.destination_mem) hrole hc hj⟩
  · rintro ⟨port, hmem, rfl, hrole, hdemands⟩
    obtain ⟨c, hc, source, hj, rfl⟩ := (demands_input (hg.port?_portId hmem) hrole).1 hdemands
    have hvalue := ((PlacedPort.role_eq_iff .input false).1 hrole).2
    have hkind : c.kind = .value := by
      cases hkind : c.kind with
      | value => rfl
      | control => exact Bool.noConfusion (hvalue.symm.trans (hj.destination_control.2 hkind))
    exact ⟨c, hc, hkind, source, port, hj, rfl, rfl⟩

/-! ## What is reached -/

theorem reaches_congr (h : ∀ n, g.Demands p n ↔ g.Demands x n) : g.Reaches p n ↔ g.Reaches x n :=
  exists_congr fun a => and_congr_left fun _ => h a

theorem reaches_output (hport : g.port? p = some port) (hrole : port.role = .valueOutput) :
    g.Reaches p n ↔ ReflTransGen g.DependsOn port.node n := by
  simp only [Reaches, demands_output hport hrole, exists_eq_left]

/-- If the value inputs of a node are grounded, so are its value outputs. -/
theorem WellFormed.grounded_output (hg : g.WellFormed) (hport : g.port? p = some port)
    (hrole : port.role = .valueOutput)
    (hinputs : ∀ q ∈ g.allPorts, q.node = port.node → q.role = .valueInput →
      g.Grounded (g.portId q.port.index)) : g.Grounded p := by
  have hbelow : ∀ b, g.DependsOn port.node b →
      ∀ n, ReflTransGen g.DependsOn b n → ¬ g.Cyclic n := by
    intro b hb n hn
    obtain ⟨q, hq, hnode, hrole, hdemands⟩ := hg.dependsOn_iff.1 hb
    exact hinputs q hq hnode hrole n ⟨b, hdemands, hn⟩
  intro n hn hcycle
  rcases ((reaches_output hport hrole).1 hn).cases_head with rfl | ⟨b, hb, hn⟩
  -- A cycle through the node itself passes through an input.
  · obtain ⟨b, hb, hback⟩ := TransGen.head'_iff.1 hcycle
    exact hbelow b hb _ hback hcycle
  · exact hbelow b hb n hn hcycle

/-! ## What nodes read -/

/-- The ports drawn for arguments are inputs of the node. -/
theorem Draws.mem_inputs {d : PortDecl} (h : g.Draws n d p) :
    ∃ q ∈ g.allPorts, q.direction = .input ∧ q.node = n ∧ p = g.portId q.port.index := by
  unfold Draws at h
  split at h
  · unfold variadicSlots at h
    split at h
    · simp at h
    next m hm =>
      obtain ⟨hmem, rfl⟩ := node?_mem hm
      obtain ⟨q, hq, rfl⟩ := List.mem_map.1 h
      exact ⟨_, input_mem_allPorts hmem (List.mem_filter.1 hq).1, rfl, rfl, rfl⟩
  · obtain ⟨q, hq, hin, hnode, -, hp⟩ := input?_eq_some h
    exact ⟨q, hq, hin, hnode, hp⟩

/-- A node depends on what a port demands that it reads for an argument. -/
theorem WellFormed.dependsOn_of_draws (hg : g.WellFormed) {d : PortDecl} (hp : g.Draws n d p)
    (h : g.Demands p b) : g.DependsOn n b := by
  obtain ⟨q, hq, hin, rfl, rfl⟩ := hp.mem_inputs
  refine hg.dependsOn_iff.2 ⟨q, hq, rfl, ?_, h⟩
  cases hcontrol : q.port.decl.isControl with
  | false => exact (PlacedPort.role_eq_iff .input false).2 ⟨hin, hcontrol⟩
  | true =>
    -- A control input demands nothing.
    have hrole := (PlacedPort.role_eq_iff (p := q) .input true).2 ⟨hin, hcontrol⟩
    have hport := hg.port?_portId hq
    cases h with
    | output hport' hrole' | input hport' hrole' =>
      obtain rfl := Option.some.inj (hport.symm.trans hport')
      exact nomatch hrole.symm.trans hrole'

/-- A value input of an action node is drawn for one of the declared inputs. -/
theorem Valid.draws_of_input (hg : g.Valid []) {node : Node Definition} (hnode : node ∈ g.nodes)
    {k : Definition} (hkind : node.kind = .action k) (hk : k.signature.Addressable) {q : Port}
    (hq : q ∈ node.inputs) (hvalue : q.decl.isControl = false) :
    q.decl ∈ k.signature.inputs ∧ g.Draws node.id q.decl (g.portId q.index) := by
  have hshaped := hg.shaped node hnode List.not_mem_nil
  obtain ⟨w, hw, -⟩ := hshaped.inputs
  have hspec : q.spec ∈ g.inputShape node w := hw ▸ List.mem_map_of_mem hq
  obtain ⟨hdecl, hslot⟩ := (mem_inputShape_iff hkind).1 hspec
  refine ⟨?_, ?_⟩
  · rcases List.mem_cons.1 hdecl with hdecl | hdecl
    · have hcontrol : q.decl = .control enterName := hdecl
      rw [hcontrol] at hvalue
      exact Bool.noConfusion hvalue
    · exact hdecl
  · unfold Draws
    rcases hslot with ⟨hvariadic, i, hi, -⟩ | ⟨hsingle, hnone⟩
    · have hvariadic : q.decl.isVariadic = true := hvariadic
      have hi : q.slot = some i := hi
      rw [if_pos hvariadic, variadicSlots, node?_of_mem hg.ascending hnode]
      exact List.mem_map_of_mem (List.mem_filter.2 ⟨hq, by simp [hi]⟩)
    · have hsingle : q.decl.isVariadic = false := hsingle
      have hnone : q.slot = none := hnone
      rw [if_neg (by simp [hsingle]), ← hnone]
      exact hshaped.input?_eq (Node.Addressable.kind ⟨k, hkind, hk⟩ _) hg.ascending hnode hq

end Graph

end EffectGraph
