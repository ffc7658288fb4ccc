import EffectGraph.Proofs.Failures
import EffectGraph.Proofs.Frame
import EffectGraph.Proofs.RoundTrip

/-!
# Connecting in either order

Two ports may be given in either order when they are connected: both orders are accepted or refused
together, and they lead to the same graph (`connect_comm`). Once two ports are connected the output
leads to the input (`Leads`), and connecting them once more changes nothing
(`Reachable.connect_in_either_order`). The nodes that are reshaped on account of a new connection
keep its ends, whichever slots they lose (`Valid.joins_join`).
-/

namespace EffectGraph

namespace Graph

variable {g g' : Graph Definition} {a b : PortId} {j : Joint}

/-! ## The order of two ports -/

theorem orient?_comm (p q : PlacedPort) : orient? p q = orient? q p := by
  unfold orient?
  cases p.role <;> cases q.role <;> rfl

/-- Both orders pass the check together, and are oriented alike. -/
theorem checkConnection_comm : g.checkConnection a b = .ok j ↔ g.checkConnection b a = .ok j := by
  simp only [checkConnection_eq_ok]
  constructor
  · rintro ⟨p, q, hp, hq, hne, hj, hfeeds⟩
    exact ⟨q, p, hq, hp, hne.symm, orient?_comm p q ▸ hj, hfeeds⟩
  · rintro ⟨q, p, hq, hp, hne, hj, hfeeds⟩
    exact ⟨p, q, hp, hq, hne.symm, orient?_comm q p ▸ hj, hfeeds⟩

theorem canConnect_iff : g.canConnect a b = true ↔ ∃ j, g.checkConnection a b = .ok j := by
  unfold canConnect
  cases g.checkConnection a b <;> simp

theorem canConnect_comm (g : Graph Definition) (a b : PortId) :
    g.canConnect a b = g.canConnect b a := by
  rw [Bool.eq_iff_iff, canConnect_iff, canConnect_iff]
  exact exists_congr fun j => checkConnection_comm

theorem connect_comm : g.connect a b = .ok g' ↔ g.connect b a = .ok g' := by
  simp only [connect_eq_ok, checkConnection_comm (a := a)]

/-- What may be connected is connected. -/
theorem canConnect_iff_connect : g.canConnect a b = true ↔ ∃ g', g.connect a b = .ok g' := by
  simp only [canConnect_iff, connect_eq_ok]
  constructor
  · rintro ⟨j, hj⟩
    exact ⟨g.join j, j, hj, rfl⟩
  · rintro ⟨_, j, hj, -⟩
    exact ⟨j, hj⟩

/-- The ports that pass the check are the ends of the joint, in the order in which they were given
or the other way round. -/
theorem WellFormed.ends_of_checkConnection (hg : g.WellFormed)
    (h : g.checkConnection a b = .ok j) :
    a = g.portId j.source.port.index ∧ b = g.portId j.destination.port.index ∨
      b = g.portId j.source.port.index ∧ a = g.portId j.destination.port.index := by
  obtain ⟨p, q, hp, hq, -, hj, -⟩ := checkConnection_eq_ok.1 h
  obtain ⟨-, rfl⟩ := (port?_eq_some_iff_mem hg).1 hp
  obtain ⟨-, rfl⟩ := (port?_eq_some_iff_mem hg).1 hq
  rcases (orient?_eq_some hj).1 with ⟨hs, hd⟩ | ⟨hs, hd⟩
  · exact .inl ⟨hs ▸ rfl, hd ▸ rfl⟩
  · exact .inr ⟨hs ▸ rfl, hd ▸ rfl⟩

/-! ## After a connection is made -/

/-- An output leads to an input: a value input takes its value from a value output, or a control
output hands control on to a control input. -/
inductive Leads (g : Graph Definition) (output input : PortId) : Prop
  | value {s d : PlacedPort} (hs : g.port? output = some s) (hd : g.port? input = some d)
    (source : s.role = .valueOutput) (destination : d.role = .valueInput)
    (h : g.valueSource? input = some output)
  | control {s d : PlacedPort} (hs : g.port? output = some s) (hd : g.port? input = some d)
    (source : s.role = .controlOutput) (destination : d.role = .controlInput)
    (h : g.nextControl? output = some input)

/-- The source of a connection leads to its destination. -/
theorem WellFormed.leads (hg : g.WellFormed) {c : Connection} {s d : PlacedPort}
    (hc : c ∈ g.connections) (hj : g.Joins c s d) :
    g.Leads (g.portId s.port.index) (g.portId d.port.index) := by
  have hs := hg.port?_portId hj.source_mem
  have hd := hg.port?_portId hj.destination_mem
  cases hk : c.kind with
  | value =>
    have hvalue : ¬ d.port.decl.isControl = true := fun h =>
      nomatch hk.symm.trans (hj.destination_control.1 h)
    have hrole : d.role = .valueInput :=
      (PlacedPort.role_eq_iff .input false).2 ⟨hj.destination_input, Bool.eq_false_iff.2 hvalue⟩
    exact .value hs hd (hj.role_source hrole) hrole
      ((hg.valueSource?_eq_some hj.destination_mem hrole).2 ⟨c, hc, s, hj, rfl⟩)
  | control =>
    have hrole : s.role = .controlOutput :=
      (PlacedPort.role_eq_iff .output true).2 ⟨hj.source_output, hj.source_control.2 hk⟩
    have hrole' : d.role = .controlInput :=
      (PlacedPort.role_eq_iff .input true).2 ⟨hj.destination_input, hj.destination_control.2 hk⟩
    exact .control hs hd hrole hrole'
      ((hg.nextControl?_eq_some hj.source_mem hrole).2 ⟨c, hc, d, hj, rfl⟩)

/-- A connection between the ends of a joint is the one that the joint describes. -/
theorem WellFormed.connection_mem (hg : g.WellFormed)
    (hj : g.Joins j.connection j.source j.destination) {c : Connection} (hc : c ∈ g.connections)
    (hsource : c.source = j.source.port.index)
    (hdestination : c.destination = j.destination.port.index) : j.connection ∈ g.connections := by
  obtain ⟨s, d, hc'⟩ := hg.joined c hc
  obtain rfl := hg.port_inj hc'.source_mem hj.source_mem (hc'.source_index.trans hsource)
  have hkind : c.kind = .control ↔ j.kind = .control :=
    hc'.source_control.symm.trans hj.source_control
  have he : c = j.connection := by
    obtain ⟨kind, source, destination⟩ := c
    simp only [Joint.connection, Connection.mk.injEq]
    refine ⟨?_, hsource, hdestination⟩
    cases hk : j.kind <;> cases kind <;> simp_all
  exact he ▸ hc

/-- Joining two ports changes nothing if they are connected, and otherwise it costs only the
connection that it replaces. -/
theorem Valid.spares_join (h : g.Valid []) (hj : g.Joins j.connection j.source j.destination) :
    j.connection ∈ g.connections ∧ g.join j = g ∨ (g.linked j).Spares (g.join j) := by
  rcases join_eq g j with ⟨he, c, hc, hsource, hdestination⟩ | ⟨-, he⟩
  · exact .inl ⟨h.wellFormed.connection_mem hj hc hsource hdestination, he⟩
  · refine .inr ?_
    rw [he]
    exact (h.linked hj).spares_refresh _

/-- Joined ports are joined by a connection afterwards, and are the ports that they were. -/
theorem Valid.joins_join (h : g.Valid []) (hj : g.Joins j.connection j.source j.destination) :
    j.connection ∈ (g.join j).connections ∧
      (g.join j).Joins j.connection j.source j.destination := by
  rcases h.spares_join hj with ⟨hmem, he⟩ | hspares
  · rw [he]
    exact ⟨hmem, hj⟩
  · have hmem : j.connection ∈ (g.join j).connections :=
      hspares.wires ▸ List.mem_append_right _ (List.mem_singleton_self _)
    exact ⟨hmem, hspares.joins (h.linked hj).wellFormed (h.join hj).wellFormed hmem { hj with }⟩

theorem Valid.id_join (h : g.Valid []) (hj : g.Joins j.connection j.source j.destination) :
    (g.join j).id = g.id ∧ (g.join j).hook = g.hook := by
  rcases h.spares_join hj with ⟨-, he⟩ | hspares
  · rw [he]
    exact ⟨rfl, rfl⟩
  · exact ⟨hspares.id, hspares.hook⟩

/-- The two ports are the ones that they were. -/
theorem Valid.port?_join (h : g.Valid []) (hcheck : g.checkConnection a b = .ok j) :
    (g.join j).port? a = g.port? a ∧ (g.join j).port? b = g.port? b := by
  have hjoins := Joins.of_checkConnection hcheck
  have hjoins' := (h.joins_join hjoins).2
  have hport : ∀ q ∈ g.allPorts, q ∈ (g.join j).allPorts →
      (g.join j).port? (g.portId q.port.index) = g.port? (g.portId q.port.index) := by
    intro q hq hq'
    rw [h.wellFormed.port?_portId hq, ← (h.join hjoins).wellFormed.port?_portId hq', portId, portId,
      (h.id_join hjoins).1]
  have hsource := hport _ hjoins.source_mem hjoins'.source_mem
  have hdestination := hport _ hjoins.destination_mem hjoins'.destination_mem
  rcases h.wellFormed.ends_of_checkConnection hcheck with ⟨rfl, rfl⟩ | ⟨rfl, rfl⟩
  · exact ⟨hsource, hdestination⟩
  · exact ⟨hdestination, hsource⟩

/-- What has been joined is there and is not joined again. -/
theorem join_of_mem (h : j.connection ∈ g.connections) : g.join j = g := by
  rcases join_eq g j with ⟨he, -⟩ | ⟨hnew, -⟩
  · exact he
  · exact absurd ⟨rfl, rfl⟩ (hnew _ h)

end Graph

open EffectGraph.Graph

/-- Two ports of a reachable graph, or ids that denote none, may be given in either order: both
orders are accepted or refused together and make the same graph of it, and they are accepted exactly
if it is said that they may be connected. Afterwards the output leads to the input, both are the
ports that they were, and connecting them once more changes nothing. -/
theorem Reachable.connect_in_either_order {K : Definition → Prop} {g : Graph Definition}
    (h : Reachable K g) (a b : PortId) :
    g.canConnect a b = g.canConnect b a ∧
      (∀ g', g.connect a b = .ok g' ↔ g.connect b a = .ok g') ∧
      (g.canConnect a b = true ↔ ∃ g', g.connect a b = .ok g') ∧
      ∀ g', g.connect a b = .ok g' → (g'.Leads a b ∨ g'.Leads b a) ∧
        g'.port? a = g.port? a ∧ g'.port? b = g.port? b ∧
        g'.connect a b = .ok g' ∧ g'.connect b a = .ok g' := by
  refine ⟨canConnect_comm g a b, fun g' => connect_comm, canConnect_iff_connect, ?_⟩
  intro g' hc
  obtain ⟨j, hcheck, rfl⟩ := connect_eq_ok.1 hc
  have hjoins := Joins.of_checkConnection hcheck
  obtain ⟨hmem, hjoins'⟩ := h.valid.joins_join hjoins
  obtain ⟨hid, hhook⟩ := h.valid.id_join hjoins
  have hports := h.valid.port?_join hcheck
  have hleads := (h.valid.join hjoins).wellFormed.leads hmem hjoins'
  rw [portId, portId, hid] at hleads
  -- The check looks at the two ports and at the hook only, and both are as they were.
  have hagain : (g.join j).connect a b = .ok (g.join j) := by
    obtain ⟨p, q, hp, hq, hne, hj, hfeeds⟩ := checkConnection_eq_ok.1 hcheck
    refine connect_eq_ok.2 ⟨j, checkConnection_eq_ok.2 ⟨p, q, hports.1.trans hp, hports.2.trans hq,
      hne, hj, hhook ▸ hfeeds⟩, join_of_mem hmem⟩
  refine ⟨?_, hports.1, hports.2, hagain, connect_comm.1 hagain⟩
  rcases h.valid.wellFormed.ends_of_checkConnection hcheck with ⟨rfl, rfl⟩ | ⟨rfl, rfl⟩
  · exact .inl hleads
  · exact .inr hleads

/-- The output of a chain is connected to one more slot of it, the input given first. -/
theorem connect_gatherChain_in_either_order :
    ∃ g, gatherChain.connect ⟨0, 8⟩ ⟨0, 3⟩ = .ok g ∧ gatherChain.connect ⟨0, 3⟩ ⟨0, 8⟩ = .ok g ∧
      g.valueSource? ⟨0, 8⟩ = some ⟨0, 3⟩ ∧ g.connect ⟨0, 3⟩ ⟨0, 8⟩ = .ok g := by
  obtain ⟨-, hcomm, -, hafter⟩ :=
    reachable_gatherChain.connect_in_either_order ⟨0, 8⟩ ⟨0, 3⟩
  obtain ⟨-, -, -, -, hagain⟩ := hafter _ rfl
  exact ⟨_, rfl, (hcomm _).1 rfl, by decide, hagain⟩

end EffectGraph
