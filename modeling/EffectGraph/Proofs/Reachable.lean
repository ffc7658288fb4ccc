import EffectGraph.Proofs.Restoring

/-!
# Reachable graphs

A graph is reachable (`Reachable`) if it starts out blank, as the inner graph of a new generated
kind or as the rebuild of a snapshot, and is then edited by any number of edits with any arguments;
an edit that is refused leaves it as it is. What every edit keeps holds of all of them. The main
result is that nodes, ports and connections of a reachable graph agree with one another
(`Reachable.consistent`).
-/

namespace EffectGraph

open EffectGraph.Graph Snapshot

/-! ## Edits -/

/-- An edit of a graph with its arguments. -/
inductive Edit (κ : Type) where
  | addNode (kind : NodeKind κ)
  | addNodeAt (n : NodeId) (kind : NodeKind κ)
  | removeNode (n : NodeId)
  | setSignature (s : Signature)
  | connect (a b : PortId)
  | wire (source : NodeId) (output : String) (destination : NodeId) (input : String)
  | disconnect (a b : PortId)
  | isolatePort (p : PortId)
  | isolateNode (n : NodeId)
  | setConst (n : NodeId) (name : String) (v : Value)
  | setDefault (n : NodeId) (k : SlotKey) (v : Value)
  | clearDefault (n : NodeId) (k : SlotKey)
  | setPosition (n : NodeId) (p : Position)
  | redefine (kind : κ)
  | clone (id : Nat)

namespace Edit

variable {κ : Type}

/-- The graph after an edit, or the error with which it is refused. -/
def apply [HasSignature κ] (g : Graph κ) : Edit κ → Except GraphError (Graph κ)
  | addNode kind => (g.addNode kind).map (·.1)
  | addNodeAt n kind => g.addNodeAt n kind
  | removeNode n => (g.removeNode n).map (·.1)
  | setSignature s => g.setSignature s
  | connect a b => g.connect a b
  | wire source output destination input => g.wire source output destination input
  | disconnect a b => (g.disconnect a b).map (·.1)
  | isolatePort p => (g.isolatePort p).map (·.1)
  | isolateNode n => (g.isolateNode n).map (·.1)
  | setConst n name v => g.setConst n name v
  | setDefault n k v => g.setDefault n k v
  | clearDefault n k => (g.clearDefault n k).map (·.1)
  | setPosition n p => g.setPosition n p
  | redefine kind => .ok (g.redefine kind).1
  | clone i => .ok (g.clone i)

/-- The graph after an edit that may be refused. -/
def perform [HasSignature κ] (g : Graph κ) (e : Edit κ) : Graph κ :=
  match e.apply g with
  | .ok g' => g'
  | .error _ => g

/-- The kinds of action nodes that an edit brings in. -/
def offers : Edit κ → Option κ
  | addNode kind => kind.action?
  | addNodeAt _ kind => kind.action?
  | redefine kind => some kind
  | _ => none

end Edit

theorem map_eq_ok {ε α β : Type} {x : Except ε α} {f : α → β} {b : β} :
    x.map f = .ok b ↔ ∃ a, x = .ok a ∧ f a = b := by
  cases x <;> simp [Except.map]

namespace Graph

variable {κ : Type} [HasSignature κ] {g g' : Graph κ}

theorem Valid.edit (h : g.Valid []) {e : Edit κ} (he : e.apply g = .ok g') : g'.Valid [] := by
  cases e with
  | addNode kind =>
    obtain ⟨r, hr, rfl⟩ := map_eq_ok.1 he
    exact h.addNode hr
  | addNodeAt n kind => exact h.addNodeAt he
  | removeNode n =>
    obtain ⟨r, hr, rfl⟩ := map_eq_ok.1 he
    exact h.removeNode hr
  | setSignature s => exact h.setSignature he
  | connect a b => exact h.connect he
  | wire source output destination input => exact h.wire he
  | disconnect a b =>
    obtain ⟨r, hr, rfl⟩ := map_eq_ok.1 he
    obtain ⟨-, rfl⟩ := disconnect_eq_ok.1 hr
    exact h.cut _ _
  | isolatePort p =>
    obtain ⟨r, hr, rfl⟩ := map_eq_ok.1 he
    obtain ⟨-, rfl⟩ := isolatePort_eq_ok.1 hr
    exact h.cut _ _
  | isolateNode n =>
    obtain ⟨r, hr, rfl⟩ := map_eq_ok.1 he
    obtain ⟨m, -, rfl⟩ := isolateNode_eq_ok.1 hr
    exact h.cut _ _
  | setConst n name v => exact h.setConst he
  | setDefault n k v => exact h.setDefault he
  | clearDefault n k =>
    obtain ⟨r, hr, rfl⟩ := map_eq_ok.1 he
    exact h.clearDefault hr
  | setPosition n p => exact h.setPosition he
  | redefine kind =>
    obtain rfl := Except.ok.inj he
    exact h.redefine kind
  | clone id =>
    obtain rfl := Except.ok.inj he
    exact h.clone id

/-- The nodes of a graph after an edit are of old kinds and of those that the edit brings in. -/
theorem Every.edit {K : κ → Prop}
    (h : g.Every fun kind held => (∀ k, kind = .action k → K k) ∧ held = .empty) (hv : g.Valid [])
    {e : Edit κ} (hK : ∀ k, e.offers = some k → K k) (he : e.apply g = .ok g') :
    g'.Every fun kind held => (∀ k, kind = .action k → K k) ∧ held = .empty := by
  have hnew : ∀ kind : NodeKind κ, (∀ k, kind.action? = some k → K k) →
      (∀ k, kind = .action k → K k) ∧ (Table.empty : Table String Nat) = .empty :=
    fun kind hkind => ⟨fun k hk => hkind k (hk ▸ rfl), rfl⟩
  cases e with
  | addNode kind =>
    obtain ⟨r, hr, rfl⟩ := map_eq_ok.1 he
    exact h.addNodeAt hv (hnew kind hK) (addNode_eq_ok.1 hr).1
  | addNodeAt n kind => exact h.addNodeAt hv (hnew kind hK) he
  | removeNode n =>
    obtain ⟨r, hr, rfl⟩ := map_eq_ok.1 he
    exact h.removeNode hv hr
  | setSignature s => exact h.setSignature hv (by simp) (by simp) he
  | connect a b => exact h.connect hv he
  | wire source output destination input => exact h.wire hv he
  | disconnect a b =>
    obtain ⟨r, hr, rfl⟩ := map_eq_ok.1 he
    obtain ⟨-, rfl⟩ := disconnect_eq_ok.1 hr
    exact h.cut hv _ _
  | isolatePort p =>
    obtain ⟨r, hr, rfl⟩ := map_eq_ok.1 he
    obtain ⟨-, rfl⟩ := isolatePort_eq_ok.1 hr
    exact h.cut hv _ _
  | isolateNode n =>
    obtain ⟨r, hr, rfl⟩ := map_eq_ok.1 he
    obtain ⟨m, -, rfl⟩ := isolateNode_eq_ok.1 hr
    exact h.cut hv _ _
  | setConst n name v => exact h.setConst he
  | setDefault n k v => exact h.setDefault hv he
  | clearDefault n k =>
    obtain ⟨r, hr, rfl⟩ := map_eq_ok.1 he
    exact h.clearDefault hv hr
  | setPosition n p => exact h.setPosition he
  | redefine kind =>
    obtain rfl := Except.ok.inj he
    refine h.redefine hv fun held ⟨_, _, hheld⟩ => ⟨fun k hk => ?_, hheld⟩
    obtain rfl : kind = k := by simpa using hk
    exact hK kind rfl
  | clone id =>
    obtain rfl := Except.ok.inj he
    exact h

end Graph

/-! ## Reachable graphs -/

/-- The graphs over kinds from `K` that come about by edits. -/
inductive Reachable (K : Definition → Prop) : Graph Definition → Prop
  /-- A new graph. -/
  | blank (id : Nat) (hook : ConversionHook) : Reachable K (.empty id hook)
  /-- The new inner graph of a generated kind, given a hook. -/
  | owned {id : Nat} {s : Signature} {g : Graph Definition} (hook : ConversionHook)
    (h : Graph.withSignature id .standard s = .ok g) : Reachable K { g with hook := hook }
  /-- A graph rebuilt from a snapshot with a catalog of kinds from `K`. -/
  | rebuilt {c : Catalog} {id : Nat} {s : Option Signature} {snapshot : Snapshot}
    {g : Graph Definition} (hc : ∀ name d, c.get? name = some d → K d)
    (h : snapshot.rebuild c id s = .ok g) : Reachable K g
  /-- A reachable graph after an edit that brings in kinds from `K`, or has been refused. -/
  | edited {g : Graph Definition} (e : Edit Definition) (hK : ∀ k, e.offers = some k → K k)
    (h : Reachable K g) : Reachable K (e.perform g)

namespace Reachable

variable {K : Definition → Prop} {g : Graph Definition}

/-- What edits keep is kept also by those that are refused. -/
theorem perform_induct {P : Graph Definition → Prop} {e : Edit Definition}
    (step : ∀ g', e.apply g = .ok g' → P g') (h : P g) : P (e.perform g) := by
  unfold Edit.perform
  split
  next g' hg' => exact step g' hg'
  next => exact h

theorem invariant (h : Reachable K g) : g.Valid [] ∧
    g.Every fun kind held => (∀ k, kind = .action k → K k) ∧ held = .empty := by
  induction h with
  | blank id hook => exact ⟨valid_empty id hook none, by simp [Every, Graph.empty]⟩
  | @owned id s g hook h =>
    have hempty : (Graph.empty id .standard : Graph Definition).Valid [] :=
      valid_empty id .standard none
    have hevery : (Graph.empty id .standard : Graph Definition).Every fun kind held =>
        (∀ k, kind = .action k → K k) ∧ held = .empty := by simp [Every, Graph.empty]
    have hv : g.Valid [] := hempty.setSignature h
    have hg : g.Every fun kind held => (∀ k, kind = .action k → K k) ∧ held = .empty :=
      hevery.setSignature hempty (by simp) (by simp) h
    exact ⟨hv.withHook hook (controls_withSignature h), hg⟩
  | rebuilt hc h => exact valid_rebuild hc h
  | edited e hK _ ih =>
    exact perform_induct (P := fun g => g.Valid [] ∧ g.Every _)
      (fun g' he => ⟨ih.1.edit he, ih.2.edit ih.1 hK he⟩) ih

theorem valid (h : Reachable K g) : g.Valid [] := h.invariant.1

theorem mono {K' : Definition → Prop} (h : Reachable K g) (hK : ∀ k, K k → K' k) :
    Reachable K' g := by
  induction h with
  | blank id hook => exact .blank id hook
  | owned hook h => exact .owned hook h
  | rebuilt hc h => exact .rebuilt (fun name d hd => hK d (hc name d hd)) h
  | edited e he _ ih => exact .edited e (fun k hk => hK k (he k hk)) ih

theorem setSignature {s : Signature} {g' : Graph Definition} (h : Reachable K g)
    (hs : g.setSignature s = .ok g') : Reachable K g' := by
  have hperform : (Edit.setSignature s).perform g = g' := by simp [Edit.perform, Edit.apply, hs]
  exact hperform ▸ .edited _ (by simp [Edit.offers]) h

/-- Any number of edits, refused or not, lead from a reachable graph to a reachable graph. -/
theorem foldl {es : List (Edit Definition)} (hK : ∀ e ∈ es, ∀ k, e.offers = some k → K k)
    (h : Reachable K g) : Reachable K (es.foldl Edit.perform g) :=
  List.foldlRecOn es _ h fun _ hg e he => .edited e (hK e he) hg

end Reachable

/-! ## Consistency -/

namespace Graph

variable {κ : Type} {g : Graph κ}

/-- The nodes, the ports and the connections of a graph agree with one another. -/
structure Consistent (g : Graph κ) : Prop where
  /-- A port that a node lists is found under its id, on that node and on that side. -/
  inputs : ∀ n ∈ g.nodes, ∀ p ∈ n.inputs, g.port? (g.portId p.index) = some ⟨n.id, .input, p⟩
  outputs : ∀ n ∈ g.nodes, ∀ p ∈ n.outputs, g.port? (g.portId p.index) = some ⟨n.id, .output, p⟩
  /-- No port is listed twice. -/
  once : (g.nodes.flatMap fun n => n.ports.map (g.portId ·.index)).Nodup
  /-- What is found under an id is listed, on the side where it is said to be, by the one node of
  its id. -/
  listed : ∀ i q, g.port? i = some q → i = g.portId q.port.index ∧ ∃ n, g.node? q.node = some n ∧
    (q.direction = .input ∧ q.port ∈ n.inputs ∨ q.direction = .output ∧ q.port ∈ n.outputs)
  /-- A connection leads from an output to an input of another node, both for what it carries, and
  the types of the ends of a value connection convert. -/
  joined : ∀ c ∈ g.connections, ∃ s d, g.port? (g.portId c.source) = some s ∧
    g.port? (g.portId c.destination) = some d ∧ s.direction = .output ∧ d.direction = .input ∧
    s.node ≠ d.node ∧ (s.port.decl.isControl = true ↔ c.kind = .control) ∧
    (d.port.decl.isControl = true ↔ c.kind = .control) ∧
    (c.kind = .value → ValueType.feeds g.hook s.port.decl.type d.port.decl.type = true)
  /-- A value input and a control output have one connection at most. -/
  single : ∀ i q, g.port? i = some q → q.role = .valueInput ∨ q.role = .controlOutput →
    g.connections.countP (·.touches q.port.index) ≤ 1

theorem countP_le_one {α : Type} {p : α → Bool} {l : List α}
    (h : l.Pairwise fun a b => ¬(p a = true ∧ p b = true)) : l.countP p ≤ 1 := by
  induction l with
  | nil => simp
  | cons a l ih =>
    obtain ⟨hhead, htail⟩ := List.pairwise_cons.1 h
    by_cases ha : p a = true
    · have hzero : l.countP p = 0 := List.countP_eq_zero.2 fun b hb hpb => hhead b hb ⟨ha, hpb⟩
      simp [ha, hzero]
    · simpa [ha] using ih htail

theorem WellFormed.port?_portId (h : g.WellFormed) {q : PlacedPort} (hq : q ∈ g.allPorts) :
    g.port? (g.portId q.port.index) = some q :=
  port?_eq_some_iff.2 ⟨rfl, h.portAt?_eq_some_iff.2 ⟨hq, rfl⟩⟩

/-- A connection that ends at a port that admits one connection is of the kind of the port, and it
excludes every other one there. -/
theorem WellFormed.excludes (h : g.WellFormed) {q : PlacedPort} (hq : q ∈ g.allPorts)
    (hrole : q.role = .valueInput ∨ q.role = .controlOutput) {c d : Connection}
    (hc : c ∈ g.connections) (hd : d ∈ g.connections) (hcq : c.touches q.port.index = true)
    (hdq : d.touches q.port.index = true) : c.Excludes d := by
  -- A value input is touched as a destination and a control output as a source only.
  have hend : ∀ e ∈ g.connections, e.touches q.port.index = true →
      e.kind = .value ∧ e.destination = q.port.index ∧ q.role = .valueInput ∨
        e.kind = .control ∧ e.source = q.port.index ∧ q.role = .controlOutput := by
    intro e he ht
    obtain ⟨s, t, hj⟩ := h.joined e he
    simp only [Connection.touches, Bool.or_eq_true, decide_eq_true_eq] at ht
    rcases ht with ht | ht
    · obtain rfl := h.port_inj hj.source_mem hq (hj.source_index.trans ht)
      have hcontrol : s.port.decl.isControl = true := by
        rcases hrole with hr | hr <;> cases hsc : s.port.decl.isControl <;>
          simp [PlacedPort.role, hj.source_output, hsc, PortRole.of] at hr ⊢
      exact .inr ⟨hj.source_control.1 hcontrol, ht,
        by simp [PlacedPort.role, hj.source_output, hcontrol, PortRole.of]⟩
    · obtain rfl := h.port_inj hj.destination_mem hq (hj.destination_index.trans ht)
      have hvalue : t.port.decl.isControl = false := by
        rcases hrole with hr | hr <;> cases htc : t.port.decl.isControl <;>
          simp [PlacedPort.role, hj.destination_input, htc, PortRole.of] at hr ⊢
      have hkind : e.kind = .value := by
        cases hek : e.kind with
        | value => rfl
        | control => simp [hj.destination_control.2 hek] at hvalue
      exact .inl ⟨hkind, ht, by simp [PlacedPort.role, hj.destination_input, hvalue, PortRole.of]⟩
  rcases hend c hc hcq with ⟨hck, hcd, hcr⟩ | ⟨hck, hcs, hcr⟩
  · rcases hend d hd hdq with ⟨hdk, hdd, -⟩ | ⟨-, -, hdr⟩
    · exact ⟨hck.trans hdk.symm, .inl ⟨hck, hcd.trans hdd.symm⟩⟩
    · simp [hcr] at hdr
  · rcases hend d hd hdq with ⟨-, -, hdr⟩ | ⟨hdk, hds, -⟩
    · simp [hcr] at hdr
    · exact ⟨hck.trans hdk.symm, .inr ⟨hck, hcs.trans hds.symm⟩⟩

theorem WellFormed.toConsistent (h : g.WellFormed) : g.Consistent := by
  refine ⟨fun n hn p hp => ?_, fun n hn p hp => ?_, ?_, fun i q hq => ?_, fun c hc => ?_,
    fun i q hq hrole => ?_⟩
  · exact h.port?_portId (input_mem_allPorts hn hp)
  · exact h.port?_portId (output_mem_allPorts hn hp)
  · have hmap : (g.nodes.flatMap fun n => n.ports.map (g.portId ·.index)) =
        g.numbers.map g.portId := by
      simp [numbers_eq, List.map_flatMap, Function.comp_def]
    rw [hmap]
    exact h.distinct.map fun i j hij => (PortId.mk.inj hij).2
  · obtain ⟨hgraph, hat⟩ := port?_eq_some_iff.1 hq
    obtain ⟨hmem, hindex⟩ := portAt?_mem hat
    obtain ⟨n, hn, hqn⟩ := mem_allPorts.1 hmem
    obtain ⟨hid, hside⟩ := mem_placedPorts.1 hqn
    refine ⟨?_, n, hid ▸ node?_of_mem h.ascending hn, hside⟩
    cases i
    simp_all [portId]
  · obtain ⟨s, d, hj⟩ := h.joined c hc
    exact ⟨s, d, hj.source_index ▸ h.port?_portId hj.source_mem,
      hj.destination_index ▸ h.port?_portId hj.destination_mem, hj.source_output,
      hj.destination_input, hj.nodes_ne, hj.source_control, hj.destination_control, hj.feeds⟩
  · have hmem := (portAt?_mem (port?_eq_some_iff.1 hq).2).1
    refine countP_le_one (List.Pairwise.imp_of_mem (fun hc hd hnot hboth => ?_) h.single)
    exact hnot (h.excludes hmem hrole hc hd hboth.1 hboth.2)

end Graph

/-- Nodes, ports and connections agree in every reachable graph, as long as the counter of its ports
is in range (see `Graph.nextPort`). -/
theorem Reachable.consistent {K : Definition → Prop} {g : Graph Definition} (h : Reachable K g) :
    g.Consistent := h.valid.wellFormed.toConsistent

/-- A kind with a group and an output that leaves the output at its default. -/
def MethodDecl.gather : MethodDecl where
  name := "Gather"
  params := [.out (.value "item" .any), .input (.variadic "items" .any)]
  body := some fun _ => .pure (.ok .empty)

/-- The definition of the kind. -/
def Definition.gather : Definition where
  signature := MethodDecl.gather.signature
  obsoleteNames := []
  obsoleteMessage := none
  behaviour := .method ⟨MethodDecl.gather.params, none, fun _ => .pure (.ok .empty)⟩

/-- A connection from one gathering node into the first slot of another. -/
def gatherChain : Graph Definition :=
  [.addNode (.action .gather), .addNode (.action .gather), .connect ⟨0, 3⟩ ⟨0, 5⟩].foldl
    Edit.perform (.empty 0 .standard)

theorem reachable_gatherChain : Reachable (fun _ => True) gatherChain :=
  .foldl (fun _ _ _ _ => trivial) (.blank 0 .standard)

theorem consistent_gatherChain : gatherChain.connections = [⟨.value, 3, 5⟩] ∧
    (gatherChain.variadicSlots ⟨2⟩ "items").length = 2 ∧
    Reachable (fun _ => True) gatherChain ∧ gatherChain.Consistent :=
  ⟨by decide, by decide, reachable_gatherChain, reachable_gatherChain.consistent⟩

end EffectGraph
