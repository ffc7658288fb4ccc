import EffectGraph.Proofs.Updates

/-!
# Making and dropping connections

What the checks before a connection establish (`checkConnection_eq_ok`), and that connecting and
disconnecting keep the invariant of edits.
-/

namespace EffectGraph

/-- A chain of steps succeeds exactly if its first step does and the rest succeeds on the outcome.
-/
theorem bind_eq_ok {ε α β : Type} {x : Except ε α} {f : α → Except ε β} {b : β} :
    (x >>= f) = .ok b ↔ ∃ a, x = .ok a ∧ f a = .ok b := by
  cases x with
  | error e => simp [bind, Except.bind]
  | ok a => simp [bind, Except.bind]

variable {κ : Type}

namespace Graph

variable {g : Graph κ}

/-! ## Checks -/

theorem getNode_eq_ok {n : NodeId} {m : Node κ} : g.getNode n = .ok m ↔ g.node? n = some m := by
  unfold getNode
  cases g.node? n <;> simp

theorem getPort_eq_ok {p : PortId} {q : PlacedPort} : g.getPort p = .ok q ↔ g.port? p = some q := by
  unfold getPort
  cases g.port? p <;> simp

theorem getOutput_eq_ok {n : NodeId} {name : String} {p : PortId} :
    g.getOutput n name = .ok p ↔ g.output? n name = some p := by
  unfold getOutput
  cases g.output? n name <;> simp

theorem getInput_eq_ok {n : NodeId} {name : String} {slot : Option Nat} {p : PortId} :
    g.getInput n name slot = .ok p ↔ g.input? n name slot = some p := by
  unfold getInput
  cases g.input? n name slot <;> simp

theorem port?_eq_some_iff {p : PortId} {q : PlacedPort} :
    g.port? p = some q ↔ p.graph = g.id ∧ g.portAt? p.index = some q := by
  simp [port?]

/-- The connection that a joint describes. -/
def Joint.connection (j : Joint) : Connection :=
  ⟨j.kind, j.source.port.index, j.destination.port.index⟩

/-- What an orientation of two ports says of them. -/
theorem orient?_eq_some {p q : PlacedPort} {j : Joint} (h : orient? p q = some j) :
    (j.source = p ∧ j.destination = q ∨ j.source = q ∧ j.destination = p) ∧
      j.source.direction = .output ∧ j.destination.direction = .input ∧
      (j.source.port.decl.isControl = true ↔ j.kind = .control) ∧
      (j.destination.port.decl.isControl = true ↔ j.kind = .control) := by
  obtain ⟨_, pd, pp⟩ := p
  obtain ⟨_, qd, qp⟩ := q
  unfold orient? PlacedPort.role at h
  -- One case for each direction and each role of either port; only four of them join.
  cases pd <;> cases qd <;> cases hpc : pp.decl.isControl <;> cases hqc : qp.decl.isControl <;>
    simp only [hpc, hqc, PortRole.of, Option.some.injEq, reduceCtorEq] at h <;> subst h <;>
    simp [hpc, hqc]

/-- The check of a connection succeeds exactly for two ports of different nodes whose roles join
and, for a value, whose types may be connected. -/
theorem checkConnection_eq_ok [HasSignature κ] {a b : PortId} {j : Joint} :
    g.checkConnection a b = .ok j ↔
      ∃ p q, g.port? a = some p ∧ g.port? b = some q ∧ p.node ≠ q.node ∧ orient? p q = some j ∧
        (j.kind = .value →
          ValueType.feeds g.hook j.source.port.decl.type j.destination.port.decl.type = true) := by
  unfold checkConnection
  simp only [bind_eq_ok, getPort_eq_ok]
  constructor
  · rintro ⟨p, hp, q, hq, h⟩
    refine ⟨p, q, hp, hq, ?_⟩
    split at h
    · simp at h
    next hne =>
      split at h
      · simp at h
      next joint hj =>
        split at h
        · simp at h
        next hfeeds =>
          obtain rfl := Except.ok.inj h
          exact ⟨hne, hj, fun hk => by simpa [hk] using hfeeds⟩
  · rintro ⟨p, q, hp, hq, hne, hj, hfeeds⟩
    refine ⟨p, hp, q, hq, ?_⟩
    rw [if_neg hne]
    simp only [hj]
    rw [if_neg fun hnot => by simp [hfeeds hnot.1] at hnot]

theorem Joins.of_checkConnection [HasSignature κ] {a b : PortId} {j : Joint}
    (h : g.checkConnection a b = .ok j) : g.Joins j.connection j.source j.destination := by
  obtain ⟨p, q, hp, hq, hne, hj, hfeeds⟩ := checkConnection_eq_ok.1 h
  have hpm := (portAt?_mem (port?_eq_some_iff.1 hp).2).1
  have hqm := (portAt?_mem (port?_eq_some_iff.1 hq).2).1
  obtain ⟨hends, hout, hin, hsc, hdc⟩ := orient?_eq_some hj
  rcases hends with ⟨hs, hd⟩ | ⟨hs, hd⟩
  · exact ⟨hs ▸ hpm, hd ▸ hqm, rfl, rfl, hout, hin, hs ▸ hd ▸ hne, hsc, hdc, hfeeds⟩
  · exact ⟨hs ▸ hqm, hd ▸ hpm, rfl, rfl, hout, hin, hs ▸ hd ▸ hne.symm, hsc, hdc, hfeeds⟩

/-! ## Connecting -/

/-- Whether a connection gives way to a new one. -/
def Joint.replaces (j : Joint) (c : Connection) : Bool :=
  match j.kind with
  | .value => c.destination = j.destination.port.index
  | .control => c.source = j.source.port.index

/-- The graph with a new connection in the stead of those that it replaces, before nodes are
reshaped. -/
def linked (g : Graph κ) (j : Joint) : Graph κ :=
  { g.sever j.replaces with
    connections := (g.sever j.replaces).connections ++ [j.connection] }

theorem replaces_of_excludes {j : Joint} {c : Connection} (h : c.Excludes j.connection) :
    j.replaces c = true := by
  obtain ⟨hkind, ⟨hk, hd⟩ | ⟨hk, hs⟩⟩ := h
  · have : j.kind = .value := hkind.symm.trans hk
    simp only [Joint.replaces, this, decide_eq_true_eq]
    exact hd
  · have : j.kind = .control := hkind.symm.trans hk
    simp only [Joint.replaces, this, decide_eq_true_eq]
    exact hs

theorem WellFormed.linked (hg : g.WellFormed) {j : Joint}
    (hj : g.Joins j.connection j.source j.destination) : (g.linked j).WellFormed := by
  have hrest := hg.sever j.replaces
  refine ⟨hg.ascending, hg.distinct, hg.used, fun c hc => ?_, ?_⟩
  · rcases List.mem_append.1 hc with hc | hc
    · obtain ⟨s, d, hcj⟩ := hrest.joined c hc
      exact ⟨s, d, { hcj with }⟩
    · obtain rfl := List.mem_singleton.1 hc
      exact ⟨j.source, j.destination, { hj with }⟩
  · refine List.pairwise_append.2 ⟨hrest.single, List.pairwise_singleton _ _, ?_⟩
    intro c hc d hd hex
    obtain rfl := List.mem_singleton.1 hd
    have hkept := (List.mem_filter.1 hc).2
    rw [replaces_of_excludes hex] at hkept
    exact Bool.noConfusion hkept

variable [HasSignature κ] {stale : List NodeId}

/-- A connection that is there already is not made again; any other is made, and the nodes that it
may resize are reshaped. -/
theorem join_eq (g : Graph κ) (j : Joint) :
    g.join j = g ∧ (∃ c ∈ g.connections, c.source = j.source.port.index ∧
        c.destination = j.destination.port.index) ∨
      (∀ c ∈ g.connections, ¬(c.source = j.source.port.index ∧
        c.destination = j.destination.port.index)) ∧
      g.join j = (g.linked j).refresh (g.severed j.replaces ++
        match j.kind with | .value => [j.destination.node] | .control => []) := by
  by_cases hc : ∃ c ∈ g.connections, c.source = j.source.port.index ∧
      c.destination = j.destination.port.index
  · have hany : (g.connections.any fun c =>
        c.source = j.source.port.index && c.destination = j.destination.port.index) = true := by
      simpa using hc
    exact .inl ⟨by simp only [join, hany, if_true], hc⟩
  · have hany : (g.connections.any fun c =>
        c.source = j.source.port.index && c.destination = j.destination.port.index) = false := by
      simpa using hc
    refine .inr ⟨fun c hcm hcj => hc ⟨c, hcm, hcj⟩, ?_⟩
    -- `replaces` as a function with its cases inside, as the definition of `join` has it.
    have hreplaces : j.replaces = fun c => match j.kind with
        | .value => decide (c.destination = j.destination.port.index)
        | .control => decide (c.source = j.source.port.index) := rfl
    simp only [join, hany, Bool.false_eq_true, if_false, linked, Joint.connection]
    cases hk : j.kind <;> simp only [hreplaces, hk, List.append_nil]

theorem Valid.linked (h : g.Valid stale) {j : Joint}
    (hj : g.Joins j.connection j.source j.destination) : (g.linked j).Valid stale :=
  h.of_nodes (h.wellFormed.linked hj) rfl rfl

theorem Valid.join (h : g.Valid stale) {j : Joint}
    (hj : g.Joins j.connection j.source j.destination) : (g.join j).Valid stale := by
  rcases join_eq g j with ⟨he, -⟩ | ⟨-, he⟩
  · rw [he]
    exact h
  · rw [he]
    exact (h.linked hj).refresh _

theorem connect_eq_ok {a b : PortId} {g' : Graph κ} :
    g.connect a b = .ok g' ↔ ∃ j, g.checkConnection a b = .ok j ∧ g.join j = g' := by
  simp [connect, bind_eq_ok]

theorem Valid.connect (h : g.Valid stale) {a b : PortId} {g' : Graph κ}
    (hc : g.connect a b = .ok g') : g'.Valid stale := by
  obtain ⟨j, hj, rfl⟩ := connect_eq_ok.1 hc
  exact h.join (.of_checkConnection hj)

theorem wire_eq_ok {source destination : NodeId} {output input : String} {g' : Graph κ} :
    g.wire source output destination input = .ok g' ↔
      ∃ a b, g.output? source output = some a ∧ g.input? destination input none = some b ∧
        g.connect a b = .ok g' := by
  simp only [wire, bind_eq_ok, getOutput_eq_ok, getInput_eq_ok]
  constructor
  · rintro ⟨a, ha, b, hb, h⟩
    exact ⟨a, b, ha, hb, h⟩
  · rintro ⟨a, b, ha, hb, h⟩
    exact ⟨a, ha, b, hb, h⟩

theorem Valid.wire (h : g.Valid stale) {source destination : NodeId} {output input : String}
    {g' : Graph κ} (hw : g.wire source output destination input = .ok g') : g'.Valid stale := by
  obtain ⟨a, b, -, -, hc⟩ := wire_eq_ok.1 hw
  exact h.connect hc

/-! ## Disconnecting -/

theorem Valid.cut (h : g.Valid stale) (p : Connection → Bool) (except : List NodeId) :
    (g.cut p except).1.Valid stale := (h.sever p).refresh _

/-- The test for connections between two ports given in either order. -/
def between (a b : PortId) (c : Connection) : Bool :=
  (c.source = a.index && c.destination = b.index) || (c.source = b.index && c.destination = a.index)

/-- The test for connections of a node. -/
def touchesNode (m : Node κ) (c : Connection) : Bool := m.ports.any fun p => c.touches p.index

theorem disconnect_eq_ok {a b : PortId} {r : Graph κ × Bool} :
    g.disconnect a b = .ok r ↔ (∃ p q, g.port? a = some p ∧ g.port? b = some q) ∧
      r = ((g.cut (between a b) []).1, decide ((g.cut (between a b) []).2 ≠ 0)) := by
  simp only [disconnect, bind_eq_ok, getPort_eq_ok, Except.ok.injEq]
  constructor
  · rintro ⟨p, hp, q, hq, rfl⟩
    exact ⟨⟨p, q, hp, hq⟩, rfl⟩
  · rintro ⟨⟨p, q, hp, hq⟩, rfl⟩
    exact ⟨p, hp, q, hq, rfl⟩

theorem isolatePort_eq_ok {p : PortId} {r : Graph κ × Nat} :
    g.isolatePort p = .ok r ↔ (∃ q, g.port? p = some q) ∧ r = g.cut (·.touches p.index) [] := by
  simp only [isolatePort, bind_eq_ok, getPort_eq_ok, Except.ok.injEq]
  exact ⟨fun ⟨q, hq, h⟩ => ⟨⟨q, hq⟩, h.symm⟩, fun ⟨⟨q, hq⟩, h⟩ => ⟨q, hq, h.symm⟩⟩

theorem isolateNode_eq_ok {n : NodeId} {r : Graph κ × Nat} :
    g.isolateNode n = .ok r ↔ ∃ m, g.node? n = some m ∧ r = g.cut (touchesNode m) [n] := by
  simp only [isolateNode, bind_eq_ok, getNode_eq_ok, Except.ok.injEq]
  exact ⟨fun ⟨m, hm, h⟩ => ⟨m, hm, h.symm⟩, fun ⟨m, hm, h⟩ => ⟨m, hm, h.symm⟩⟩

end Graph

end EffectGraph
