import EffectGraph.Proofs.Filling
import EffectGraph.Proofs.Lookups

/-!
# How a run fails

A step that fails either raises the error itself or has it from a nested step, whose log and host
state it leaves as they are (`Setting.Fails`). In a valid graph the reads of inputs raise none, nor
do the pseudo-nodes: a value input fails as the action node does that it is connected to
(`fails_of_input`), and a run along control fails as one of the action nodes on its way
(`fails_of_follow`).
-/

namespace EffectGraph

open EffectGraph.Graph

variable {σ α β : Type}

/-! ## Steps that fail -/

namespace Exec

variable {m m' : Machine σ} {e : FlowError}

theorem bind_eq_error {x : Exec σ α} {f : α → Exec σ β} :
    (x >>= f) m = some (.error e, m') ↔ x m = some (.error e, m') ∨
      ∃ a m₁, x m = some (.ok a, m₁) ∧ f a m₁ = some (.error e, m') := by
  show Exec.bind x f m = _ ↔ _
  unfold Exec.bind
  split
  next h => simp [h]
  next h => simp [h]
  next a m₁ h => simp [h]

/-- One step after another fails with the first, or ends as the second does. -/
theorem bind_eq_some {x : Exec σ α} {f : α → Exec σ β} {r : Except FlowError β}
    (h : (x >>= f) m = some (r, m')) :
    (∃ e, r = .error e ∧ x m = some (.error e, m')) ∨
      ∃ a m₁, x m = some (.ok a, m₁) ∧ f a m₁ = some (r, m') := by
  cases r with
  | error e => exact (bind_eq_error.1 h).imp_left fun hx => ⟨e, rfl, hx⟩
  | ok b => exact .inr (bind_eq_ok.1 h)

/-- Where a step after another ends, so does the other. -/
theorem exists_of_bind {x : Exec σ α} {f : α → Exec σ β} {r : Except FlowError β × Machine σ}
    (h : (x >>= f) m = some r) : ∃ r', x m = some r' := by
  rcases bind_eq_some h with ⟨_, -, h⟩ | ⟨_, _, h, -⟩ <;> exact ⟨_, h⟩

theorem pure_ne_error {a : α} : (Pure.pure a : Exec σ α) m ≠ some (.error e, m') := by
  show some (Except.ok a, m) ≠ _
  simp

theorem ofGraph_eq_error {r : Except GraphError α} :
    ofGraph r m = some (.error e, m') ↔ ∃ cause, r = .error cause ∧ .graph cause = e ∧ m = m' := by
  cases r <;> simp [ofGraph, ofExcept, Except.mapError]

theorem within_eq_error {memory : Memory} {x : Exec σ α} :
    within memory x m = some (.error e, m') ↔
      ∃ m₁, x { m with memory := memory } = some (.error e, m₁) ∧
        { m₁ with memory := m.memory } = m' := by
  unfold within
  split
  next h => simp [h]
  next e' m₁ h => simp [h, and_assoc]
  next h => simp [h]

/-! A step that is known to succeed is passed over. -/

theorem bind_of_eq_ok {x : Exec σ α} {f : α → Exec σ β} {a : α} {m₁ : Machine σ}
    (h : x m = some (.ok a, m₁)) : (x >>= f) m = f a m₁ := by
  show Exec.bind x f m = _
  rw [Exec.bind, h]

theorem peek_bind {p : PortId} {f : Option Value → Exec σ β} :
    (peek p >>= f) m = f (m.memory.scopes.find? p) m := rfl

theorem inspect_bind {f : Memory → α} {g : α → Exec σ β} :
    (inspect f >>= g) m = g (f m.memory) m := rfl

theorem ofGraph_ok_bind {a : α} {f : α → Exec σ β} : (ofGraph (.ok a) >>= f) m = f a m := rfl

end Exec

/-- A task of a flow fails in some machine with an allowance below a given one, and leaves the log
and the state of the host that a given machine has. -/
def Setting.Fails (s : Setting) (host : Host σ) (k : Nat) (t : Task) (e : FlowError)
    (m' : Machine σ) : Prop :=
  ∃ j < k, ∃ m m₁, exec host j s t m = some (.error e, m₁) ∧ m₁.log = m'.log ∧ m₁.host = m'.host

/-- The read of a value output of an action node fails that an input is connected to. -/
def Setting.FailsBefore (s : Setting) (host : Host σ) (k : Nat) (p : PortId) (n : Node Definition)
    (e : FlowError) (m' : Machine σ) : Prop :=
  n ∈ s.graph.nodes ∧ (∃ d, n.kind = .action d) ∧ ∃ q ∈ n.outputs, q.decl.isControl = false ∧
    s.graph.valueSource? p = some (s.graph.portId q.index) ∧
    s.Fails host k (.read (s.graph.portId q.index)) e m'

namespace Setting

variable {s : Setting} {host : Host σ} {j k : Nat} {t : Task} {p : PortId} {n : Node Definition}
  {e : FlowError} {m m' : Machine σ}

theorem Fails.imp (h : s.Fails host j t e m) (hk : j ≤ k) (hlog : m.log = m'.log)
    (hhost : m.host = m'.host) : s.Fails host k t e m' := by
  obtain ⟨i, hi, m₀, m₁, hrun, hlog₁, hhost₁⟩ := h
  exact ⟨i, hi.trans_le hk, m₀, m₁, hrun, hlog₁.trans hlog, hhost₁.trans hhost⟩

theorem FailsBefore.imp (h : s.FailsBefore host j p n e m) (hk : j ≤ k) (hlog : m.log = m'.log)
    (hhost : m.host = m'.host) : s.FailsBefore host k p n e m' := by
  obtain ⟨hn, hkind, q, hq, hvalue, hsource, hfails⟩ := h
  exact ⟨hn, hkind, q, hq, hvalue, hsource, hfails.imp hk hlog hhost⟩

end Setting

namespace Engine

variable {engine : Engine σ} {s : Setting} {host : Host σ} {e : FlowError} {m m' : Machine σ}
  {p : PortId} {port : PlacedPort}

/-! ## Single steps -/

/-- A read of a value input fails only if the read of the output does that it is connected to. -/
theorem read_input_eq_error (hport : s.graph.port? p = some port) (hrole : port.role = .valueInput)
    (h : engine.read s p m = some (.error e, m')) :
    ∃ x, s.graph.valueSource? p = some x ∧ engine s (.read x) m = some (.error e, m') := by
  rw [read, Exec.peek_bind] at h
  cases hfound : m.memory.scopes.find? p with
  | some v =>
    rw [hfound] at h
    exact absurd h Exec.pure_ne_error
  | none =>
    simp only [hfound, getPort_eq_ok.2 hport, Exec.ofGraph_ok_bind, hrole] at h
    cases hsource : s.graph.valueSource? p with
    | none =>
      rw [hsource] at h
      exact absurd h Exec.pure_ne_error
    | some x =>
      rw [hsource] at h
      rcases Exec.bind_eq_error.1 h with h | ⟨v, m₁, -, h⟩
      · exact ⟨x, rfl, h⟩
      · exact absurd h Exec.pure_ne_error

/-- A read of a value input that is not memoized has the value of the output that it is connected
to, or the default. -/
theorem read_input_eq_ok {v : Value} (hport : s.graph.port? p = some port)
    (hrole : port.role = .valueInput) (hmemo : m.memory.scopes.find? p = none)
    (h : engine.read s p m = some (.ok v, m')) :
    (∃ x w, s.graph.valueSource? p = some x ∧ engine s (.read x) m = some (.ok w, m') ∧
      s.coerce port w = v) ∨
    s.graph.valueSource? p = none ∧ s.coerce port (s.unconnected port) = v ∧ m = m' := by
  simp only [read, Exec.peek_bind, hmemo, getPort_eq_ok.2 hport, Exec.ofGraph_ok_bind, hrole] at h
  cases hsource : s.graph.valueSource? p with
  | none =>
    rw [hsource] at h
    obtain ⟨hv, hm⟩ := Exec.pure_eq_ok.1 h
    exact .inr ⟨rfl, hv, hm⟩
  | some x =>
    rw [hsource] at h
    obtain ⟨w, m₁, hread, h⟩ := Exec.bind_eq_ok.1 h
    obtain ⟨hv, rfl⟩ := Exec.pure_eq_ok.1 h
    exact .inl ⟨x, w, rfl, hread, hv⟩

/-- A value output that has been read is memoized. -/
theorem read_output_eq_ok {v : Value} (hport : s.graph.port? p = some port)
    (hrole : port.role = .valueOutput) (h : engine.read s p m = some (.ok v, m')) :
    m'.memory.scopes.find? p = some v := by
  rw [read, Exec.peek_bind] at h
  cases hfound : m.memory.scopes.find? p with
  | some w =>
    rw [hfound] at h
    obtain ⟨rfl, rfl⟩ := Exec.pure_eq_ok.1 h
    exact hfound
  | none =>
    simp only [hfound, getPort_eq_ok.2 hport, Exec.ofGraph_ok_bind, hrole, Exec.inspect_bind] at h
    split at h
    · simp [Exec.fail] at h
    · obtain ⟨exit, m₁, -, h⟩ := Exec.bind_eq_ok.1 h
      rw [Exec.peek_bind] at h
      cases hfound₁ : m₁.memory.scopes.find? p with
      | some w =>
        rw [hfound₁] at h
        obtain ⟨rfl, rfl⟩ := Exec.pure_eq_ok.1 h
        exact hfound₁
      | none =>
        rw [hfound₁] at h
        obtain ⟨_, _, -, h⟩ := Exec.bind_eq_ok.1 h
        simp [Exec.fail] at h

/-- A read of a value output fails because its node is running, or because it fails when it is run,
or because it does not write the output. -/
theorem read_output_eq_error (hport : s.graph.port? p = some port)
    (hrole : port.role = .valueOutput) (h : engine.read s p m = some (.error e, m')) :
    e = .cycle port.node ∨ engine s (.invoke port.node) m = some (.error e, m') ∨
      ∃ exit m₁, engine s (.invoke port.node) m = some (.ok exit, m₁) ∧
        m₁.memory.scopes.find? p = none := by
  rw [read, Exec.peek_bind] at h
  cases hfound : m.memory.scopes.find? p with
  | some v =>
    rw [hfound] at h
    exact absurd h Exec.pure_ne_error
  | none =>
    simp only [hfound, getPort_eq_ok.2 hport, Exec.ofGraph_ok_bind, hrole, Exec.inspect_bind] at h
    split at h
    · exact .inl (Except.error.inj (Prod.mk.inj (Option.some.inj h)).1).symm
    · rcases Exec.bind_eq_error.1 h with h | ⟨exit, m₁, hrun, h⟩
      · exact .inr (.inl h)
      · refine .inr (.inr ⟨exit, m₁, hrun, ?_⟩)
        rw [Exec.peek_bind] at h
        cases hfound₁ : m₁.memory.scopes.find? p with
        | none => rfl
        | some v =>
          rw [hfound₁] at h
          exact absurd h Exec.pure_ne_error

/-! ## Pseudo-nodes -/

/-- Populating Entry succeeds, and every value output that it is given has a value then. -/
theorem populateEntry_succeeds (ps : List Port) (m : Machine σ) :
    ∃ scopes, populateEntry s ps m = some (.ok (), ⟨⟨scopes, m.memory.running⟩, m.log, m.host⟩) ∧
      (∀ x, (m.memory.scopes.find? x).isSome = true → (scopes.find? x).isSome = true) ∧
      ∀ p ∈ ps, p.decl.isControl = false →
        (scopes.find? (s.graph.portId p.index)).isSome = true := by
  induction ps generalizing m with
  | nil => exact ⟨m.memory.scopes, rfl, fun _ h => h, by simp⟩
  | cons p ps ih =>
    rw [populateEntry, Exec.peek_bind]
    split
    · obtain ⟨scopes, hrun, hkept, hrest⟩ := ih ⟨⟨m.memory.scopes.set (s.graph.portId p.index)
        p.decl.type.default, m.memory.running⟩, m.log, m.host⟩
      refine ⟨scopes, hrun, fun x hx => hkept x (Scopes.isSome_find?_set hx _ _),
        List.forall_mem_cons.2 ⟨fun _ => hkept _ ?_, hrest⟩⟩
      simp [Scopes.find?_set]
    next hset =>
      obtain ⟨scopes, hrun, hkept, hrest⟩ := ih m
      refine ⟨scopes, hrun, hkept, List.forall_mem_cons.2 ⟨fun hvalue => hkept _ ?_, hrest⟩⟩
      cases hfound : m.memory.scopes.find? (s.graph.portId p.index) with
      | some v => rfl
      | none => exact absurd ⟨by rw [hfound]; rfl, hvalue⟩ hset

/-- What a node does when it is run. -/
def behave (engine : Engine σ) (s : Setting) (host : Host σ) (n : NodeId) (node : Node Definition) :
    Exec σ (Option PortId) :=
  match node.kind with
  | .entry => do
    populateEntry s node.outputs
    return s.graph.output? n exitName
  | .result => return none
  | .action d =>
    match d.behaviour with
    | .method b => engine.invokeMethod s host node d.name b
    | .generated inner => engine.invokeGenerated s node d inner

theorem invoke_eq {n : NodeId} {node : Node Definition} (hn : s.graph.node? n = some node) :
    engine.invoke s host n m =
      (engine.behave s host n node (m.entering n node.kind.name)).map fun r =>
        (r.1, ⟨⟨r.2.memory.scopes, r.2.memory.running.tail⟩, r.2.log, r.2.host⟩) := by
  simp only [invoke, getNode_eq_ok.2 hn, Exec.ofGraph_ok_bind]
  exact Exec.running_eq

/-- An invocation ends as what nodes of the kind do ends. -/
theorem invoke_eq_some {n : NodeId} {node : Node Definition} (hn : s.graph.node? n = some node)
    {r : Except FlowError (Option PortId)} (h : engine.invoke s host n m = some (r, m')) :
    ∃ m₁, engine.behave s host n node (m.entering n node.kind.name) = some (r, m₁) ∧
      ⟨⟨m₁.memory.scopes, m₁.memory.running.tail⟩, m₁.log, m₁.host⟩ = m' := by
  rw [invoke_eq hn] at h
  obtain ⟨⟨r', m₁⟩, hbehave, hr⟩ := Option.map_eq_some_iff.1 h
  obtain ⟨rfl, rfl⟩ := Prod.mk.inj hr
  exact ⟨m₁, hbehave, rfl⟩

theorem invoke_entry (engine : Engine σ) (host : Host σ) {n : NodeId} {node : Node Definition}
    (hn : s.graph.node? n = some node) (hkind : node.kind = .entry) (m : Machine σ) :
    ∃ exit m', engine.invoke s host n m = some (.ok exit, m') ∧
      s.graph.Filled n m'.memory.scopes := by
  obtain ⟨scopes, hrun, -, hfilled⟩ :=
    populateEntry_succeeds (s := s) node.outputs (m.entering n node.kind.name)
  have hbehave : engine.behave s host n node (m.entering n node.kind.name) =
      some (.ok (s.graph.output? n exitName), ⟨⟨scopes, n :: m.memory.running⟩,
        .nodeInvoked n node.kind.name :: m.log, m.host⟩) := by
    simp only [behave, hkind]
    exact Exec.bind_eq_ok.2 ⟨(), _, hkind ▸ hrun, rfl⟩
  rw [invoke_eq hn, hbehave]
  refine ⟨_, _, rfl, fun node' hnode' p hp hvalue => ?_⟩
  obtain rfl := Option.some.inj (hn.symm.trans hnode')
  exact hfilled p hp hvalue

theorem invoke_result (engine : Engine σ) (host : Host σ) {n : NodeId} {node : Node Definition}
    (hn : s.graph.node? n = some node) (hkind : node.kind = .result) (m : Machine σ) :
    ∃ exit m', engine.invoke s host n m = some (.ok exit, m') := by
  rw [invoke_eq hn, behave]
  simp only [hkind]
  exact ⟨none, _, rfl⟩

/-- An invocation that fails is one of an action node, and fails as the node's behaviour does. -/
theorem invoke_eq_error {n : NodeId} {node : Node Definition} (hn : s.graph.node? n = some node)
    (h : engine.invoke s host n m = some (.error e, m')) :
    ∃ d m₁, node.kind = .action d ∧
      engine.behave s host n node (m.entering n node.kind.name) = some (.error e, m₁) ∧
      ⟨⟨m₁.memory.scopes, m₁.memory.running.tail⟩, m₁.log, m₁.host⟩ = m' := by
  cases hkind : node.kind with
  | entry =>
    obtain ⟨exit, m₁, hok, -⟩ := invoke_entry engine host hn hkind m
    simp [h] at hok
  | result =>
    obtain ⟨exit, m₁, hok⟩ := invoke_result engine host hn hkind m
    simp [h] at hok
  | action d =>
    obtain ⟨m₁, hbehave, rfl⟩ := invoke_eq_some hn h
    exact ⟨d, m₁, rfl, hkind ▸ hbehave, rfl⟩

/-! ## Outputs -/

/-- A declared output of an action node can be published. -/
theorem publish_succeeds (hg : s.graph.Valid []) {node : Node Definition}
    (hnode : node ∈ s.graph.nodes) {d : Definition} (hkind : node.kind = .action d) {c : PortDecl}
    (hc : c ∈ d.signature.outputs) (v : Value) (m : Machine σ) :
    ∃ m', publish s node.id c.name v m = some (.ok (), m') := by
  obtain ⟨p, port, hp, hport⟩ := hg.exists_output hnode hkind hc
  exact ⟨_, publish_eq_ok.2 ⟨p, port, hp, hport, rfl⟩⟩

end Engine

/-! ## Runs that fail -/

section Runs

variable {s : Setting} {host : Host σ} {e : FlowError} {k : Nat} {m m' : Machine σ} {p : PortId}
  {port : PlacedPort}

/-- A task that comes to an end has been carried out with a smaller allowance. -/
theorem exec_eq_some {t : Task} {r : Except FlowError t.Result × Machine σ}
    (h : exec host k s t m = some r) :
    ∃ j, k = j + 1 ∧ Engine.step (exec host j) host s t m = some r := by
  cases k with
  | zero => exact nomatch h
  | succ j => exact ⟨j, rfl, h⟩

theorem Graph.port?_eq_some_iff_mem {g : Graph Definition} (hg : g.WellFormed) :
    g.port? p = some port ↔ port ∈ g.allPorts ∧ g.portId port.port.index = p := by
  constructor
  · intro h
    obtain ⟨hid, hat⟩ := port?_eq_some_iff.1 h
    obtain ⟨hmem, hindex⟩ := portAt?_mem hat
    exact ⟨hmem, by rw [portId, hindex, ← hid]⟩
  · rintro ⟨hmem, rfl⟩
    exact hg.port?_portId hmem

/-- A value input is connected to a value output. -/
theorem Graph.Valid.source_of_input {g : Graph Definition} (hg : g.Valid [])
    (hport : g.port? p = some port) (hrole : port.role = .valueInput) {x : PortId}
    (hx : g.valueSource? p = some x) :
    ∃ n ∈ g.nodes, ∃ q ∈ n.outputs, q.decl.isControl = false ∧ x = g.portId q.index := by
  obtain ⟨hmem, rfl⟩ := (port?_eq_some_iff_mem hg.wellFormed).1 hport
  obtain ⟨c, hc, d, hj, rfl⟩ := (hg.wellFormed.valueSource?_eq_some hmem hrole).1 hx
  obtain ⟨n, hn, -, hq⟩ := exists_of_output hj.source_mem hj.source_output
  have hvalue := ((PlacedPort.role_eq_iff .output false).1 (hj.role_source hrole)).2
  exact ⟨n, hn, d.port, hq, hvalue, rfl⟩

/-- Control leads to ports of the graph. -/
theorem Graph.WellFormed.port?_nextControl? {g : Graph Definition} (hg : g.WellFormed) {x : PortId}
    (hx : g.nextControl? p = some x) : ∃ q, g.port? x = some q := by
  simp only [nextControl?] at hx
  split at hx
  · obtain ⟨c, hc, rfl⟩ := Option.map_eq_some_iff.1 hx
    obtain ⟨a, b, hj⟩ := hg.joined c (List.mem_of_find?_eq_some hc)
    exact ⟨b, hj.destination_index ▸ hg.port?_portId hj.destination_mem⟩
  · simp at hx

/-- A read of a value output of a node other than Return fails for a cycle or because the node is an
action node. -/
theorem Setting.fails_of_output (hg : s.graph.Valid []) {n : Node Definition}
    (hn : n ∈ s.graph.nodes) {q : Port} (hq : q ∈ n.outputs) (hvalue : q.decl.isControl = false)
    (h : exec host k s (.read (s.graph.portId q.index)) m = some (.error e, m')) :
    e = .cycle n.id ∨ ∃ d, n.kind = .action d := by
  have hport := hg.wellFormed.port?_portId (output_mem_allPorts hn hq)
  have hnode := node?_of_mem hg.ascending hn
  cases hkind : n.kind with
  | action d => exact .inr ⟨d, rfl⟩
  | result =>
    have hnone := (hg.shaped n hn List.not_mem_nil).outputs
    simp only [wantedOutputs, hkind, List.map_eq_nil_iff] at hnone
    exact absurd (hnone ▸ hq) List.not_mem_nil
  | entry =>
    obtain ⟨j, -, h⟩ := exec_eq_some h
    have hrole := (PlacedPort.role_eq_iff (p := ⟨n.id, .output, q⟩) .output false).2 ⟨rfl, hvalue⟩
    rcases Engine.read_output_eq_error hport hrole h with rfl | h | ⟨exit, m₁, hok, hnone⟩
    · exact .inl rfl
    · obtain ⟨i, -, h⟩ := exec_eq_some h
      obtain ⟨_, _, hok, -⟩ := Engine.invoke_entry (exec host i) host hnode hkind m
      exact absurd (h.symm.trans hok) (by simp)
    -- Entry gives every value output a value.
    · obtain ⟨i, -, hok⟩ := exec_eq_some hok
      obtain ⟨_, m₂, hok', hfilled⟩ :=
        Engine.invoke_entry (exec host i) host hnode hkind m
      obtain ⟨-, rfl⟩ := Prod.mk.inj (Option.some.inj (hok.symm.trans hok'))
      have := hfilled n hnode q hq hvalue
      simp [hnone] at this

/-- A read of a value input fails for a cycle, or as the action node does that it is connected to.
-/
theorem Setting.fails_of_input (hg : s.graph.Valid []) (hport : s.graph.port? p = some port)
    (hrole : port.role = .valueInput)
    (h : exec host k s (.read p) m = some (.error e, m')) :
    (∃ n, e = .cycle n) ∨ ∃ n, s.FailsBefore host k p n e m' := by
  obtain ⟨j, rfl, h⟩ := exec_eq_some h
  obtain ⟨x, hx, h⟩ := Engine.read_input_eq_error hport hrole h
  obtain ⟨n, hn, q, hq, hvalue, rfl⟩ := hg.source_of_input hport hrole hx
  rcases Setting.fails_of_output hg hn hq hvalue h with rfl | hkind
  · exact .inl ⟨_, rfl⟩
  · exact .inr ⟨n, hn, hkind, q, hq, hvalue, hx, j, j.lt_succ_self, m, m', h, rfl, rfl⟩

/-- A run along control fails as the invocation of an action node does. -/
theorem Setting.fails_of_follow (hg : s.graph.Valid []) (hport : s.graph.port? p = some port)
    (h : exec host k s (.follow p) m = some (.error e, m')) :
    ∃ n ∈ s.graph.nodes, ∃ d, n.kind = .action d ∧ s.Fails host k (.invoke n.id) e m' := by
  induction k generalizing p port m with
  | zero => exact nomatch h
  | succ k ih =>
    change Engine.follow (exec host k) s p m = _ at h
    simp only [Engine.follow, getPort_eq_ok.2 hport, Exec.ofGraph_ok_bind] at h
    obtain ⟨hmem, -⟩ := (port?_eq_some_iff_mem hg.wellFormed).1 hport
    obtain ⟨n, hn, hplace⟩ := mem_allPorts.1 hmem
    have hid : port.node = n.id := (mem_placedPorts.1 hplace).1
    rw [hid] at h
    rcases Exec.bind_eq_error.1 h with h | ⟨exit, m₁, -, h⟩
    · obtain ⟨j, -, hinvoke⟩ := exec_eq_some h
      obtain ⟨d, m₁, hkind, -⟩ := Engine.invoke_eq_error (node?_of_mem hg.ascending hn) hinvoke
      exact ⟨n, hn, d, hkind, k, k.lt_succ_self, m, m', h, rfl, rfl⟩
    · cases hnext : exit.bind s.graph.nextControl? with
      | none =>
        rw [hnext] at h
        exact absurd h Exec.pure_ne_error
      | some x =>
        rw [hnext] at h
        obtain ⟨exit, -, hx⟩ := Option.bind_eq_some_iff.1 hnext
        obtain ⟨q, hq⟩ := hg.wellFormed.port?_nextControl? hx
        obtain ⟨n, hn, d, hkind, hfails⟩ := ih hq h
        exact ⟨n, hn, d, hkind, hfails.imp k.le_succ rfl rfl⟩

end Runs

end EffectGraph
