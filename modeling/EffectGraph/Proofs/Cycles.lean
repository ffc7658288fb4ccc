import EffectGraph.Proofs.Attribution
import EffectGraph.Proofs.Dependencies

/-!
# Cycles of values are detected

A read runs the node that a value is to be had from, which reads its inputs before it does anything
else, and so on. The nodes being run are those on the way from the first one, each of which depends
on the next, so that a node that is asked for again while it is being run lies on a cycle
(`settles_invoke`). Each invocation on the way leaves fewer nodes that are not being run, so that
the way comes to an end. And what is memoized is never to be had from a cycle
(`discipline_grounded`). The results are put together in `cycles_detected`.
-/

namespace EffectGraph

open EffectGraph.Graph Relation

variable {σ α β : Type}

/-! ## Steps that report cycles -/

/-- A step that comes to an end while some nodes are being run, leaves them noted, and reports none
but certain cycles. -/
def Settles (running : List NodeId) (Q : NodeId → Prop) (x : Exec σ α) : Prop :=
  ∀ m, m.memory.running = running → ∃ r m', x m = some (r, m') ∧ m'.memory.running = running ∧
    ∀ n, r = .error (.cycle n) → Q n

namespace Settles

variable {running : List NodeId} {Q Q' : NodeId → Prop} {x : Exec σ α} {f : α → Exec σ β}

theorem mono (h : Settles running Q x) (hQ : ∀ n, Q n → Q' n) : Settles running Q' x := by
  intro m hm
  obtain ⟨r, m', hx, hm', hr⟩ := h m hm
  exact ⟨r, m', hx, hm', fun n hn => hQ n (hr n hn)⟩

theorem fail {e : FlowError} (h : ∀ n, e = .cycle n → Q n) :
    Settles (σ := σ) (α := α) running Q (.fail e) := fun m hm =>
  ⟨.error e, m, rfl, hm, fun n hn => h n (Except.error.inj hn)⟩

theorem pure (a : α) : Settles (σ := σ) running Q (Pure.pure a) := fun m hm =>
  ⟨.ok a, m, rfl, hm, nofun⟩

theorem emit (e : Event) : Settles (σ := σ) running Q (.emit e) := fun m hm =>
  ⟨.ok (), { m with log := e :: m.log }, rfl, hm, nofun⟩

theorem memoize (p : PortId) (v : Value) : Settles (σ := σ) running Q (.memoize p v) := fun m hm =>
  ⟨.ok (), { m with memory := { m.memory with scopes := m.memory.scopes.set p v } }, rfl, hm, nofun⟩

theorem bind (hx : Settles running Q x) (hf : ∀ a, Settles running Q (f a)) :
    Settles running Q (x >>= f) := by
  intro m hm
  obtain ⟨r, m₁, hrun, hm₁, hr⟩ := hx m hm
  cases r with
  | error e =>
    exact ⟨.error e, m₁, Exec.bind_eq_error.2 (.inl hrun), hm₁,
      fun n hn => hr n (congrArg _ (Except.error.inj hn))⟩
  | ok a =>
    obtain ⟨r, m₂, hnext, hm₂, hr⟩ := hf a m₁ hm₁
    exact ⟨r, m₂, (Exec.bind_of_eq_ok hrun).trans hnext, hm₂, hr⟩

theorem closed : Exec.Closed fun x : Exec σ _ => Settles running Q x where
  pure := pure
  ofGraph r := by
    cases r with
    | error e => exact fail nofun
    | ok a => exact pure a
  bind := bind

theorem inspect_bind {g : Memory → α}
    (h : ∀ mem, mem.running = running → Settles running Q (f (g mem))) :
    Settles running Q (Exec.inspect g >>= f) := fun m hm => h m.memory hm m hm

theorem entering {n : NodeId} {define : String} (h : Settles (n :: running) Q x) :
    Settles running Q (Exec.entering n define x) := by
  intro m hm
  obtain ⟨r, m', hx, hm', hr⟩ := h (m.entering n define) (congrArg (n :: ·) hm)
  refine ⟨r, ⟨⟨m'.memory.scopes, m'.memory.running.tail⟩, m'.log, m'.host⟩, ?_,
    congrArg List.tail hm', hr⟩
  rw [Exec.entering_eq, hx]
  rfl

/-- A candid body that ends well or raises an error of its own. -/
theorem runProgram_bind {engine : Engine σ} {s : Setting} {host : Host σ}
    {y : Program (Except BodyError Outcome)} (hy : y.Candid)
    {f : Except BodyError Outcome → Exec σ β} (hok : ∀ o, Settles running Q (f (.ok o)))
    (herror : ∀ e, Settles running Q (f (.error (.action e)))) :
    Settles running Q (engine.runProgram s host y >>= f) := by
  induction hy with
  | ok o => exact hok o
  | error e => exact herror e
  | @log n message next _ ih => exact fun m hm => ih { m with log := .logged n message :: m.log } hm

theorem blame {s : Setting} {n : NodeId} {define : String} (e : ActionError) :
    Settles (σ := σ) (α := α) running Q (Engine.blame s n define (.action e)) := by
  simp only [Engine.blame]
  split
  · exact bind (emit _) fun _ => fail (by simp)
  · exact fail (by simp)

end Settles

/-! ## Reads and invocations -/

/-- Of a standard kind the declared inputs are parameters, and the body is candid. -/
theorem Definition.Standard.exists_method {d : Definition} (h : d.Standard) :
    ∃ b, d.behaviour = .method b ∧ (∀ c, (b.body c).Candid) ∧
      ∀ c ∈ d.signature.inputs, .input c ∈ b.params := by
  have hopen := h.candid.isOpen
  obtain ⟨m, -, hm⟩ := h
  obtain ⟨body, -, -, rfl⟩ := define_eq_ok.1 hm
  refine ⟨_, rfl, hopen.method _ rfl, fun c hc => ?_⟩
  obtain ⟨p, hp, hpc⟩ := List.mem_filterMap.1 hc
  cases p <;> simp_all [MethodParam.input?]

namespace Engine

variable {engine : Engine σ} {s : Setting} {host : Host σ} {running : List NodeId}
  {Q : NodeId → Prop}

theorem settles_read {p : PortId}
    (hinput : ∀ port x, s.graph.port? p = some port → port.role = .valueInput →
      s.graph.valueSource? p = some x → Settles running Q (engine s (.read x)))
    (houtput : ∀ port, s.graph.port? p = some port → port.role = .valueOutput →
      port.node ∉ running → Settles running Q (engine s (.invoke port.node)))
    (hcycle : ∀ port, s.graph.port? p = some port → port.role = .valueOutput →
      port.node ∈ running → Q port.node) : Settles running Q (engine.read s p) := by
  have hC : Exec.Closed fun x : Exec σ _ => Settles running Q x := Settles.closed
  refine .inspect_bind fun mem _ => ?_
  cases mem.scopes.find? p with
  | some v => exact hC.pure v
  | none =>
    refine hC.ofGraph_bind fun port hport => ?_
    have hport := getPort_eq_ok.1 hport
    simp only
    split
    next hrole =>
      split
      next x hx => exact hC.bind (hinput port x hport hrole hx) fun _ => hC.pure _
      next => exact hC.pure _
    next hrole =>
      refine .inspect_bind fun mem hmem => ?_
      split
      next hmem' =>
        refine .fail fun n hn => ?_
        obtain rfl := FlowError.cycle.inj hn
        exact hcycle port hport hrole (by simpa [hmem] using hmem')
      next hmem' =>
        refine hC.bind (houtput port hport hrole (by simpa [hmem] using hmem')) fun _ => ?_
        refine .inspect_bind fun mem _ => ?_
        cases mem.scopes.find? p with
        | some v => exact hC.pure v
        | none => exact hC.bind (.emit _) fun _ => .fail nofun
    next => exact .fail nofun

/-- A node of a standard kind reads the ports drawn for its arguments, and reports nothing else. -/
theorem settles_invoke {n : NodeId}
    (hkinds : ∀ m ∈ s.graph.nodes, ∀ d, m.kind = .action d → d.Standard)
    (hread : ∀ d p, s.graph.Draws n d p → Settles (n :: running) Q (engine s (.read p))) :
    Settles running Q (engine.invoke s host n) := by
  have hC : Exec.Closed fun x : Exec σ _ => Settles (n :: running) Q x := Settles.closed
  refine Settles.closed.ofGraph_bind fun node hnode => ?_
  obtain ⟨hmem, rfl⟩ := node?_mem (getNode_eq_ok.1 hnode)
  refine Settles.entering ?_
  cases hkind : node.kind with
  | entry =>
    refine hC.bind (fun m hm => ?_) fun _ => hC.pure _
    obtain ⟨scopes, hrun, -, -⟩ := populateEntry_succeeds (s := s) node.outputs m
    exact ⟨_, _, hrun, hm, nofun⟩
  | result => exact hC.pure _
  | action d =>
    obtain ⟨b, hb, hbody, -⟩ := (hkinds node hmem d hkind).exists_method
    simp only [hb]
    refine hC.bind (closed_bindParams_of_draws hC node b.params .empty fun d _ => hread d)
      fun args => .runProgram_bind (hbody _) (fun o => ?_) fun e => .blame e
    exact hC.bind (closed_publishAll hC Settles.memoize node.id _) fun _ => hC.ofGraph _

end Engine

/-! ## Tasks -/

/-- The nodes of a graph that are not being run. -/
def Graph.idle (g : Graph Definition) (running : List NodeId) : List (Node Definition) :=
  g.nodes.filter fun n => n.id ∉ running

/-- An invocation leaves fewer nodes that are not being run. -/
theorem Graph.length_idle_lt {g : Graph Definition} {running : List NodeId} {n : Node Definition}
    (hn : n ∈ g.nodes) (hidle : n.id ∉ running) :
    (g.idle (n.id :: running)).length < (g.idle running).length := by
  have hidle' : g.idle (n.id :: running) = (g.idle running).filter fun m => m.id ≠ n.id := by
    simp only [Graph.idle, List.filter_filter]
    refine List.filter_congr fun m _ => ?_
    simp [not_or]
  rw [hidle']
  exact List.length_filter_lt_length_iff_exists.2
    ⟨n, List.mem_filter.2 ⟨hn, by simpa using hidle⟩, by simp⟩

/-- The cycles that the read of a port may report while some nodes are being run. -/
def Graph.Suspects (g : Graph Definition) (running : List NodeId) (p : PortId) (n : NodeId) :
    Prop :=
  g.Reaches p n ∧ (n ∈ running ∨ g.Cyclic n)

/-- The cycles that the invocation of a node may report. -/
def Graph.Incurs (g : Graph Definition) (running : List NodeId) (a n : NodeId) : Prop :=
  TransGen g.DependsOn a n ∧ (n ∈ running ∨ g.Cyclic n)

section Tasks

variable {s : Setting} {running : List NodeId}

/-- Levels of an interpreter of which each takes steps with nested tasks at the level below, as far
as the nodes being run are fit. -/
structure Layered (s : Setting) (host : Host σ) (Fit : List NodeId → Prop)
    (engines : Nat → Engine σ) : Prop where
  push {running : List NodeId} {n : Node Definition} : Fit running → n ∈ s.graph.nodes →
    n.id ∉ running → Fit (n.id :: running)
  read {running : List NodeId} {Q : NodeId → Prop} {k : Nat} {p : PortId} : Fit running →
    Settles running Q ((engines k).read s p) → Settles running Q (engines (k + 1) s (.read p))
  invoke {running : List NodeId} {Q : NodeId → Prop} {k : Nat} {n : NodeId} : Fit running →
    Fit (n :: running) → Settles running Q ((engines k).invoke s host n) →
      Settles running Q (engines (k + 1) s (.invoke n))

/-- The levels of the interpreter itself, whatever is being run. -/
theorem layered_exec (s : Setting) (host : Host σ) :
    Layered s host (fun _ => True) (exec host) where
  push _ _ _ := trivial
  read _ h := h
  invoke _ _ h := h

namespace Layered

variable {host : Host σ} {Fit : List NodeId → Prop} {engines : Nat → Engine σ}
  (hE : Layered s host Fit engines) (hg : s.graph.Valid [])

include hE hg

/-- A read settles if the invocations and the reads do that it is carried out by. -/
theorem settles_read (hfit : Fit running) {k : Nat} {p : PortId}
    (hinvoke : ∀ n ∈ s.graph.nodes, n.id ∉ running →
      Settles running (s.graph.Incurs running n.id) (engines k s (.invoke n.id)))
    (hinput : ∀ port x, s.graph.port? p = some port → port.role = .valueInput →
      s.graph.valueSource? p = some x →
        Settles running (s.graph.Suspects running x) (engines k s (.read x))) :
    Settles running (s.graph.Suspects running p) (engines (k + 1) s (.read p)) := by
  refine hE.read hfit (Engine.settles_read (fun port x hport hrole hx => ?_)
    (fun port hport hrole hidle => ?_) fun port hport hrole hrunning => ?_)
  · refine (hinput port x hport hrole hx).mono fun n ⟨hreach, hn⟩ => ⟨?_, hn⟩
    exact (reaches_congr fun _ => hg.wellFormed.demands_iff hport hrole hx).2 hreach
  · obtain ⟨node, hnode, hid⟩ := mem_allPorts.1 ((port?_eq_some_iff_mem hg.wellFormed).1 hport).1
    have hid : port.node = node.id := (mem_placedPorts.1 hid).1
    rw [hid] at hidle ⊢
    refine (hinvoke node hnode hidle).mono fun n ⟨hbelow, hn⟩ => ⟨?_, hn⟩
    exact (reaches_output hport hrole).2 (hid ▸ hbelow.to_reflTransGen)
  · exact ⟨(reaches_output hport hrole).2 .refl, .inl hrunning⟩

/-- Where invocations settle, reads do two levels above: that of an input is carried out by that of
an output. -/
theorem settles_reads (hfit : Fit running) {k : Nat}
    (hinvoke : ∀ j, k ≤ j → ∀ n ∈ s.graph.nodes, n.id ∉ running →
      Settles running (s.graph.Incurs running n.id) (engines j s (.invoke n.id)))
    {j : Nat} (hj : k + 2 ≤ j) (p : PortId) :
    Settles running (s.graph.Suspects running p) (engines j s (.read p)) := by
  obtain ⟨i, rfl⟩ := Nat.exists_eq_add_of_le' hj
  refine hE.settles_read hg hfit (hinvoke (i + k + 1) (by omega)) fun port x hport hrole hx => ?_
  obtain ⟨m, hm, q, hq, hvalue, rfl⟩ := hg.source_of_input hport hrole hx
  have hsource := hg.wellFormed.port?_portId (output_mem_allPorts hm hq)
  have hout : PlacedPort.role ⟨m.id, .output, q⟩ = .valueOutput :=
    (PlacedPort.role_eq_iff .output false).2 ⟨rfl, hvalue⟩
  refine hE.settles_read hg hfit (hinvoke (i + k) (by omega)) fun port x hport hrole _ => ?_
  obtain rfl := Option.some.inj (hsource.symm.trans hport)
  exact nomatch hout.symm.trans hrole

variable (hkinds : ∀ m ∈ s.graph.nodes, ∀ d, m.kind = .action d → d.Standard)

include hkinds

/-- With three levels of allowance for each node that is not being run, invocations settle. -/
theorem settles_invoke (hfit : Fit running) {c : Nat} (hc : (s.graph.idle running).length ≤ c)
    {k : Nat} (hk : 3 * c ≤ k) {n : Node Definition} (hn : n ∈ s.graph.nodes)
    (hidle : n.id ∉ running) :
    Settles running (s.graph.Incurs running n.id) (engines k s (.invoke n.id)) := by
  have hlt := length_idle_lt hn hidle
  induction c generalizing running k n with
  | zero => omega
  | succ c ih =>
    obtain ⟨j, rfl⟩ := Nat.exists_eq_add_of_le hk
    have hpush := hE.push hfit hn hidle
    have hreads : ∀ p, Settles (n.id :: running) (s.graph.Suspects (n.id :: running) p)
        (engines (3 * c + 2 + j) s (.read p)) := fun p =>
      hE.settles_reads hg hpush (k := 3 * c) (fun i hi m hm hidle' =>
        ih hpush (by omega) hi hm hidle' (length_idle_lt hm hidle')) (by omega) p
    have hlevel : 3 * (c + 1) + j = 3 * c + 2 + j + 1 := by omega
    rw [hlevel]
    refine hE.invoke hfit hpush (Engine.settles_invoke hkinds fun d p hp =>
      (hreads p).mono fun b hb => ?_)
    obtain ⟨⟨a, ha, hab⟩, hb⟩ := hb
    have hbelow : TransGen s.graph.DependsOn n.id b :=
      .head' (hg.wellFormed.dependsOn_of_draws hp ha) hab
    refine ⟨hbelow, ?_⟩
    rcases hb with hb | hb
    · rcases List.mem_cons.1 hb with rfl | hb
      -- The node itself is asked for again.
      · exact .inr hbelow
      · exact .inl hb
    · exact .inr hb

/-- With three levels of allowance for each node, and two more, a read comes to an end, and reports
nodes only that are being run already or lie on cycles. -/
theorem settles_read_above (hfit : Fit running) {k : Nat}
    (hk : 3 * s.graph.nodes.length + 2 ≤ k) (p : PortId) :
    Settles running (s.graph.Suspects running p) (engines k s (.read p)) := by
  have hidle : (s.graph.idle running).length ≤ s.graph.nodes.length := List.length_filter_le _ _
  exact hE.settles_reads hg hfit (fun j hj n hn hnot =>
    hE.settles_invoke hg hkinds hfit hidle hj hn hnot) hk p

end Layered

/-- In a flow that is not running any nodes a read reports nodes on cycles only. -/
theorem settles_read_of_fresh (hg : s.graph.Valid [])
    (hkinds : ∀ m ∈ s.graph.nodes, ∀ d, m.kind = .action d → d.Standard) (host : Host σ) {k : Nat}
    (hk : 3 * s.graph.nodes.length + 2 ≤ k) (p : PortId) :
    Settles [] (fun n => s.graph.Reaches p n ∧ s.graph.Cyclic n) (exec host k s (.read p)) :=
  ((layered_exec s host).settles_read_above hg hkinds trivial hk p).mono fun _ ⟨hreach, hn⟩ =>
    ⟨hreach, hn.resolve_left List.not_mem_nil⟩

end Tasks

/-! ## Values that are had -/

theorem Setting.Argument.of_draws {s : Setting} {P : PortId → Value → Prop} {n : NodeId}
    {d : PortDecl} {v : Value} (h : s.Argument P n d v) {p : PortId} (hp : s.graph.Draws n d p) :
    ∃ w, P p w := by
  unfold Setting.Argument at h
  unfold Graph.Draws at hp
  split at h
  next hd =>
    rw [if_pos hd] at hp
    obtain ⟨vs, -, hvs⟩ := h
    obtain ⟨w, -, hw⟩ := exists_of_forall₂_mem (List.Forall₂.flip hvs) hp
    exact ⟨w, hw⟩
  next hd =>
    rw [if_neg hd] at hp
    obtain ⟨q, hq, hv⟩ := h
    obtain rfl := Option.some.inj (hp.symm.trans hq)
    exact ⟨v, hv⟩

/-- If there are arguments, every port drawn for one of them has a value with the property. -/
theorem Setting.Arguments.of_draws {s : Setting} {P : PortId → Value → Prop}
    {node : Node Definition} {ps : List MethodParam} {args out : Table String Value}
    (h : s.Arguments P node ps args out) {d : PortDecl} (hd : .input d ∈ ps) {p : PortId}
    (hp : s.graph.Draws node.id d p) : ∃ w, P p w := by
  induction ps generalizing args with
  | nil => simp at hd
  | cons q qs ih =>
    cases q with
    | input c =>
      obtain ⟨v, hv, hrest⟩ := h
      rcases List.mem_cons.1 hd with hd | hd
      · obtain rfl := MethodParam.input.inj hd
        exact hv.of_draws hp
      · exact ih hrest hd
    | const | out | branch | ambient => exact ih h ((List.mem_cons.1 hd).resolve_left nofun)

section Grounded

variable {s : Setting} (hg : s.graph.Valid [])

include hg

/-- That ports with values are grounded is a discipline. -/
theorem discipline_grounded : Discipline s (ScopesHold fun p _ => s.graph.Grounded p)
    fun p _ => s.graph.Grounded p where
  found h hv := h.find? hv
  kept h hp _ := h.set hp
  pulled hport hrole hx hgrounded n hn := by
    have hreach := reaches_congr (n := n) fun _ => hg.wellFormed.demands_iff hport hrole hx
    exact hgrounded n (hreach.1 hn)
  unconnected hport hrole hx n hn := by
    obtain ⟨a, ha, -⟩ := hn
    exact absurd ha (hg.wellFormed.not_demands hport hrole hx)
  entry {scopes node q} _ hnode hkind hq hvalue _ := by
    have hport := hg.wellFormed.port?_portId (output_mem_allPorts hnode hq)
    refine hg.wellFormed.grounded_output hport
      ((PlacedPort.role_eq_iff .output false).2 ⟨rfl, hvalue⟩) fun x hx hid hrole => ?_
    -- Entry has no inputs.
    obtain ⟨w, hw, -⟩ := (hg.shaped node hnode List.not_mem_nil).inputs
    rw [inputShape, hkind] at hw
    have hmem := (hg.wellFormed.mem_inputs_of_role hnode hx hid hrole).1
    rw [List.map_eq_nil_iff.1 hw] at hmem
    exact absurd hmem List.not_mem_nil

/-- What is memoized and what is read is grounded, at every level. -/
theorem upholds_grounded_exec
    (hkinds : ∀ m ∈ s.graph.nodes, ∀ d, m.kind = .action d → d.Standard) (host : Host σ) (k : Nat) :
    ∀ t, Upholds (ScopesHold fun p _ => s.graph.Grounded p) (exec host k s t)
      (t.Meets fun p _ => s.graph.Grounded p) := by
  refine upholds_exec (discipline_grounded hg) (fun node hnode d hkind => ?_)
    (fun node hnode d hkind b hd args hargs o ho e he p port hp hport => ?_) host k
  · obtain ⟨m, hm, hdefine⟩ := hkinds node hnode d hkind
    exact Library.transparent hm hdefine
  · have hstandard := hkinds node hnode d hkind
    obtain ⟨b', hb', -, hparams⟩ := hstandard.exists_method
    obtain rfl : b = b' := Behaviour.method.inj (hd.behaviour.symm.trans hb')
    obtain ⟨m, -, hdefine⟩ := hstandard
    obtain ⟨q, hq, hname, rfl⟩ := Engine.mem_outputs_of_output? hg hnode hp hport
    have hvalue := Engine.isControl_of_outputsOf hg hnode hkind hd he hq hname
    refine hg.wellFormed.grounded_output hport
      ((PlacedPort.role_eq_iff .output false).2 ⟨rfl, hvalue⟩) fun x hx hid hrole => ?_
    obtain ⟨hmem, hvalue⟩ := hg.wellFormed.mem_inputs_of_role hnode hx hid hrole
    obtain ⟨hdecl, hdraws⟩ :=
      hg.draws_of_input hnode hkind (define_addressable hdefine) hmem hvalue
    obtain ⟨-, hgrounded⟩ := hargs.of_draws (hparams _ hdecl) hdraws
    exact hgrounded

end Grounded

/-! ## Fresh flows -/

namespace Visited

variable {s : Setting} {host : Host σ} {m : Machine σ}

/-- Between requests no nodes are being run. -/
theorem running_eq (h : Visited s host m) : m.memory.running = [] := by
  induction h with
  | fresh => rfl
  | request n hq h _ ih => exact (running_answer host n s _ _ _ _ h).trans ih

/-- What is memoized between requests is grounded. -/
theorem grounded (hg : s.graph.Valid [])
    (hkinds : ∀ m ∈ s.graph.nodes, ∀ d, m.kind = .action d → d.Standard) (h : Visited s host m) :
    ScopesHold (fun p _ => s.graph.Grounded p) m.memory.scopes := by
  induction h with
  | fresh => exact .empty
  | request n hq h _ ih =>
    exact (Engine.upholds_answer (upholds_grounded_exec hg hkinds host n) (fun _ h => h.push)
      (fun _ h => h.pop) host hq _ _ _ h ih).1

end Visited

/-- Cycles of values are detected exactly, in a fresh flow over a graph of the kinds of the library
and in all those states that it comes to by requests from outside. A read comes to an end, however
the nodes of the graph depend on one another. It reports no cycle if none is reached from its port,
it does not succeed if one is, and a node that it reports is reached and lies on a cycle. -/
theorem cycles_detected {s : Setting} (hg : Reachable Definition.Standard s.graph) (host : Host σ)
    {m : Machine σ} (hm : Visited s host m) (p : PortId) :
    (∀ k, 3 * s.graph.nodes.length + 2 ≤ k → ∃ r m', exec host k s (.read p) m = some (r, m')) ∧
    ∀ k r m', exec host k s (.read p) m = some (r, m') →
      ((∀ n, s.graph.Reaches p n → ¬ s.graph.Cyclic n) → ∀ n, r ≠ .error (.cycle n)) ∧
      ((∃ n, s.graph.Reaches p n ∧ s.graph.Cyclic n) → ∀ v, r ≠ .ok v) ∧
      ∀ n, r = .error (.cycle n) → s.graph.Reaches p n ∧ s.graph.Cyclic n := by
  have hkinds : ∀ node ∈ s.graph.nodes, ∀ d, node.kind = .action d → d.Standard :=
    fun node hnode => (hg.invariant.2 node hnode).1
  have hends := fun k (hk : 3 * s.graph.nodes.length + 2 ≤ k) =>
    settles_read_of_fresh hg.valid hkinds host hk p m hm.running_eq
  refine ⟨fun k hk => ?_, fun k r m' hrun => ?_⟩
  · obtain ⟨r, m', hrun, -⟩ := hends k hk
    exact ⟨r, m', hrun⟩
  · have hcycle : ∀ n, r = .error (.cycle n) → s.graph.Reaches p n ∧ s.graph.Cyclic n := by
      -- With more allowance the run comes to the same end.
      have hmore := Nat.le_max_left k (3 * s.graph.nodes.length + 2)
      obtain ⟨r₁, m₁, hrun₁, -, hr₁⟩ := hends _ (Nat.le_max_right k _)
      have hsame := exec_extends hmore host s (.read p) m _ hrun
      obtain ⟨rfl, -⟩ := Prod.mk.inj (Option.some.inj (hsame.symm.trans hrun₁))
      exact hr₁
    refine ⟨fun hnone n hn => ?_, ?_, hcycle⟩
    · obtain ⟨hreach, hn⟩ := hcycle n hn
      exact hnone n hreach hn
    · rintro ⟨n, hreach, hn⟩ v rfl
      have hgrounded := hm.grounded hg.valid hkinds
      exact (upholds_grounded_exec hg.valid hkinds host k (.read p) m _ m' hrun hgrounded).2 v rfl
        n hreach hn

/-- Two nodes that feed each other and a third that one of them feeds; and a node that feeds two
slots of another. -/
def entangled : Graph Definition :=
  [.addNode (.action Library.concat.kind), .addNode (.action Library.concat.kind),
    .addNode (.action Library.concat.kind), .addNode (.action Library.concat.kind),
    .addNode (.action Library.concat.kind), .connect ⟨0, 3⟩ ⟨0, 5⟩, .connect ⟨0, 7⟩ ⟨0, 1⟩,
    .connect ⟨0, 3⟩ ⟨0, 9⟩, .connect ⟨0, 15⟩ ⟨0, 17⟩, .connect ⟨0, 15⟩ ⟨0, 23⟩].foldl Edit.perform
    (.empty 0 .standard)

theorem reachable_entangled : Reachable Definition.Standard entangled := by
  refine .foldl (fun e he k hk => ?_) (.blank 0 .standard)
  have hkind : Edit.offers e = none ∨ Edit.offers e = some Library.concat.kind := by
    simp only [List.mem_cons, List.not_mem_nil, or_false] at he
    rcases he with rfl | rfl | rfl | rfl | rfl | rfl | rfl | rfl | rfl | rfl <;>
      simp [Edit.offers, NodeKind.action?]
  rcases hkind with hkind | hkind
  · simp [hkind] at hk
  · obtain rfl := Option.some.inj (hkind.symm.trans hk)
    exact standard_concat

/-- Its dependencies. -/
def entangledEdges : List (NodeId × NodeId) :=
  [(⟨2⟩, ⟨1⟩), (⟨1⟩, ⟨2⟩), (⟨3⟩, ⟨1⟩), (⟨5⟩, ⟨4⟩)]

theorem mem_entangledEdges {a b : NodeId} (h : entangled.DependsOn a b) :
    (a, b) ∈ entangledEdges := by
  have hends : ∀ c ∈ entangled.connections, ∀ x ∈ entangled.allPorts, ∀ y ∈ entangled.allPorts,
      x.port.index = c.source → y.port.index = c.destination →
        (y.node, x.node) ∈ entangledEdges := by
    decide +kernel
  obtain ⟨c, hc, -, x, y, hj, rfl, rfl⟩ := h
  exact hends c hc x hj.source_mem y hj.destination_mem hj.source_index hj.destination_index

/-- The output of the fifth node is had from no cycle. -/
theorem grounded_entangled : entangled.Grounded ⟨0, 19⟩ := by
  have hleaf : ∀ b, ¬ entangled.DependsOn ⟨4⟩ b := fun b h => by
    simpa [entangledEdges] using mem_entangledEdges h
  have hfourth : ∀ n, ReflTransGen entangled.DependsOn ⟨4⟩ n → n = ⟨4⟩ := by
    intro n h
    rcases h.cases_head with rfl | ⟨b, hb, -⟩
    · rfl
    · exact absurd hb (hleaf b)
  have hfifth : ∀ b, entangled.DependsOn ⟨5⟩ b → b = ⟨4⟩ := fun b h => by
    simpa [entangledEdges] using mem_entangledEdges h
  have hport : (entangled.port? ⟨0, 19⟩).map (fun port => (port.role, port.node)) =
      some (.valueOutput, ⟨5⟩) := by
    decide +kernel
  obtain ⟨port, hport, hplace⟩ := Option.map_eq_some_iff.1 hport
  obtain ⟨hrole, hid⟩ := Prod.mk.inj hplace
  intro n hn hcycle
  rcases (hid ▸ (reaches_output hport hrole).1 hn).cases_head with rfl | ⟨b, hb, hn⟩
  · obtain ⟨b, hb, hback⟩ := TransGen.head'_iff.1 hcycle
    rw [hfifth b hb] at hback
    exact absurd (hfourth _ hback) (by decide)
  · rw [hfifth b hb] at hn
    rw [hfourth n hn] at hcycle
    obtain ⟨b, hb, -⟩ := TransGen.head'_iff.1 hcycle
    exact hleaf b hb

/-- The third node is not on the cycle that its read comes to, and the node that is reported is. The
fifth has its value, though it asks for the one below twice. -/
theorem cycles_detected_entangled :
    (∃ m', exec nullHost 17 (.top entangled .empty ⟨32, true⟩ .standard) (.read ⟨0, 11⟩)
        ⟨.start .empty, [], ()⟩ = some (.error (.cycle ⟨1⟩), m')) ∧
      entangled.Reaches ⟨0, 11⟩ ⟨1⟩ ∧ entangled.Cyclic ⟨1⟩ ∧
      (∀ k v m', exec nullHost k (.top entangled .empty ⟨32, true⟩ .standard) (.read ⟨0, 11⟩)
        ⟨.start .empty, [], ()⟩ ≠ some (.ok v, m')) ∧
      ∀ k r m', exec nullHost k (.top entangled .empty ⟨32, true⟩ .standard) (.read ⟨0, 19⟩)
        ⟨.start .empty, [], ()⟩ = some (r, m') → ∀ n, r ≠ .error (.cycle n) := by
  have hdetected := cycles_detected (s := .top entangled .empty ⟨32, true⟩ .standard)
    reachable_entangled nullHost (.fresh [] ())
  have hrun : (exec nullHost 17 (.top entangled .empty ⟨32, true⟩ .standard) (.read ⟨0, 11⟩)
      ⟨.start .empty, [], ()⟩).map (·.1) = some (.error (.cycle ⟨1⟩)) := by
    decide +kernel
  obtain ⟨⟨r, m'⟩, hrun, rfl⟩ := Option.map_eq_some_iff.1 hrun
  obtain ⟨hreach, hcycle⟩ := ((hdetected ⟨0, 11⟩).2 17 _ m' hrun).2.2 ⟨1⟩ rfl
  refine ⟨⟨m', hrun⟩, hreach, hcycle, fun k v m' hok => ?_, fun k r m' hread => ?_⟩
  · exact ((hdetected ⟨0, 11⟩).2 k _ m' hok).2.1 ⟨⟨1⟩, hreach, hcycle⟩ v rfl
  · exact ((hdetected ⟨0, 19⟩).2 k r m' hread).1 grounded_entangled

end EffectGraph
