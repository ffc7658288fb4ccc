import EffectGraph.Proofs.Publishing

/-!
# The faults of a flow

The interpreter fails in many ways that a graph does not give occasion for: ports by names that are
not there, ports of the wrong role, outputs that are not written. Over a graph of reliable kinds
(`Definition.Reliable`), whose bodies compute their outputs from arguments of the declared types and
follow none but declared branches, a run fails for a cycle or because a body fails on such arguments
(`Setting.Fault`). The interpreter is dependable (`Engine.Dependable`) in that it keeps the memory
conforming, fails for faults only and leaves every node filled that it has invoked; a step over a
dependable engine is dependable, and so is every level (`dependable_exec`).
-/

namespace EffectGraph

open EffectGraph.Graph

variable {σ α β : Type}

/-! ## Kinds -/

/-- A program ends with a result when its messages to the log have been written. -/
inductive Program.Ends {α : Type} : Program α → α → Prop
  | pure (a : α) : Ends (.pure a) a
  | log {n : NodeId} {message : String} {next : Unit → Program α} {a : α} (h : Ends (next ()) a) :
    Ends (.ask (.log n message) next) a

theorem Program.Ends.unique {x : Program α} {a b : α} (ha : x.Ends a) (hb : x.Ends b) : a = b := by
  induction ha with
  | pure a =>
    cases hb
    rfl
  | log _ ih =>
    cases hb with
    | log hb => exact ih hb

/-- A call has an argument for every parameter that is not an output, of the declared type if there
is one. -/
structure Call.Serves (c : Call) (ps : List MethodParam) : Prop where
  input : ∀ d, .input d ∈ ps → ∃ v, c.args.get? d.name = some v ∧ d.Takes v
  const : ∀ d, .const d ∈ ps → ∃ v, c.args.get? d.name = some v ∧ v.belongsTo d.type = true
  ambient : ∀ name context, .ambient name context ∈ ps → ∃ v, c.args.get? name = some v

/-- The declaration of a kind whose body asks for nothing and, with arguments of the declared types,
fails with an error of its own or ends and follows a branch that is declared, if any. -/
structure MethodDecl.Reliable (m : MethodDecl) : Prop where
  values : ∀ d, .input d ∈ m.params → d.isControl = false
  branches : ∀ d, .branch d ∈ m.params → d.isControl = true
  quiet : ∀ body, m.body = some body → ∀ c, (body c).Quiet
  ends : ∀ body, m.body = some body → ∀ c, c.Serves m.params → ∀ r, (body c).Ends r →
    (∃ source, r = .error (.action source)) ∨
      ∃ o, r = .ok o ∧ ∀ name, o.branch = some name → ∃ d, .branch d ∈ m.params ∧ d.name = name

/-- The kind of a reliable declaration. -/
def Definition.Reliable (d : Definition) (m : MethodDecl) : Prop := m.Reliable ∧ m.define = .ok d

namespace Definition.Reliable

variable {d : Definition} {m : MethodDecl}

theorem managed (h : d.Reliable m) : d.Managed :=
  Tame.managed (.method h.2 h.1.branches fun body hbody c => (h.1.quiet body hbody c).passive)

theorem addressable (h : d.Reliable m) : d.signature.Addressable := define_addressable h.2

/-- The behaviour of the kind is the declared body, and its signature lists the parameters. -/
theorem exists_method (h : d.Reliable m) : ∃ b, d.behaviour = .method b ∧ b.params = m.params ∧
    m.body = some b.body ∧ (m.params.map (·.name)).Nodup ∧ b.written ⊆ d.signature.outputs ∧
      (∀ c, .input c ∈ m.params → c ∈ d.signature.inputs) ∧
      ∀ c, .branch c ∈ m.params → c ∈ d.signature.outputs := by
  obtain ⟨body, hbody, hcheck, rfl⟩ := define_eq_ok.1 h.2
  refine ⟨_, rfl, rfl, hbody, (checkParams_eq_ok.1 hcheck).1, (written_sublist m body).subset,
    fun c hc => List.mem_filterMap.2 ⟨_, hc, rfl⟩, fun c hc => ?_⟩
  exact List.mem_append_left _ (List.mem_filterMap.2 ⟨_, hc, rfl⟩)

end Definition.Reliable

/-! ## Ports by name -/

namespace Graph.Valid

variable {g : Graph Definition} {m : Node Definition}

/-- Nodes other than Entry have a control input. -/
theorem exists_entrance (h : g.Valid []) (hm : m ∈ g.nodes) (hkind : m.kind ≠ .entry) :
    ∃ p port, g.controlInput? m.id = some p ∧ g.port? p = some port ∧
      port.role = .controlInput := by
  obtain ⟨w, hw, -⟩ := (h.shaped m hm List.not_mem_nil).inputs
  obtain ⟨specs, hspecs⟩ : ∃ specs, m.inputs.map Port.spec = .control enterName :: specs := by
    rw [hw, inputShape]
    cases hk : m.kind with
    | entry => exact absurd hk hkind
    | action k => exact ⟨_, rfl⟩
    | result => exact ⟨_, rfl⟩
  obtain ⟨q, qs, hports, hq, -⟩ := List.map_eq_cons_iff.1 hspecs
  have hmem : q ∈ m.inputs := hports ▸ List.mem_cons_self
  obtain ⟨hdecl, hslot⟩ := PortSpec.mk.inj hq
  refine ⟨g.portId q.index, _, ?_, h.wellFormed.port?_portId (input_mem_allPorts hm hmem), ?_⟩
  · simp [controlInput?, input?, node?_of_mem h.ascending hm, hports, hdecl, hslot,
      PortDecl.control]
  · exact (PlacedPort.role_eq_iff .input true).2 ⟨rfl, congrArg PortDecl.isControl hdecl⟩

theorem exists_node_of_port (h : g.Valid []) {p : PortId} {port : PlacedPort}
    (hport : g.port? p = some port) : ∃ n ∈ g.nodes, g.node? port.node = some n := by
  obtain ⟨n, hn, hplace⟩ := mem_allPorts.1 ((port?_eq_some_iff_mem h.wellFormed).1 hport).1
  exact ⟨n, hn, (mem_placedPorts.1 hplace).1 ▸ node?_of_mem h.ascending hn⟩

end Graph.Valid

/-! ## Faults -/

/-- A flow over a graph of reliable kinds, under a hook whose direct conversions conform. -/
structure Setting.Reliable (s : Setting) : Prop where
  valid : s.graph.Valid []
  hook : s.hook.Conforming
  kinds : ∀ n ∈ s.graph.nodes, ∀ d, n.kind = .action d → ∃ m, d.Reliable m

/-- Why a run fails over a graph of reliable kinds. -/
inductive Setting.Fault (s : Setting) : FlowError → Prop
  /-- A node depends on its own output. -/
  | cycle (n : NodeId) : s.Fault (.cycle n)
  /-- The body of an action node fails on arguments that the node may have. -/
  | body {node : Node Definition} {d : Definition} {b : Method} {args : Table String Value}
    {source : ActionError} (hnode : node ∈ s.graph.nodes) (hkind : node.kind = .action d)
    (hb : d.behaviour = .method b)
    (hargs : s.Arguments s.graph.Conforms node b.params .empty args)
    (hends : (b.body ⟨node.id, args, s.environment⟩).Ends (.error (.action source))) :
    s.Fault (.action node.id d.name source)

/-- A step that fails, where the scopes have a property, with certain errors only. -/
def FailsOnly (I : Scopes → Prop) (E : FlowError → Prop) (x : Exec σ α) : Prop :=
  ∀ m e m', x m = some (.error e, m') → I m.memory.scopes → E e

namespace FailsOnly

variable {I : Scopes → Prop} {E : FlowError → Prop} {Q : α → Prop} {x : Exec σ α}
  {f : α → Exec σ β}

/-- A step that succeeds does not fail. -/
theorem of_ok (h : ∀ m, ∃ a m', x m = some (.ok a, m')) : FailsOnly I E x := by
  intro m e m' hx
  obtain ⟨a, m₁, hok⟩ := h m
  simp [hx] at hok

theorem pure {a : α} : FailsOnly (σ := σ) I E (Pure.pure a) := of_ok fun m => ⟨a, m, rfl⟩

theorem emit {e : Event} : FailsOnly (σ := σ) I E (Exec.emit e) := of_ok fun _ => ⟨_, _, rfl⟩

theorem fail {e : FlowError} (h : E e) : FailsOnly (α := α) (σ := σ) I E (Exec.fail e) := by
  intro m e' m' hx _
  obtain ⟨he, -⟩ := Prod.mk.inj (Option.some.inj hx)
  exact Except.error.inj he ▸ h

theorem bind (hx : FailsOnly I E x) (hQ : Upholds I x Q) (hf : ∀ a, Q a → FailsOnly I E (f a)) :
    FailsOnly I E (x >>= f) := by
  intro m e m' h hm
  rcases Exec.bind_eq_error.1 h with h | ⟨a, m₁, ha, h⟩
  · exact hx m e m' h hm
  · obtain ⟨hm₁, hQ⟩ := hQ m _ m₁ ha hm
    exact hf a (hQ a rfl) m₁ e m' h hm₁

/-- A question to the graph that has an answer is passed over. -/
theorem ofGraph_bind {r : Except GraphError α} {a : α} (hr : r = .ok a)
    (hf : FailsOnly I E (f a)) : FailsOnly I E (Exec.ofGraph r >>= f) := by
  subst hr
  exact hf

end FailsOnly

/-- What a task names is there: a port that a value passes, a node, or any port. -/
def Task.Addresses (g : Graph Definition) : Task → Prop
  | .read p => ∃ port, g.port? p = some port ∧ port.port.decl.isControl = false
  | .invoke n => ∃ node, g.node? n = some node
  | .follow p => ∃ port, g.port? p = some port

/-- An engine that keeps the memory of a flow conforming, fails only for faults when it is given a
task of the flow, and leaves a node filled when an invocation of it succeeds. -/
structure Engine.Dependable (engine : Engine σ) (s : Setting) : Prop where
  upholds : ∀ t, Upholds (ConformingScopes s.graph) (engine s t) (t.Meets s.graph.Conforms)
  fails : ∀ t : Task, t.Addresses s.graph →
    FailsOnly (ConformingScopes s.graph) s.Fault (engine s t)
  fills : ∀ {n exit m m'}, engine s (.invoke n) m = some (.ok exit, m') →
    s.graph.Filled n m'.memory.scopes

namespace Engine

/-! ## Bodies -/

section Bodies

variable {engine : Engine σ} {s : Setting} {host : Host σ} {I : Scopes → Prop}
  {E : FlowError → Prop} {x : Program α}

theorem failsOnly_runProgram (hx : x.Quiet) : FailsOnly I E (engine.runProgram s host x) := by
  induction hx with
  | pure a => exact .pure
  | log _ ih => exact FailsOnly.emit.bind .emit fun _ _ => ih

theorem upholds_runProgram_ends (hx : x.Quiet) :
    Upholds I (engine.runProgram s host x) x.Ends := by
  induction hx with
  | pure a => exact .pure (.pure a)
  | log _ ih => exact Upholds.emit.bind fun _ _ => ih.mono fun _ h => .log h

theorem failsOnly_blame {n : NodeId} {define : String} {source : ActionError}
    (h : E (.action n define source)) :
    FailsOnly (α := α) (σ := σ) I E (blame s n define (.action source)) := by
  simp only [blame]
  split
  · exact FailsOnly.emit.bind .emit fun _ _ => .fail h
  · exact .fail h

theorem blame_ne_ok {n : NodeId} {define : String} {e : BodyError} {a : α} {m m' : Machine σ} :
    blame s n define e m ≠ some (.ok a, m') := fun h =>
  (upholds_blame (I := fun _ => True) (Q := fun _ => False) m _ m' h trivial).2 a rfl

end Bodies

section Flow

variable {engine : Engine σ} {s : Setting} (hg : s.graph.Valid []) (he : engine.Dependable s)

include hg he

/-! ## Values -/

theorem failsOnly_read {p : PortId} {port : PlacedPort} (hport : s.graph.port? p = some port)
    (hvalue : port.port.decl.isControl = false) :
    FailsOnly (ConformingScopes s.graph) s.Fault (engine.read s p) := by
  intro m e m' h hm
  cases hside : port.direction with
  | input =>
    have hrole := (PlacedPort.role_eq_iff .input false).2 ⟨hside, hvalue⟩
    obtain ⟨x, hx, h⟩ := read_input_eq_error hport hrole h
    obtain ⟨n, hn, q, hq, hvalue, rfl⟩ := hg.source_of_input hport hrole hx
    have hsource := hg.wellFormed.port?_portId (output_mem_allPorts hn hq)
    exact he.fails (.read _) ⟨_, hsource, hvalue⟩ m e m' h hm
  | output =>
    have hrole := (PlacedPort.role_eq_iff .output false).2 ⟨hside, hvalue⟩
    rcases read_output_eq_error hport hrole h with rfl | h | ⟨exit, m₁, h, hnone⟩
    · exact .cycle _
    · obtain ⟨n, -, hn⟩ := hg.exists_node_of_port hport
      exact he.fails (.invoke port.node) ⟨n, hn⟩ m e m' h hm
    -- The invocation has written the output.
    · exact absurd (he.fills h) (not_filled hg hport hrole hnone)

omit hg in
theorem failsOnly_readAll {ps : List PortId} (hps : ∀ p ∈ ps, (Task.read p).Addresses s.graph) :
    FailsOnly (ConformingScopes s.graph) s.Fault (engine.readAll s ps) := by
  induction ps with
  | nil => exact .pure
  | cons p ps ih =>
    refine FailsOnly.bind (he.fails (.read p) (hps p (.head _))) (he.upholds (.read p))
      fun v _ => ?_
    exact FailsOnly.bind (ih fun q hq => hps q (.tail _ hq)) (upholds_readAll he.upholds ps)
      fun _ _ => .pure

section Node

variable {node : Node Definition} (hnode : node ∈ s.graph.nodes) {d : Definition}
  {decl : MethodDecl} (hd : d.Reliable decl) (hkind : node.kind = .action d)

include hnode hd hkind

theorem failsOnly_argument {c : PortDecl} (hc : c ∈ d.signature.inputs)
    (hvalue : c.isControl = false) :
    FailsOnly (ConformingScopes s.graph) s.Fault (engine.argument s node.id c) := by
  have hfound := node?_of_mem hg.ascending hnode
  have haddresses : ∀ p ∈ node.inputs, p.decl.name = c.name →
      (Task.read (s.graph.portId p.index)).Addresses s.graph := by
    intro p hp hname
    have hdecl := (hg.shaped node hnode List.not_mem_nil).decl_eq hkind hd.addressable hp hc hname
    exact ⟨_, hg.wellFormed.port?_portId (input_mem_allPorts hnode hp), hdecl ▸ hvalue⟩
  unfold argument
  split
  · refine FailsOnly.bind (failsOnly_readAll he fun x hx => ?_) (upholds_readAll he.upholds _)
      fun _ _ => .pure
    obtain ⟨p, hp, hname, rfl⟩ := mem_inputs_of_variadicSlots hfound hx
    exact haddresses p hp hname
  next hsingle =>
    obtain ⟨x, hx⟩ := hg.exists_input hnode (single_mem_of_input hkind hc (by simpa using hsingle))
    refine FailsOnly.ofGraph_bind (getInput_eq_ok.2 hx) ?_
    obtain ⟨p, hp, hname, rfl⟩ := mem_inputs_of_input? hfound hx
    exact he.fails (.read _) (haddresses p hp hname)

theorem failsOnly_bindParams {ps : List MethodParam}
    (hps : ∀ c, .input c ∈ ps → c ∈ d.signature.inputs ∧ c.isControl = false)
    (args : Table String Value) :
    FailsOnly (ConformingScopes s.graph) s.Fault (engine.bindParams s node ps args) := by
  induction ps generalizing args with
  | nil => exact .pure
  | cons p ps ih =>
    have hrest := ih fun c hc => hps c (.tail _ hc)
    cases p with
    | input c =>
      obtain ⟨hc, hvalue⟩ := hps c (.head _)
      exact FailsOnly.bind (failsOnly_argument hg he hnode hd hkind hc hvalue)
        (upholds_argument he.upholds node.id c) fun v _ => hrest _
    | const c => exact hrest _
    | out c => exact hrest _
    | branch c => exact hrest _
    | ambient name context => exact hrest _

/-! ## Nodes -/

omit he in
/-- A port is found under the name of a declared branch, and control passes it. -/
theorem exists_branch {c : PortDecl} (hc : c ∈ d.signature.outputs)
    (hcontrol : c.isControl = true) : ∃ p port, s.graph.output? node.id c.name = some p ∧
      s.graph.port? p = some port ∧ port.port.decl.isControl = true := by
  obtain ⟨p, port, hp, hport⟩ := hg.exists_output hnode hkind hc
  obtain ⟨q, hq, hname, rfl⟩ := mem_outputs_of_output? hg hnode hp hport
  have hmem : q.decl ∈ .control exitName :: d.signature.outputs :=
    (hg.shaped node hnode List.not_mem_nil).decl_outputs hkind ▸ List.mem_map_of_mem hq
  have hnames : ((.control exitName :: d.signature.outputs).map PortDecl.name).Nodup :=
    hd.addressable.outputs
  obtain rfl : q.decl = c := List.inj_on_of_nodup_map hnames hmem (.tail _ hc) hname
  exact ⟨p, _, hp, hport, hcontrol⟩

omit he in
/-- The arguments that a node of a reliable kind may have serve its declaration. -/
theorem serves_of_arguments (hhook : s.hook.Conforming) {args : Table String Value}
    (hargs : s.Arguments s.graph.Conforms node decl.params .empty args) :
    (Call.mk node.id args s.environment).Serves decl.params := by
  obtain ⟨b, -, -, -, hnames, -, hinputs, -⟩ := hd.exists_method
  refine ⟨fun c hc => ?_, fun c hc => ?_, fun name context hc => ?_⟩
  · obtain ⟨v, hget, hv⟩ := hargs.get?_of_mem hnames hc rfl
    exact ⟨v, hget, hv.takes hg hnode hkind hd.addressable (hinputs c hc)⟩
  · obtain ⟨v, hget, rfl⟩ := hargs.get?_of_mem hnames hc rfl
    exact ⟨_, hget, Value.convert_belongsTo hhook _ _⟩
  · obtain ⟨v, hget, -⟩ := hargs.get?_of_mem hnames hc rfl
    exact ⟨v, hget⟩

theorem failsOnly_invokeMethod (hhook : s.hook.Conforming) (host : Host σ) {b : Method}
    (hb : d.behaviour = .method b) :
    FailsOnly (ConformingScopes s.graph) s.Fault (engine.invokeMethod s host node d.name b) := by
  obtain ⟨b', hb', hparams, hbody, -, hwritten, hinputs, hbranches⟩ := hd.exists_method
  obtain rfl := Behaviour.method.inj (hb.symm.trans hb')
  have hquiet := hd.1.quiet b.body hbody
  refine FailsOnly.bind
    (failsOnly_bindParams hg he hnode hd hkind (fun c hc => ?_) _)
    (upholds_bindParams he.upholds node b.params .empty) fun args hargs => ?_
  · rw [hparams] at hc
    exact ⟨hinputs c hc, hd.1.values c hc⟩
  have hserves := serves_of_arguments hg hnode hd hkind hhook (hparams ▸ hargs)
  refine FailsOnly.bind (failsOnly_runProgram (hquiet _)) (upholds_runProgram_ends (hquiet _))
    fun r hr => ?_
  rcases hd.1.ends b.body hbody _ hserves r hr with ⟨source, rfl⟩ | ⟨o, rfl, hbranch⟩
  · exact failsOnly_blame (.body hnode hkind hb hargs hr)
  · intro m e m' h _
    obtain ⟨m₁, hpublish⟩ :=
      publishAll_succeeds hg hnode hkind hwritten (names_outputsOf b o) m
    rcases Exec.bind_eq_error.1 h with h | ⟨_, m₂, -, h⟩
    · simp [hpublish] at h
    -- The branch that is followed is declared, and so is found.
    · obtain ⟨cause, hcause, -, -⟩ := Exec.ofGraph_eq_error.1 h
      obtain ⟨name, hname, hnone, -⟩ := branchOf_eq_error hg hnode hkind hcause
      obtain ⟨c, hc, rfl⟩ := hbranch name hname
      obtain ⟨p, port, hp, hport, hcontrol⟩ :=
        exists_branch hg hnode hd hkind (hbranches c hc) (hd.1.branches c hc)
      simp [hnone p port hp hport] at hcontrol

omit he in
theorem invokeMethod_fills {host : Host σ} {b : Method} (hb : d.behaviour = .method b)
    {exit : Option PortId} {m m' : Machine σ}
    (h : engine.invokeMethod s host node d.name b m = some (.ok exit, m')) :
    s.graph.Filled node.id m'.memory.scopes := by
  obtain ⟨args, m₁, -, h⟩ := Exec.bind_eq_ok.1 h
  obtain ⟨r, m₂, -, h⟩ := Exec.bind_eq_ok.1 h
  cases r with
  | error e => exact absurd h blame_ne_ok
  | ok o =>
    obtain ⟨_, m₃, hpublish, h⟩ := Exec.bind_eq_ok.1 h
    obtain ⟨-, rfl⟩ := Exec.ofGraph_eq_ok.1 h
    have hwritten := (publishAll_eq_ok (names_outputsOf b o) hpublish).written
    have hholds : s.graph.Holds node.id (b.written.map (·.name)) m₃.memory.scopes := by
      intro name hname p hp
      obtain ⟨c, hc, rfl⟩ := List.mem_map.1 hname
      obtain ⟨p', hp', hsome⟩ := hwritten c hc
      exact Option.some.inj (hp'.symm.trans hp) ▸ hsome
    exact filled_of_holds hg hnode hkind hd.managed
      (fun c hc hvalue => List.mem_map_of_mem ((hd.managed.method b hb).2 c hc hvalue)) hholds

end Node

end Flow

/-! ## Tasks -/

section Tasks

variable {engine : Engine σ} {s : Setting} (hs : s.Reliable)

include hs

/-- An invocation that succeeds leaves its node filled. -/
theorem invoke_fills {host : Host σ} {n : NodeId} {exit : Option PortId} {m m' : Machine σ}
    (h : engine.invoke s host n m = some (.ok exit, m')) : s.graph.Filled n m'.memory.scopes := by
  obtain ⟨node, m₁, hfound, -⟩ := Exec.bind_eq_ok.1 h
  have hn := getNode_eq_ok.1 (Exec.ofGraph_eq_ok.1 hfound).1
  obtain ⟨hnode, rfl⟩ := node?_mem hn
  cases hkind : node.kind with
  | entry =>
    obtain ⟨_, m₂, hok, hfilled⟩ := invoke_entry engine host hn hkind m
    obtain ⟨-, rfl⟩ := Prod.mk.inj (Option.some.inj (h.symm.trans hok))
    exact hfilled
  | result =>
    intro node' hnode' p hp
    obtain rfl := Option.some.inj (hn.symm.trans hnode')
    have hnone := (hs.valid.shaped node hnode List.not_mem_nil).outputs
    simp only [wantedOutputs, hkind, List.map_eq_nil_iff] at hnone
    exact absurd (hnone ▸ hp) List.not_mem_nil
  | action d =>
    obtain ⟨decl, hd⟩ := hs.kinds node hnode d hkind
    obtain ⟨b, hb, -⟩ := hd.exists_method
    obtain ⟨m₂, hbehave, rfl⟩ := invoke_eq_some hn h
    simp only [behave, hkind, hb] at hbehave
    exact (invokeMethod_fills hs.valid hnode hd hkind hb hbehave :)

/-- The body of a reliable kind has values that its outputs take, as all values are converted. -/
theorem upholds_invoke_of_reliable (he : engine.Dependable s) (host : Host σ) (n : NodeId) :
    Upholds (ConformingScopes s.graph) (engine.invoke s host n) fun _ => True := by
  have hD := discipline_conforming hs.valid hs.hook
  refine upholds_invoke hD n fun node d hnode hkind => ?_
  obtain ⟨decl, hd⟩ := hs.kinds node (node?_mem hnode).1 d hkind
  obtain ⟨b, hb, -, hbody, -⟩ := hd.exists_method
  rw [hb]
  refine upholds_invokeMethod hD he.upholds fun args _ => ?_
  refine (upholds_runProgram_ends (hd.1.quiet b.body hbody _)).mono
    fun r _ o _ e _ p port _ hport => ?_
  exact conforms_coerce hs.hook hport e.2

theorem failsOnly_invoke (he : engine.Dependable s) (host : Host σ) {n : NodeId}
    {node : Node Definition} (hn : s.graph.node? n = some node) :
    FailsOnly (ConformingScopes s.graph) s.Fault (engine.invoke s host n) := by
  intro m e m' h hm
  obtain ⟨d, m₁, hkind, hbehave, -⟩ := invoke_eq_error hn h
  obtain ⟨hnode, rfl⟩ := node?_mem hn
  obtain ⟨decl, hd⟩ := hs.kinds node hnode d hkind
  obtain ⟨b, hb, -⟩ := hd.exists_method
  simp only [behave, hkind, hb] at hbehave
  exact failsOnly_invokeMethod hs.valid he hnode hd hkind hs.hook host hb _ e m₁ hbehave hm

theorem failsOnly_follow (he : engine.Dependable s) {p : PortId} {port : PlacedPort}
    (hport : s.graph.port? p = some port) :
    FailsOnly (ConformingScopes s.graph) s.Fault (engine.follow s p) := by
  obtain ⟨node, -, hn⟩ := hs.valid.exists_node_of_port hport
  refine FailsOnly.ofGraph_bind (getPort_eq_ok.2 hport) ?_
  refine FailsOnly.bind (he.fails (.invoke port.node) ⟨node, hn⟩)
    (he.upholds (.invoke port.node)) fun exit _ => ?_
  split
  next next hnext =>
    obtain ⟨x, -, hx⟩ := Option.bind_eq_some_iff.1 hnext
    exact he.fails (.follow next) (hs.valid.wellFormed.port?_nextControl? hx)
  · exact .pure

/-- A step is dependable if its nested steps are. -/
theorem Dependable.step (he : engine.Dependable s) (host : Host σ) :
    Engine.Dependable (Engine.step engine host) s where
  upholds t := by
    cases t with
    | read p => exact upholds_read (discipline_conforming hs.valid hs.hook) he.upholds p
    | follow p => exact upholds_follow he.upholds p
    | invoke n => exact upholds_invoke_of_reliable hs he host n
  fails t ht := by
    cases t with
    | read p =>
      obtain ⟨port, hport, hvalue⟩ := ht
      exact failsOnly_read hs.valid he hport hvalue
    | invoke n =>
      obtain ⟨node, hn⟩ := ht
      exact failsOnly_invoke hs he host hn
    | follow p =>
      obtain ⟨port, hport⟩ := ht
      exact failsOnly_follow hs he hport
  fills {n exit m m'} h := invoke_fills hs h

end Tasks

end Engine

section Runs

variable {s : Setting} (hs : s.Reliable) (host : Host σ)

include hs

/-- The interpreter is dependable at every level. -/
theorem dependable_exec (k : Nat) : (exec host k).Dependable s := by
  induction k with
  | zero => exact ⟨fun _ => .exhausted, fun _ _ _ _ _ h => (nomatch h), fun h => (nomatch h)⟩
  | succ k ih => exact ih.step hs host

/-- All values memoized in a flow over a graph of reliable kinds belong to the types of their ports.
-/
theorem Visited.conforming_of_reliable {m : Machine σ} (hm : Visited s host m) :
    ConformingScopes s.graph m.memory.scopes := by
  induction hm with
  | fresh log state => exact .empty
  | request k hq hr _ ih =>
    have hexec := (dependable_exec hs host k).upholds
    exact (Engine.upholds_answer hexec (fun _ h => h.push) (fun _ h => h.pop) host hq _ _ _ hr ih).1

/-- A run from a node that fails does so for a fault. -/
theorem fault_of_runNode {n : Node Definition} (hn : n ∈ s.graph.nodes) (hkind : n.kind ≠ .entry)
    {k : Nat} {m m' : Machine σ} {e : FlowError} (hm : ConformingScopes s.graph m.memory.scopes)
    (h : (exec host k).runNode s n.id m = some (.error e, m')) : s.Fault e := by
  obtain ⟨p, port, hp, hport, hrole⟩ := hs.valid.exists_entrance hn hkind
  simp only [Engine.runNode, hp, Engine.run, getPort_eq_ok.2 hport, Exec.ofGraph_ok_bind,
    hrole, if_true] at h
  exact (dependable_exec hs host k).fails (.follow p) ⟨port, hport⟩ m e m' h hm

end Runs

end EffectGraph
