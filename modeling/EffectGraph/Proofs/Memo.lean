import EffectGraph.Proofs.Reading
import EffectGraph.Proofs.Transparent

/-!
# Memoization does not show

Two disciplines fill the memory of a flow: nodes that are run publish their outputs, and reads of
values run nodes on demand. Over a graph of transparent kinds each of them memoizes plain values
only. That a memoized value is plain is a discipline in the sense of `Discipline`, also if values
are given for the outputs of Entry, as long as these are in memory (`discipline_plain`). It is
upheld at every level of the interpreter (`upholds_plain_exec`). The main result is that what is
memoized and what is read does not depend on what was asked before (`memoized_eq_plain`).
-/

namespace EffectGraph

open EffectGraph.Graph

/-- What a task is to result in: a read in the plain value of its port. -/
def Task.Good (s : Setting) (t : Task) : t.Result → Prop := t.Meets s.Plain

variable {σ : Type} {s : Setting} {given : Table String Value}

/-! ## Plain arguments -/

theorem Setting.Argument.plain {n : NodeId} {d : PortDecl} {v : Value}
    (h : s.Argument (s.PlainWith given) n d v) :
    ∃ k, s.plainArgument (s.plainWith given k) n d = some v := by
  unfold Setting.Argument at h
  split at h
  next hd =>
    obtain ⟨vs, rfl, hvs⟩ := h
    obtain ⟨k, hk⟩ := Setting.PlainWith.exists_mapM hvs
    exact ⟨k, by simp [Setting.plainArgument, hd, hk]⟩
  next hd =>
    obtain ⟨p, hp, k, hk⟩ := h
    exact ⟨k, by simp [Setting.plainArgument, hd, hp, hk]⟩

theorem Setting.Arguments.plain {node : Node Definition} {ps : List MethodParam}
    {args out : Table String Value} (h : s.Arguments (s.PlainWith given) node ps args out) :
    ∃ k, s.plainArgs (s.plainWith given k) node ps args = some out := by
  induction ps generalizing args with
  | nil =>
    obtain rfl := h
    exact ⟨0, rfl⟩
  | cons p ps ih =>
    cases p with
    | input d =>
      obtain ⟨v, hv, hrest⟩ := h
      obtain ⟨j, hj⟩ := hv.plain
      obtain ⟨k, hk⟩ := ih hrest
      -- The first argument and the others may be had at different levels.
      have hfirst := (Setting.plainWith_mono (Nat.le_max_left j k)).argument hj
      have hrest := (Setting.plainWith_mono (Nat.le_max_right j k)).args hk
      exact ⟨max j k, Option.bind_eq_some_iff.2 ⟨v, hfirst, hrest⟩⟩
    | const d => exact ih h
    | out d => exact ih h
    | branch d => exact ih h
    | ambient name context => exact ih h

/-! ## Plain outputs -/

/-- Values are given for value outputs only. -/
theorem givenAt_of_role {p : PortId} {port : PlacedPort} (hport : s.graph.port? p = some port)
    (hrole : port.role ≠ .valueOutput) : s.givenAt given p = none := by
  refine Option.eq_none_iff_forall_ne_some.2 fun v hv => ?_
  obtain ⟨port', node, w, hport', -, -, hrole', -⟩ := Setting.givenAt_eq_some.1 hv
  obtain rfl := Option.some.inj (hport.symm.trans hport')
  exact hrole hrole'

/-- Values are given for outputs of Entry only. -/
theorem givenAt_of_kind {p : PortId} {port : PlacedPort} (hport : s.graph.port? p = some port)
    {node : Node Definition} (hnode : s.graph.node? port.node = some node)
    (hkind : node.kind ≠ .entry) : s.givenAt given p = none := by
  refine Option.eq_none_iff_forall_ne_some.2 fun v hv => ?_
  obtain ⟨port', node', w, hport', hnode', hkind', -⟩ := Setting.givenAt_eq_some.1 hv
  obtain rfl := Option.some.inj (hport.symm.trans hport')
  obtain rfl := Option.some.inj (hnode.symm.trans hnode')
  exact hkind hkind'

/-- Where no value is given the plain value is that of the recursion. -/
theorem plainWith_of_plainPort {p : PortId} {v : Value} (hgiven : s.givenAt given p = none)
    (k : Nat)
    (h : s.plainPort (s.plainWith given k) p = some v) : s.PlainWith given p v := by
  refine ⟨k + 1, ?_⟩
  rw [Setting.plainWith, hgiven]
  exact h

namespace Engine

section Outputs

variable (hg : s.graph.Valid [])

include hg

/-- A port that is found under the name of an output is an output of that name. -/
theorem mem_outputs_of_output? {node : Node Definition} (hnode : node ∈ s.graph.nodes)
    {name : String} {p : PortId} {port : PlacedPort}
    (hp : s.graph.output? node.id name = some p) (hport : s.graph.port? p = some port) :
    ∃ q ∈ node.outputs, q.decl.name = name ∧ port = ⟨node.id, .output, q⟩ := by
  simp only [output?, node?_of_mem hg.ascending hnode, Option.bind_some] at hp
  obtain ⟨q, hq, rfl⟩ := Option.map_eq_some_iff.1 hp
  have hmem := List.mem_of_find?_eq_some hq
  have hsame := hg.wellFormed.port?_portId (output_mem_allPorts hnode hmem)
  exact ⟨q, hmem, by simpa using List.find?_some hq, Option.some.inj (hport.symm.trans hsame)⟩

/-- The value that a node has for a value output is plain there once converted. -/
theorem plain_of_result {node : Node Definition} (hnode : node ∈ s.graph.nodes) {q : Port}
    (hvalue : q.decl.isControl = false) {p : PortId}
    (hport : s.graph.port? p = some ⟨node.id, .output, q⟩) (hgiven : s.givenAt given p = none)
    {k : Nat} {v : Value}
    (hv : s.plainResult (s.plainWith given k) node ⟨node.id, .output, q⟩ = some v) :
    s.PlainWith given p (s.coerce ⟨node.id, .output, q⟩ v) := by
  have hfound := node?_of_mem hg.ascending hnode
  have hrole : PlacedPort.role ⟨node.id, .output, q⟩ = .valueOutput := by
    simp [PlacedPort.role, PortRole.of, hvalue]
  exact plainWith_of_plainPort hgiven k (by simp [Setting.plainPort, hport, hrole, hfound, hv])

/-- An output that a transparent method writes is a value output. -/
theorem isControl_of_outputsOf {node : Node Definition} (hnode : node ∈ s.graph.nodes)
    {d : Definition} (hkind : node.kind = .action d) {m : Method} (hd : d.Transparent m)
    {o : Outcome} {e : String × Value} (he : e ∈ outputsOf m o) {q : Port}
    (hq : q ∈ node.outputs) (hname : q.decl.name = e.1) : q.decl.isControl = false := by
  have hspec : q.spec ∈ s.graph.wantedOutputs node :=
    (hg.shaped node hnode List.not_mem_nil).outputs ▸ List.mem_map_of_mem hq
  obtain ⟨hexit, hcontrol⟩ := hd.values o e he
  simp only [wantedOutputs, hkind] at hspec
  rcases List.mem_cons.1 hspec with hs | hs
  · have hdecl : q.decl = .control exitName := congrArg PortSpec.decl hs
    exact absurd (hname.symm.trans (congrArg PortDecl.name hdecl)) hexit
  · obtain ⟨c, hc, hs⟩ := List.mem_map.1 hs
    have hdecl : c = q.decl := congrArg PortSpec.decl hs
    exact hdecl ▸ hcontrol c hc (hdecl ▸ hname)

/-- What a transparent method leaves for an output of its node is plain there. -/
theorem plain_of_outputsOf {node : Node Definition} (hnode : node ∈ s.graph.nodes)
    {d : Definition} (hkind : node.kind = .action d) {m : Method} (hd : d.Transparent m)
    {args : Table String Value}
    (hargs : s.Arguments (s.PlainWith given) node m.params .empty args) {o : Outcome}
    (ho : (m.body ⟨node.id, args, s.environment⟩).outcome? = some o) {e : String × Value}
    (he : e ∈ outputsOf m o) {p : PortId} {port : PlacedPort}
    (hp : s.graph.output? node.id e.1 = some p) (hport : s.graph.port? p = some port) :
    s.PlainWith given p (s.coerce port e.2) := by
  obtain ⟨k, hk⟩ := hargs.plain
  obtain ⟨q, hq, hname, rfl⟩ := mem_outputs_of_output? hg hnode hp hport
  have hgiven : s.givenAt given p = none :=
    givenAt_of_kind hport (node?_of_mem hg.ascending hnode) (by simp [hkind])
  refine plain_of_result hg hnode (isControl_of_outputsOf hg hnode hkind hd he hq hname) hport
    hgiven (k := k) ?_
  simp [Setting.plainResult, hkind, hd.behaviour, Setting.plainOutput, hk, ho, hname,
    lookup_of_mem (hd.distinct o) he]

/-- An output of Entry for which nothing is given has the default of its type. -/
theorem plain_of_entry {node : Node Definition} (hnode : node ∈ s.graph.nodes)
    (hkind : node.kind = .entry) {q : Port} (hq : q ∈ node.outputs)
    (hvalue : q.decl.isControl = false)
    (hgiven : s.givenAt given (s.graph.portId q.index) = none) :
    s.PlainWith given (s.graph.portId q.index) q.decl.type.default := by
  have hport := hg.wellFormed.port?_portId (output_mem_allPorts hnode hq)
  have hplain := plain_of_result hg hnode hvalue hport hgiven (k := 0) (v := q.decl.type.default)
    (by simp [Setting.plainResult, hkind])
  rwa [Setting.coerce, Value.convert_default] at hplain

end Outputs

/-- A quiet program ends with what it leaves behind in the absence of a flow. -/
theorem upholds_runProgram {I : Scopes → Prop} {engine : Engine σ} {host : Host σ}
    {x : Program (Except BodyError Outcome)} (hx : x.Quiet) :
    Upholds I (engine.runProgram s host x) fun r => ∀ o, r = .ok o → x.outcome? = some o := by
  induction hx with
  | pure a =>
    refine .pure fun o ho => ?_
    rw [ho]
    rfl
  | log _ ih => exact Upholds.bind .emit fun _ _ => ih

end Engine

/-! ## The interpreter -/

/-- A memory of plain values is a discipline if it holds a value wherever one is given. -/
theorem discipline_plain (hg : s.graph.Valid []) {I : Scopes → Prop}
    (hfound : ∀ {scopes p v}, I scopes → scopes.find? p = some v → s.PlainWith given p v)
    (hkept : ∀ {scopes p v}, I scopes → s.PlainWith given p v → I (scopes.set p v))
    (hfilled : ∀ {scopes p}, I scopes → scopes.find? p = none → s.givenAt given p = none) :
    Discipline s I (s.PlainWith given) where
  found := hfound
  kept hI hv _ := hkept hI hv
  pulled {p port q v} hport hrole hsource hv := by
    obtain ⟨k, hk⟩ := hv
    refine plainWith_of_plainPort (givenAt_of_role hport (by simp [hrole])) k ?_
    simp [Setting.plainPort, hport, hrole, hsource, hk]
  unconnected {p port} hport hrole hsource := by
    refine plainWith_of_plainPort (givenAt_of_role hport (by simp [hrole])) 0 ?_
    simp [Setting.plainPort, hport, hrole, hsource]
  entry {scopes node q} hI hnode hkind hq hvalue hnone :=
    Engine.plain_of_entry hg hnode hkind hq hvalue (hfilled hI hnone)

/-- The interpreter upholds a discipline at every level if what transparent methods leave for their
outputs has the property once converted. -/
theorem upholds_exec {I : Scopes → Prop} {P : PortId → Value → Prop} (hD : Discipline s I P)
    (hkinds : ∀ n ∈ s.graph.nodes, ∀ d, n.kind = .action d → ∃ m, d.Transparent m)
    (hmethod : ∀ node ∈ s.graph.nodes, ∀ d, node.kind = .action d → ∀ m, d.Transparent m →
      ∀ args, s.Arguments P node m.params .empty args → ∀ o,
        (m.body ⟨node.id, args, s.environment⟩).outcome? = some o →
        ∀ e ∈ Engine.outputsOf m o, ∀ p port, s.graph.output? node.id e.1 = some p →
          s.graph.port? p = some port → P p (s.coerce port e.2))
    (host : Host σ) (n : Nat) : ∀ t, Upholds I (exec host n s t) (t.Meets P) := by
  induction n with
  | zero => exact fun t => .exhausted
  | succ n ih =>
    intro t
    cases t with
    | read p => exact Engine.upholds_read hD ih p
    | follow p => exact Engine.upholds_follow ih p
    | invoke n =>
      refine Engine.upholds_invoke hD n fun node d hnode hkind => ?_
      have hmem := (node?_mem hnode).1
      obtain ⟨m, hd⟩ := hkinds node hmem d hkind
      rw [hd.behaviour]
      refine Engine.upholds_invokeMethod hD ih fun args hargs => ?_
      exact (Engine.upholds_runProgram (hd.quiet _)).mono fun r hr o ho =>
        hmethod node hmem d hkind m hd args hargs o (hr o ho)

/-- The interpreter memoizes plain values at every level. -/
theorem upholds_plain_exec (hg : s.graph.Valid [])
    (hkinds : ∀ n ∈ s.graph.nodes, ∀ d, n.kind = .action d → ∃ m, d.Transparent m)
    {I : Scopes → Prop} (hD : Discipline s I (s.PlainWith given)) (host : Host σ) (n : Nat) :
    ∀ t, Upholds I (exec host n s t) (t.Meets (s.PlainWith given)) :=
  upholds_exec hD hkinds (fun _ hnode _ hkind _ hd _ hargs _ ho _ he _ _ hp hport =>
    Engine.plain_of_outputsOf hg hnode hkind hd hargs ho he hp hport) host n

theorem discipline_honest (hg : s.graph.Valid []) : Discipline s (HonestScopes s) s.Plain := by
  have h : Discipline s (HonestScopes s) (s.PlainWith .empty) := discipline_plain hg
    (fun hI hv => by
      rw [Setting.plainWith_empty_eq]
      exact hI.find? hv)
    (fun hI hv => by
      rw [Setting.plainWith_empty_eq] at hv
      exact hI.set hv)
    fun _ _ => Setting.givenAt_empty _
  rwa [Setting.plainWith_empty_eq] at h

/-- The interpreter is sound at every level. -/
theorem sound_exec (hg : s.graph.Valid [])
    (hkinds : ∀ n ∈ s.graph.nodes, ∀ d, n.kind = .action d → ∃ m, d.Transparent m) (host : Host σ)
    (n : Nat) : ∀ t, Sound s (exec host n s t) (t.Good s) := by
  have hD := discipline_honest hg
  rw [← Setting.plainWith_empty_eq] at hD
  have h := upholds_plain_exec hg hkinds hD host n
  rwa [Setting.plainWith_empty_eq] at h

/-- Every request but that to memoize a value is answered soundly. -/
theorem Engine.sound_answer {engine : Engine σ} (he : ∀ t, Sound s (engine s t) (t.Good s))
    (host : Host σ) {q : Request} (hq : ∀ p v, q ≠ .write p v) :
    Sound s (engine.answer s host q) fun _ => True :=
  upholds_answer he (fun _ h => h.push) (fun _ h => h.pop) host hq

/-- The machines that a fresh flow comes to by requests from outside, none of which memoizes a value
of its own. A request may fail, and each may be given another allowance of nested steps. -/
inductive Visited (s : Setting) (host : Host σ) : Machine σ → Prop
  | fresh (log : List Event) (state : σ) : Visited s host ⟨.start .empty, log, state⟩
  | request {m m' : Machine σ} {q : Request} {r : Except FlowError q.Answer} (n : Nat)
    (hq : ∀ p v, q ≠ .write p v) (h : Engine.answer (exec host n) s host q m = some (r, m'))
    (hm : Visited s host m) : Visited s host m'

/-- The kind is one of the standard ones. -/
def Definition.Standard (d : Definition) : Prop := ∃ m ∈ Library.declarations, m.define = .ok d

/-- Memoization does not show. In a flow over a reachable graph whose action nodes are of standard
kinds, every value memoized for a port is its plain value, whatever was asked before, and so is
every value that is read; hence any two reads of a port agree. -/
theorem memoized_eq_plain {K : Definition → Prop} (hg : Reachable K s.graph)
    (hkinds : ∀ n ∈ s.graph.nodes, ∀ d, n.kind = .action d → d.Standard) (host : Host σ) :
    (∀ m, Visited s host m → ∀ f ∈ m.memory.scopes.top :: m.memory.scopes.outer,
      ∀ p v, f.get? p = some v → ∃ k, ∀ j, k ≤ j → s.plainAt j p = some v) ∧
    (∀ m, Visited s host m → ∀ n p v m',
      Engine.answer (exec host n) s host (.read p) m = some (.ok (.ok v), m') →
      ∃ k, ∀ j, k ≤ j → s.plainAt j p = some v) ∧
    ∀ m₁ m₂, Visited s host m₁ → Visited s host m₂ → ∀ n₁ n₂ p v₁ v₂ m₁' m₂',
      Engine.answer (exec host n₁) s host (.read p) m₁ = some (.ok (.ok v₁), m₁') →
      Engine.answer (exec host n₂) s host (.read p) m₂ = some (.ok (.ok v₂), m₂') → v₁ = v₂ := by
  -- All steps are sound, so every memory visited is honest, by induction on the requests.
  have hsound : ∀ n t, Sound s (exec host n s t) (t.Good s) := fun n =>
    sound_exec hg.valid (fun node hnode d hd => by
      obtain ⟨decl, hdecl, hdefine⟩ := hkinds node hnode d hd
      exact Library.transparent hdecl hdefine) host n
  have hhonest : ∀ m, Visited s host m → Honest s m.memory := by
    intro m hm
    induction hm with
    | fresh log state =>
      intro f hf
      obtain rfl := List.mem_singleton.1 hf
      exact honestFrame_empty
    | request n hq h _ ih => exact (Engine.sound_answer (hsound n) host hq _ _ _ h ih).1
  have hread : ∀ m, Visited s host m → ∀ n p v m',
      Engine.answer (exec host n) s host (.read p) m = some (.ok (.ok v), m') → s.Plain p v :=
    fun m hm n p v m' h => ((hsound n (.read p)).attempt m _ m' h (hhonest m hm)).2 _ rfl v rfl
  refine ⟨fun m hm f hf p v hv => (hhonest m hm f hf p v hv).eventually,
    fun m hm n p v m' h => (hread m hm n p v m' h).eventually,
    fun m₁ m₂ hm₁ hm₂ n₁ n₂ p v₁ v₂ m₁' m₂' h₁ h₂ => ?_⟩
  exact (hread m₁ hm₁ n₁ p v₁ m₁' h₁).unique (hread m₂ hm₂ n₂ p v₂ m₂' h₂)

/-- The definition of a declared method that passes the checks. -/
def MethodDecl.kind (m : MethodDecl) : Definition where
  signature := m.signature
  obsoleteNames := m.obsoleteNames
  obsoleteMessage := m.obsoleteMessage
  behaviour := .method ⟨m.params, m.returnDecl?, m.body.getD (.compute fun _ => .ok .empty)⟩

theorem define_eq_kind {m : MethodDecl} {d : Definition} (h : m.define = .ok d) : d = m.kind := by
  obtain ⟨body, hbody, -, rfl⟩ := define_eq_ok.1 h
  simp [MethodDecl.kind, hbody]

/-- An integer that is added to itself. -/
def doubling : Graph Definition :=
  [.addNode (.action Library.integer.kind), .addNode (.action Library.integerOperation.kind),
    .setConst ⟨1⟩ "value" (.int 5), .connect ⟨0, 2⟩ ⟨0, 4⟩, .connect ⟨0, 2⟩ ⟨0, 7⟩].foldl
    Edit.perform (.empty 0 .standard)

theorem standard_doubling :
    ∀ k ∈ [Library.integer.kind, Library.integerOperation.kind], k.Standard := by
  intro k hk
  rcases List.mem_pair.1 hk with rfl | rfl
  · exact ⟨Library.integer, by simp [Library.declarations], rfl⟩
  · exact ⟨Library.integerOperation, by simp [Library.declarations], rfl⟩

theorem reachable_doubling : Reachable Definition.Standard doubling := by
  refine .foldl (fun e he k hk => standard_doubling k ?_) (.blank 0 .standard)
  simp only [List.mem_cons, List.not_mem_nil, or_false] at he
  rcases he with rfl | rfl | rfl | rfl | rfl <;> simp_all [Edit.offers, NodeKind.action?]

/-- A flow over the graph. -/
def doublingFlow : Setting := .top doubling .empty ⟨32, true⟩ .standard

/-- A host without a state that answers with null. -/
def nullHost : Host Unit := fun _ u => (.null, u)

/-- The sum is memoized once it is read. -/
theorem memoized_doubling : ∃ m, Visited doublingFlow nullHost m ∧
    m.memory.scopes.top.get? ⟨0, 6⟩ = some (.int 10) ∧
    ∃ k, ∀ j, k ≤ j → doublingFlow.plainAt j ⟨0, 6⟩ = some (.int 10) := by
  have hkinds : ∀ n ∈ doublingFlow.graph.nodes, ∀ d, n.kind = .action d → d.Standard :=
    fun n hn d hd => (reachable_doubling.invariant.2 n hn).1 d hd
  have hfresh : Visited doublingFlow nullHost ⟨.start .empty, [], ()⟩ := .fresh [] ()
  have hrun : ((Engine.answer (exec nullHost 5) doublingFlow nullHost (.read ⟨0, 6⟩)
      ⟨.start .empty, [], ()⟩).map fun r => r.2.memory.scopes.top.get? ⟨0, 6⟩) =
      some (some (.int 10)) := by
    decide +kernel
  obtain ⟨r, hread, hget⟩ := Option.map_eq_some_iff.1 hrun
  have hm : Visited doublingFlow nullHost r.2 := .request 5 (by simp) hread hfresh
  have hplain := (memoized_eq_plain reachable_doubling hkinds nullHost).1
  exact ⟨r.2, hm, hget, hplain r.2 hm _ (.head _) _ _ hget⟩

end EffectGraph
