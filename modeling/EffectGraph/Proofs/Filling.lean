import EffectGraph.Proofs.Substitution

/-!
# Nodes left filled

A kind is tame (`Definition.Tame`) if its body does not drive the flow that runs it and its outputs
have different names. A node is filled (`Graph.Filled`) if all its value outputs are memoized. For a
node of a tame kind it is enough that the outputs are memoized under the names that the kind writes
(`filled_of_holds`), and a filled node has no output left to be pulled for (`not_filled`). The
standard kinds are tame.
-/

namespace EffectGraph

open EffectGraph.Graph

variable {α : Type}

/-! ## Kinds -/

/-- Whether a request has nodes run or changes the scopes. -/
def Request.drives : Request → Bool
  | read _ | run _ | runNode _ | invoke _ | openScope | closeScope => true
  | write _ _ | peek _ | status | graph | log _ _ | consult _ => false

/-- A program that does not drive the flow that runs it. -/
inductive Program.Passive {α : Type} : Program α → Prop
  | pure (a : α) : Passive (.pure a)
  | ask {q : Request} {next : q.Answer → Program α} (hq : q.drives = false)
    (hnext : ∀ a, Passive (next a)) : Passive (.ask q next)

theorem Program.Quiet.passive {x : Program α} (h : x.Quiet) : x.Passive := by
  induction h with
  | pure a => exact .pure a
  | log _ ih => exact .ask rfl fun _ => ih

/-- The definitions that can be had with bodies that do not drive the flow, with control branches
and with different names for the outputs, none of them that of the implied exit; inside generated
kinds as well. The names of a declared method differ in any case. -/
inductive Definition.Tame : Definition → Prop
  | method {m : MethodDecl} {d : Definition} (h : m.define = .ok d)
    (hbranch : ∀ p, .branch p ∈ m.params → p.isControl = true)
    (hbody : ∀ body, m.body = some body → ∀ c, (body c).Passive) : Tame d
  | generated {s : Signature} {g : Graph Definition} {d : Definition}
    (h : Definition.generated s g = .ok d) (hnames : (exitName :: s.outputs.map (·.name)).Nodup)
    (hg : Reachable Tame g) : Tame d
  | obsoleteNames {d : Definition} (names : List String) (h : Tame d) :
    Tame (d.withObsoleteNames names)
  | obsoleteMessage {d : Definition} (message : Option String) (h : Tame d) :
    Tame (d.withObsoleteMessage message)

/-- What is known of a tame definition. -/
structure Definition.Managed (d : Definition) : Prop where
  names : (exitName :: d.signature.outputs.map (·.name)).Nodup
  method : ∀ m, d.behaviour = .method m → (∀ c, (m.body c).Passive) ∧
    ∀ p ∈ d.signature.outputs, p.isControl = false → p ∈ m.written
  generated : ∀ inner, d.behaviour = .generated inner → Reachable Definition.Tame inner

/-- A value output of a declared method is one that the method writes. -/
theorem mem_written {m : MethodDecl} (hbranch : ∀ p, .branch p ∈ m.params → p.isControl = true)
    (body : Body) {p : PortDecl} (hp : p ∈ m.signature.outputs) (hvalue : p.isControl = false) :
    p ∈ Method.written ⟨m.params, m.returnDecl?, body⟩ := by
  rcases List.mem_append.1 hp with hp | hp
  · obtain ⟨q, hq, hqp⟩ := List.mem_filterMap.1 hp
    refine List.mem_append_left _ (List.mem_filterMap.2 ⟨q, hq, ?_⟩)
    cases q with
    | out d => exact hqp
    | branch d =>
      obtain rfl := Option.some.inj hqp
      simp [hbranch d hq] at hvalue
    | input d => simp [MethodParam.output?] at hqp
    | const d => simp [MethodParam.output?] at hqp
    | ambient name context => simp [MethodParam.output?] at hqp
  · exact List.mem_append_right _ hp

theorem Definition.Tame.managed : ∀ {d : Definition}, d.Tame → d.Managed
  | d, .method h hbranch hbody => by
    have hnames := (define_addressable h).outputs
    obtain ⟨body, hsome, -, rfl⟩ := define_eq_ok.1 h
    refine ⟨hnames, fun m hm => ?_, fun inner hinner => by simp at hinner⟩
    obtain rfl := Behaviour.method.inj hm
    exact ⟨hbody body hsome, fun p hp hvalue => mem_written hbranch body hp hvalue⟩
  | _, .generated (s := s) (g := g) h hnames hg => by
    obtain ⟨inner, hinner, rfl, -⟩ := generated_eq_ok h
    refine ⟨hnames, fun m hm => by simp at hm, fun inner' hinner' => ?_⟩
    obtain rfl := Behaviour.generated.inj hinner'
    exact hg.setSignature hinner
  | _, .obsoleteNames _ h =>
    let ⟨hnames, hmethod, hgenerated⟩ := Tame.managed h
    ⟨hnames, hmethod, hgenerated⟩
  | _, .obsoleteMessage _ h =>
    let ⟨hnames, hmethod, hgenerated⟩ := Tame.managed h
    ⟨hnames, hmethod, hgenerated⟩

/-! ## Filled nodes -/

theorem Scopes.isSome_find?_set {scopes : Scopes} {p : PortId}
    (h : (scopes.find? p).isSome = true) (q : PortId) (v : Value) :
    ((scopes.set q v).find? p).isSome = true := by
  rw [find?_set]
  split
  · rfl
  · exact h

/-- Every value output of a node is memoized. -/
def Graph.Filled (g : Graph Definition) (n : NodeId) (scopes : Scopes) : Prop :=
  ∀ node, g.node? n = some node → ∀ p ∈ node.outputs, p.decl.isControl = false →
    (scopes.find? (g.portId p.index)).isSome = true

/-- The outputs of a node by some names are memoized. -/
def Graph.Holds (g : Graph Definition) (n : NodeId) (names : List String) (scopes : Scopes) :
    Prop :=
  ∀ name ∈ names, ∀ p, g.output? n name = some p → (scopes.find? p).isSome = true

section Filled

variable {g : Graph Definition} {n : NodeId} {scopes : Scopes}

theorem Graph.Filled.set (h : g.Filled n scopes) (p : PortId) (v : Value) :
    g.Filled n (scopes.set p v) := fun node hnode q hq hvalue =>
  Scopes.isSome_find?_set (h node hnode q hq hvalue) p v

theorem Graph.Holds.set {names : List String} (h : g.Holds n names scopes) (p : PortId)
    (v : Value) :
    g.Holds n names (scopes.set p v) := fun name hname q hq =>
  Scopes.isSome_find?_set (h name hname q hq) p v

theorem Graph.Holds.cons {name : String} {names : List String} (h : g.Holds n [name] scopes)
    (h' : g.Holds n names scopes) : g.Holds n (name :: names) scopes := by
  intro name' hname
  rcases List.mem_cons.1 hname with rfl | hname
  · exact h name' (.head _)
  · exact h' name' hname

/-- A node of a kind whose outputs have different names is filled if the outputs of these names are
memoized. -/
theorem filled_of_holds (hg : g.Valid []) {node : Node Definition} (hnode : node ∈ g.nodes)
    {d : Definition} (hkind : node.kind = .action d) (hd : d.Managed) {names : List String}
    (hnames : ∀ p ∈ d.signature.outputs, p.isControl = false → p.name ∈ names)
    (h : g.Holds node.id names scopes) : g.Filled node.id scopes := by
  have hshaped := hg.shaped node hnode List.not_mem_nil
  have hnodup := hshaped.nodup_names hkind hd.names
  intro node' hnode' p hp hvalue
  obtain rfl := Option.some.inj ((node?_of_mem hg.ascending hnode).symm.trans hnode')
  have hmem : p.decl ∈ .control exitName :: d.signature.outputs :=
    hshaped.decl_outputs hkind ▸ List.mem_map_of_mem hp
  rcases List.mem_cons.1 hmem with hcontrol | hmem
  · simp [hcontrol, PortDecl.control] at hvalue
  · refine h p.decl.name (hnames _ hmem hvalue) _ ?_
    have hfind : node.outputs.find? (fun q => q.decl.name = p.decl.name) = some p :=
      find?_of_nodup_map hnodup hp fun q => decide_eq_true_iff
    simp [output?, hnode', hfind]

/-- A node one of whose value outputs is not memoized is not filled. -/
theorem not_filled (hg : g.Valid []) {p : PortId} {port : PlacedPort}
    (hport : g.port? p = some port)
    (hrole : port.role = .valueOutput) (hnone : scopes.find? p = none) :
    ¬ g.Filled port.node scopes := by
  intro h
  obtain ⟨rfl, node, hnode, hside⟩ := hg.wellFormed.toConsistent.listed p port hport
  rcases hside with ⟨hdir, -⟩ | ⟨hdir, hmem⟩
  · cases hc : port.port.decl.isControl <;> simp [PlacedPort.role, hdir, hc, PortRole.of] at hrole
  · have hvalue : port.port.decl.isControl = false := by
      cases hc : port.port.decl.isControl
      · rfl
      · simp [PlacedPort.role, hdir, hc, PortRole.of] at hrole
    have hsome := h node hnode port.port hmem hvalue
    rw [hnone] at hsome
    simp at hsome

end Filled

/-! ## Standard kinds -/

theorem Library.isControl_of_branch {m : MethodDecl} (hm : m ∈ Library.declarations)
    {p : PortDecl} (hp : .branch p ∈ m.params) : p.isControl = true := by
  have hall : ∀ m ∈ Library.declarations, ∀ q ∈ m.params, q.out? = none →
      ∀ d, q.output? = some d → d.isControl = true := by
    decide
  exact hall m hm _ hp rfl p rfl

theorem Definition.Standard.tame {d : Definition} : d.Standard → d.Tame
  | ⟨_, hm, hd⟩ => .method hd (fun _ hp => Library.isControl_of_branch hm hp)
      fun _ hbody c => (Library.quiet_of_mem hm hbody c).passive

end EffectGraph
