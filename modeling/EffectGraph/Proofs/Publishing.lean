import EffectGraph.Proofs.Interfaces

/-!
# What a failed invocation has published

While a node is being run nothing is memoized for its ports but what it publishes itself, if the
bodies of methods only read (`Definition.Discreet`): the node is not pulled again, and other nodes
publish at their own outputs (`Preserves`). So what a failed invocation leaves behind depends on
where it breaks off (`Setting.BreaksOff`). A method publishes when its body has ended, and only the
branch that it has chosen may be missing then. A generated node publishes its outputs one after
another, between the reads of the inner flow, and one of these may fail when others are published
(`invoke_breaks_off`).
-/

namespace EffectGraph

open EffectGraph.Graph

variable {σ α β : Type}

/-! ## Bodies that only read -/

/-- Whether a request memoizes values, has nodes run other than for a value, or changes the scopes.
-/
def Request.meddles : Request → Bool
  | write _ _ | run _ | runNode _ | invoke _ | openScope | closeScope => true
  | read _ | peek _ | status | graph | log _ _ | consult _ => false

/-- A program that only reads from the flow that runs it. -/
inductive Program.Discreet {α : Type} : Program α → Prop
  | pure (a : α) : Discreet (.pure a)
  | ask {q : Request} {next : q.Answer → Program α} (hq : q.meddles = false)
    (hnext : ∀ a, Discreet (next a)) : Discreet (.ask q next)

/-- The definitions that can be had with bodies that only read. What kinds there are inside of
generated kinds does not matter. -/
inductive Definition.Discreet : Definition → Prop
  | method {m : MethodDecl} {d : Definition} (h : m.define = .ok d)
    (hbody : ∀ body, m.body = some body → ∀ c, (body c).Discreet) : Discreet d
  | generated {K : Definition → Prop} {s : Signature} {g : Graph Definition} {d : Definition}
    (h : Definition.generated s g = .ok d) (hg : Reachable K g) : Discreet d
  | obsoleteNames {d : Definition} (names : List String) (h : Discreet d) :
    Discreet (d.withObsoleteNames names)
  | obsoleteMessage {d : Definition} (message : Option String) (h : Discreet d) :
    Discreet (d.withObsoleteMessage message)

/-- What is known of a discreet definition. -/
structure Definition.Orderly (d : Definition) : Prop where
  reads : ∀ b, d.behaviour = .method b → ∀ c, (b.body c).Discreet
  writes : ∀ b, d.behaviour = .method b → b.written ⊆ d.signature.outputs
  valid : ∀ inner, d.behaviour = .generated inner → inner.Valid []
  signed : ∀ inner, d.behaviour = .generated inner → inner.signature = some d.signature

theorem Program.Quiet.discreet {x : Program α} (h : x.Quiet) : x.Discreet := by
  induction h with
  | pure a => exact .pure a
  | log _ ih => exact .ask rfl fun _ => ih

/-- The standard kinds are discreet. -/
theorem Definition.Standard.discreet {d : Definition} : d.Standard → d.Discreet
  | ⟨_, hm, hd⟩ => .method hd fun _ hbody c => (Library.quiet_of_mem hm hbody c).discreet

theorem Definition.Discreet.orderly {d : Definition} (h : d.Discreet) : d.Orderly := by
  induction h with
  | @method m d h hbody =>
    obtain ⟨body, hsome, -, rfl⟩ := define_eq_ok.1 h
    refine ⟨fun b hb => ?_, fun b hb => ?_, fun _ h => by simp at h, fun _ h => by simp at h⟩ <;>
      obtain rfl := Behaviour.method.inj hb
    · exact hbody body hsome
    · exact (written_sublist m body).subset
  | generated h hg =>
    obtain ⟨inner, hinner, rfl, -⟩ := generated_eq_ok h
    refine ⟨fun _ h => by simp at h, fun _ h => by simp at h, fun g hg' => ?_, fun g hg' => ?_⟩ <;>
      obtain rfl := Behaviour.generated.inj hg'
    · exact hg.valid.setSignature hinner
    · exact setSignature_signature hinner
  | obsoleteNames _ _ ih => exact ⟨ih.reads, ih.writes, ih.valid, ih.signed⟩
  | obsoleteMessage _ _ ih => exact ⟨ih.reads, ih.writes, ih.valid, ih.signed⟩

/-! ## What is preserved -/

/-- For the ports of the nodes with a property the same is memoized. -/
def Graph.Same (g : Graph Definition) (P : NodeId → Prop) (scopes scopes' : Scopes) : Prop :=
  ∀ q ∈ g.allPorts, P q.node →
    scopes'.find? (g.portId q.port.index) = scopes.find? (g.portId q.port.index)

section Same

variable {g : Graph Definition} {P : NodeId → Prop} {scopes scopes' scopes'' : Scopes}

theorem Graph.Same.rfl : g.Same P scopes scopes := fun _ _ _ => Eq.refl _

theorem Graph.Same.trans (h : g.Same P scopes scopes') (h' : g.Same P scopes' scopes'') :
    g.Same P scopes scopes'' := fun q hq hP => (h' q hq hP).trans (h q hq hP)

theorem Graph.Same.mono {P' : NodeId → Prop} (h : g.Same P scopes scopes')
    (hP : ∀ n, P' n → P n) : g.Same P' scopes scopes' := fun q hq hn => h q hq (hP _ hn)

/-- Different ports have different ids. -/
theorem Graph.WellFormed.portId_ne (hg : g.WellFormed) {q r : PlacedPort} (hq : q ∈ g.allPorts)
    (hr : r ∈ g.allPorts) (hne : q ≠ r) : g.portId q.port.index ≠ g.portId r.port.index :=
  fun he => hne (hg.port_inj hq hr (congrArg (·.index) he))

theorem Graph.WellFormed.same_set (hg : g.WellFormed) {q : PlacedPort} (hq : q ∈ g.allPorts)
    (hP : ¬ P q.node) (v : Value) : g.Same P scopes (scopes.set (g.portId q.port.index) v) := by
  intro r hr hn
  rw [Scopes.find?_set, if_neg (hg.portId_ne hr hq fun he => hP (he ▸ hn))]

end Same

/-- A step that, if certain nodes are being run, leaves them being run and preserves what is
memoized for the ports of the nodes with a property, however it ends. -/
def Preserves (g : Graph Definition) (rs : List NodeId) (P : NodeId → Prop) (x : Exec σ α) : Prop :=
  ∀ m r m', x m = some (r, m') → m.memory.running = rs →
    m'.memory.running = rs ∧ g.Same P m.memory.scopes m'.memory.scopes

namespace Preserves

variable {g : Graph Definition} {rs : List NodeId} {n : NodeId} {P P' : NodeId → Prop}
  {x : Exec σ α} {f : α → Exec σ β}

theorem mono (h : Preserves g rs P x) (hP : ∀ n, P' n → P n) : Preserves g rs P' x :=
  fun m r m' hx hm => (h m r m' hx hm).imp_right fun hsame => hsame.mono hP

/-- A step that leaves the memory as it is. -/
theorem of_memory_eq (h : ∀ m r m', x m = some (r, m') → m'.memory = m.memory) :
    Preserves g rs P x := by
  intro m r m' hx hm
  rw [h m r m' hx]
  exact ⟨hm, .rfl⟩

theorem ofExcept {e : Except FlowError α} : Preserves (σ := σ) g rs P (.ofExcept e) :=
  of_memory_eq fun m r m' hx => by
    obtain ⟨-, rfl⟩ := Prod.mk.inj (Option.some.inj hx)
    rfl

theorem pure {a : α} : Preserves (σ := σ) g rs P (Pure.pure a) := ofExcept (e := .ok a)

theorem fail {e : FlowError} : Preserves (α := α) (σ := σ) g rs P (.fail e) :=
  ofExcept (e := .error e)

theorem exhausted : Preserves (α := α) (σ := σ) g rs P .exhausted :=
  fun m r m' hx => by simp [Exec.exhausted] at hx

theorem emit {e : Event} : Preserves (σ := σ) g rs P (.emit e) :=
  of_memory_eq fun m r m' hx => by
    obtain ⟨-, rfl⟩ := Prod.mk.inj (Option.some.inj hx)
    rfl

theorem bind (hx : Preserves g rs P x) (hf : ∀ a, Preserves g rs P (f a)) :
    Preserves g rs P (x >>= f) := by
  intro m r m' hb hm
  change Exec.bind x f m = some (r, m') at hb
  unfold Exec.bind at hb
  split at hb
  · simp at hb
  next e m₁ h₁ =>
    obtain ⟨-, rfl⟩ := Prod.mk.inj (Option.some.inj hb)
    exact hx _ _ _ h₁ hm
  next a m₁ h₁ =>
    obtain ⟨hm₁, hsame⟩ := hx _ _ _ h₁ hm
    exact (hf a _ _ _ hb hm₁).imp_right hsame.trans

theorem closed : Exec.Closed fun x : Exec σ _ => Preserves g rs P x :=
  ⟨fun _ => pure, fun _ => ofExcept, fun hx hf => bind hx hf⟩

theorem ofGraph_bind {e : Except GraphError α} (h : ∀ a, e = .ok a → Preserves g rs P (f a)) :
    Preserves g rs P (Exec.ofGraph e >>= f) := by
  cases e with
  | error e =>
    refine of_memory_eq fun m r m' hx => ?_
    obtain ⟨-, rfl⟩ := Prod.mk.inj (Option.some.inj hx)
    rfl
  | ok a => exact h a rfl

/-- A look at the nodes being run shows those that are known to be. -/
theorem running_bind {f : List NodeId → Exec σ α} (h : Preserves g rs P (f rs)) :
    Preserves g rs P (Exec.inspect (·.running) >>= f) := by
  intro m r m' hx hm
  rw [Exec.inspect_bind, hm] at hx
  exact h m r m' hx hm

theorem peek (p : PortId) : Preserves (σ := σ) g rs P (.peek p) :=
  of_memory_eq fun m r m' hx => by
    obtain ⟨-, rfl⟩ := Prod.mk.inj (Option.some.inj hx)
    rfl

theorem attempt (h : Preserves g rs P x) : Preserves g rs P (.attempt x) := by
  intro m r m' hx hm
  unfold Exec.attempt at hx
  split at hx
  · simp at hx
  next r₁ m₁ h₁ =>
    obtain ⟨-, rfl⟩ := Prod.mk.inj (Option.some.inj hx)
    exact h _ _ _ h₁ hm

theorem memoize (hg : g.WellFormed) {q : PlacedPort} (hq : q ∈ g.allPorts) (hP : ¬ P q.node)
    (v : Value) : Preserves (σ := σ) g rs P (.memoize (g.portId q.port.index) v) := by
  intro m r m' hx hm
  obtain ⟨-, rfl⟩ := Prod.mk.inj (Option.some.inj hx)
  exact ⟨hm, hg.same_set hq hP v⟩

theorem running (h : Preserves g (n :: rs) P x) : Preserves g rs P (.running n x) := by
  intro m r m' hx hm
  rw [Exec.running_eq] at hx
  obtain ⟨⟨r₁, m₁⟩, h₁, he⟩ := Option.map_eq_some_iff.1 hx
  obtain ⟨-, rfl⟩ := Prod.mk.inj he
  obtain ⟨hm₁, hsame⟩ := h _ _ _ h₁ (congrArg (n :: ·) hm)
  exact ⟨congrArg List.tail hm₁, hsame⟩

/-- A step in the memory of another flow does not concern the present flow. -/
theorem within {memory : Memory} : Preserves g rs P (.within memory x) :=
  of_memory_eq fun m r m' hx => by
    unfold Exec.within at hx
    split at hx
    · simp at hx
    all_goals
      obtain ⟨-, rfl⟩ := Prod.mk.inj (Option.some.inj hx)
      rfl

end Preserves

/-! ## Steps that preserve -/

namespace Engine

variable {engine : Engine σ} {s : Setting} {rs : List NodeId} {n : NodeId} {P : NodeId → Prop}

theorem preserves_read (hread : ∀ p, Preserves s.graph rs (· ∈ rs) (engine s (.read p)))
    (hinvoke : ∀ n, Preserves s.graph rs (fun k => k ∈ rs ∧ k ≠ n) (engine s (.invoke n)))
    (p : PortId) : Preserves s.graph rs (· ∈ rs) (engine.read s p) := by
  refine Preserves.bind (.peek p) fun o => ?_
  cases o with
  | some v => exact .pure
  | none =>
    refine Preserves.ofGraph_bind fun port _ => ?_
    split
    · split
      · exact Preserves.bind (hread _) fun _ => .pure
      · exact .pure
    -- A node that is being run is not run again.
    · refine Preserves.running_bind ?_
      split
      · exact .fail
      next hnot =>
        refine Preserves.bind ((hinvoke port.node).mono fun k hk => ⟨hk, ?_⟩) fun _ => ?_
        · rintro rfl
          simp [hk] at hnot
        · refine Preserves.bind (.peek p) fun o => ?_
          cases o with
          | some v => exact .pure
          | none => exact Preserves.bind .emit fun _ => .fail
    · exact .fail

theorem preserves_answer (hread : ∀ p, Preserves s.graph rs P (engine s (.read p))) (host : Host σ)
    {q : Request} (hq : q.meddles = false) : Preserves s.graph rs P (engine.answer s host q) := by
  cases q with
  | read p => exact (hread p).attempt
  | write | run | runNode | invoke | openScope | closeScope => simp [Request.meddles] at hq
  | _ =>
    refine .of_memory_eq fun m r m' hx => ?_
    obtain ⟨-, rfl⟩ := Prod.mk.inj (Option.some.inj hx)
    rfl

theorem preserves_runProgram (hread : ∀ p, Preserves s.graph rs P (engine s (.read p)))
    (host : Host σ) {x : Program α} (hx : x.Discreet) :
    Preserves s.graph rs P (engine.runProgram s host x) := by
  induction hx with
  | pure a => exact .pure
  | ask hq _ ih => exact Preserves.bind (preserves_answer hread host hq) ih

theorem preserves_blame {define : String} {e : BodyError} :
    Preserves (α := α) (σ := σ) s.graph rs P (blame s n define e) := by
  cases e with
  | flow e => exact .fail
  | action e =>
    simp only [blame]
    split
    · exact Preserves.bind .emit fun _ => .fail
    · exact .fail

section Outputs

variable (hg : s.graph.WellFormed) (hn : ¬ P n)

include hg hn

theorem preserves_publish (name : String) (v : Value) :
    Preserves (σ := σ) s.graph rs P (publish s n name v) := by
  refine Preserves.ofGraph_bind fun p hp => Preserves.ofGraph_bind fun port _ => ?_
  obtain ⟨q, hq, -, rfl, -, rfl⟩ := output?_eq_some (getOutput_eq_ok.1 hp)
  exact .memoize hg hq hn _

theorem preserves_publishAll (outs : List (String × Value)) :
    Preserves (σ := σ) s.graph rs P (publishAll s n outs) := by
  induction outs with
  | nil => exact .pure
  | cons e es ih => exact Preserves.bind (preserves_publish hg hn e.1 e.2) fun _ => ih

theorem preserves_deliver (child : Setting) (result : NodeId) (ds : List PortDecl)
    (memory : Memory) : Preserves s.graph rs P (engine.deliver s child n result ds memory) := by
  induction ds generalizing memory with
  | nil => exact .pure
  | cons d ds ih =>
    refine Preserves.ofGraph_bind fun p _ => Preserves.bind .within fun r => ?_
    exact Preserves.bind (preserves_publish hg hn d.name r.1) fun _ => ih r.2

theorem preserves_populateEntry {node : Node Definition} (hnode : node ∈ s.graph.nodes)
    (hid : node.id = n) {ps : List Port} (hps : ∀ p ∈ ps, p ∈ node.outputs) :
    Preserves (σ := σ) s.graph rs P (populateEntry s ps) := by
  induction ps with
  | nil => exact .pure
  | cons p ps ih =>
    have hport := output_mem_allPorts hnode (hps p (.head _))
    have hrest := ih fun q hq => hps q (.tail _ hq)
    refine Preserves.bind (.peek _) fun o => ?_
    simp only
    split
    · exact Preserves.bind (.memoize hg hport (by rwa [hid]) _) fun _ => hrest
    · exact hrest

end Outputs

theorem preserves_followEntry {child : Setting} {entry : NodeId} {memory : Memory} :
    Preserves s.graph rs P (engine.followEntry child entry memory) := by
  unfold followEntry
  split
  · exact .pure
  · exact Preserves.bind .within fun _ => .pure

variable (hg : Reachable Definition.Discreet s.graph)
  (hread : ∀ p, Preserves s.graph (n :: rs) (· ∈ n :: rs) (engine s (.read p)))

include hg hread

/-- A node that is run publishes at its own outputs. -/
theorem preserves_invoke (host : Host σ) :
    Preserves s.graph rs (fun k => k ∈ rs ∧ k ≠ n) (engine.invoke s host n) := by
  have hwf := hg.valid.wellFormed
  have hreads : ∀ p, Preserves s.graph (n :: rs) (fun k => k ∈ rs ∧ k ≠ n) (engine s (.read p)) :=
    fun p => (hread p).mono fun k hk => .tail _ hk.1
  have hself : ¬ (n ∈ rs ∧ n ≠ n) := fun h => h.2 rfl
  refine Preserves.ofGraph_bind fun node hnode => Preserves.bind .emit fun _ => .running ?_
  obtain ⟨hmem, rfl⟩ := node?_mem (getNode_eq_ok.1 hnode)
  split
  · exact Preserves.bind (preserves_populateEntry hwf hself hmem rfl fun _ hp => hp) fun _ => .pure
  · exact .pure
  next d hkind =>
    have hd := (hg.invariant.2 node hmem).1 d hkind |>.orderly
    split
    next b hb =>
      refine Preserves.bind (closed_bindParams Preserves.closed hreads node b.params _)
        fun args => ?_
      refine Preserves.bind (preserves_runProgram hreads host (hd.reads b hb _)) fun r => ?_
      cases r with
      | error e => exact preserves_blame
      | ok o => exact Preserves.bind (preserves_publishAll hwf hself _) fun _ => .ofExcept
    next inner hinner =>
      unfold invokeGenerated
      split
      · exact .fail
      · split
        · exact .fail
        · exact .fail
        · refine Preserves.bind (closed_bindInputs Preserves.closed hreads _ _ _ _ _) fun _ => ?_
          refine Preserves.ofGraph_bind fun _ _ => Preserves.bind preserves_followEntry fun _ => ?_
          exact Preserves.bind (preserves_deliver hwf hself _ _ _ _) fun _ => .pure

end Engine

/-- A read preserves what is memoized for the ports of the nodes being run, and the invocation of a
node for those of the others. -/
theorem preserves_exec {s : Setting} (hg : Reachable Definition.Discreet s.graph) (host : Host σ)
    (k : Nat) (rs : List NodeId) :
    (∀ p, Preserves s.graph rs (· ∈ rs) (exec host k s (.read p))) ∧
      ∀ n, Preserves s.graph rs (fun r => r ∈ rs ∧ r ≠ n) (exec host k s (.invoke n)) := by
  induction k generalizing rs with
  | zero => exact ⟨fun _ => .exhausted, fun _ => .exhausted⟩
  | succ k ih =>
    exact ⟨Engine.preserves_read (ih rs).1 (ih rs).2,
      fun n => Engine.preserves_invoke hg (ih (n :: rs)).1 host⟩

/-! ## What has been published -/

/-- The outputs of a node that are found under the names of some declarations are memoized, and for
its other ports the same is memoized as before. -/
structure Graph.Partly (g : Graph Definition) (n : NodeId) (published : List PortDecl)
    (scopes scopes' : Scopes) : Prop where
  written : ∀ c ∈ published, ∃ p, g.output? n c.name = some p ∧ (scopes'.find? p).isSome = true
  kept : ∀ q ∈ g.allPorts, q.node = n →
    (∀ c ∈ published, g.output? n c.name ≠ some (g.portId q.port.index)) →
      scopes'.find? (g.portId q.port.index) = scopes.find? (g.portId q.port.index)

section Partly

variable {g : Graph Definition} {n : NodeId} {published : List PortDecl}
  {scopes scopes' scopes'' : Scopes}

theorem Graph.Same.partly (h : g.Same (· = n) scopes scopes') : g.Partly n [] scopes scopes' :=
  ⟨by simp, fun q hq hn _ => h q hq hn⟩

/-- What is preserved before anything is published. -/
theorem Graph.Partly.after (h : g.Partly n published scopes' scopes'')
    (hsame : g.Same (· = n) scopes scopes') : g.Partly n published scopes scopes'' :=
  ⟨h.written, fun q hq hn hother => (h.kept q hq hn hother).trans (hsame q hq hn)⟩

/-- One output is published before the others. -/
theorem Graph.Partly.cons {p : PortId} {c : PortDecl} {v : Value}
    (h : g.Partly n published (scopes.set p v) scopes') (hp : g.output? n c.name = some p) :
    g.Partly n (c :: published) scopes scopes' := by
  refine ⟨List.forall_mem_cons.2 ⟨⟨p, hp, ?_⟩, h.written⟩, fun q hq hn hother => ?_⟩
  -- A later declaration may have the same name.
  · by_cases hagain : ∃ c' ∈ published, g.output? n c'.name = some p
    · obtain ⟨c', hc', hp'⟩ := hagain
      obtain ⟨p', hp'', hsome⟩ := h.written c' hc'
      obtain rfl := Option.some.inj (hp'.symm.trans hp'')
      exact hsome
    · obtain ⟨q, hq, -, hn, -, rfl⟩ := output?_eq_some hp
      rw [h.kept q hq hn fun c' hc' he => hagain ⟨c', hc', he⟩, Scopes.find?_set, if_pos rfl]
      rfl
  · rw [h.kept q hq hn fun c' hc' => hother c' (.tail _ hc'), Scopes.find?_set, if_neg]
    rintro rfl
    exact hother c (.head _) hp

end Partly

/-- How an invocation that fails breaks off, when it has published some outputs. -/
inductive Setting.BreaksOff (s : Setting) (host : Host σ) (k : Nat) (n : NodeId)
    (published : List PortDecl) (e : FlowError) (m' : Machine σ) : Prop
  /-- Nothing has been published. -/
  | early (hpublished : published = [])
  /-- The body of a method has ended and chosen a branch that the node does not have. -/
  | branch {node : Node Definition} {d : Definition} {b : Method} {j : Nat}
    {args : Table String Value} {o : Outcome} {name : String} {m₁ m₂ : Machine σ}
    (hnode : s.graph.node? n = some node) (hkind : node.kind = .action d)
    (hbehaviour : d.behaviour = .method b) (hpublished : published = b.written)
    (hj : j < k)
    (hbody : (exec host j).runProgram s host (b.body ⟨n, args, s.environment⟩) m₁ =
      some (.ok (.ok o), m₂))
    (hbranch : o.branch = some name)
    (hnone : ∀ p port, s.graph.output? n name = some p → s.graph.port? p = some port →
      port.port.decl.isControl = false)
    (he : e = .graph (.noSuchPort n name none))
  /-- A read of the inner flow fails for one output of a generated kind. -/
  | pull {node : Node Definition} {d : Definition} {inner : Graph Definition} {result : NodeId}
    {c : PortDecl} {rest : List PortDecl} {q : PortId} (hnode : s.graph.node? n = some node)
    (hkind : node.kind = .action d) (hbehaviour : d.behaviour = .generated inner)
    (houtputs : d.signature.outputs = published ++ c :: rest)
    (hresult : inner.resultNode? = some result) (hinput : inner.input? result c.name none = some q)
    (hfails : (s.child inner n).Fails host k (.read q) e m')

namespace Engine

variable {s : Setting} {host : Host σ} {j : Nat} {n : NodeId} {node : Node Definition}
  {d : Definition} {e : FlowError} {m m' : Machine σ}

/-- Published outputs are memoized, and other ports of the node are left alone. -/
theorem publishAll_eq_ok {ds : List PortDecl} {outs : List (String × Value)}
    (hnames : outs.map (·.1) = ds.map (·.name))
    (h : publishAll s n outs m = some (.ok (), m')) :
    s.graph.Partly n ds m.memory.scopes m'.memory.scopes := by
  induction outs generalizing ds m with
  | nil =>
    obtain rfl := List.map_eq_nil_iff.1 hnames.symm
    obtain ⟨-, rfl⟩ := Exec.pure_eq_ok.1 h
    exact Graph.Same.rfl.partly
  | cons out outs ih =>
    obtain ⟨c, ds, rfl, hname, hrest⟩ := List.map_eq_cons_iff.1 hnames.symm
    obtain ⟨_, m₁, hpublish, h⟩ := Exec.bind_eq_ok.1 h
    obtain ⟨p, port, hp, -, rfl⟩ := publish_eq_ok.1 hpublish
    exact (ih hrest.symm h).cons (hname ▸ hp)

theorem publishAll_succeeds (hg : s.graph.Valid []) (hnode : node ∈ s.graph.nodes)
    (hkind : node.kind = .action d) {ds : List PortDecl} (hds : ds ⊆ d.signature.outputs)
    {outs : List (String × Value)} (hnames : outs.map (·.1) = ds.map (·.name)) (m : Machine σ) :
    ∃ m', publishAll s node.id outs m = some (.ok (), m') := by
  induction outs generalizing ds m with
  | nil => exact ⟨m, rfl⟩
  | cons out outs ih =>
    obtain ⟨c, ds, rfl, hname, hrest⟩ := List.map_eq_cons_iff.1 hnames.symm
    obtain ⟨hc, hds⟩ := List.cons_subset.1 hds
    obtain ⟨m₁, hpublish⟩ := publish_succeeds hg hnode hkind hc out.2 m
    obtain ⟨m₂, hothers⟩ := ih hds hrest.symm m₁
    exact ⟨m₂, Exec.bind_eq_ok.2 ⟨(), m₁, (show c.name = out.1 from hname) ▸ hpublish, hothers⟩⟩

/-- Control cannot be followed after a body only if it has chosen a branch under which no control
output is found. -/
theorem branchOf_eq_error (hg : s.graph.Valid []) (hnode : node ∈ s.graph.nodes)
    (hkind : node.kind = .action d) {o : Outcome} {cause : GraphError}
    (h : branchOf s node.id o = .error cause) : ∃ name, o.branch = some name ∧
      (∀ p port, s.graph.output? node.id name = some p → s.graph.port? p = some port →
        port.port.decl.isControl = false) ∧ cause = .noSuchPort node.id name none := by
  unfold branchOf at h
  cases hbranch : o.branch with
  | none =>
    obtain ⟨p, port, hp, hport, hcontrol⟩ := hg.exists_exit hnode hkind
    simp [hbranch, hp, getPort_eq_ok.2 hport, hcontrol, bind, Except.bind] at h
  | some name =>
    simp only [hbranch, Option.getD_some] at h
    cases hfound : s.graph.output? node.id name with
    | none =>
      simp only [hfound, Except.error.injEq] at h
      exact ⟨name, rfl, by simp [hfound], h.symm⟩
    | some p =>
      obtain ⟨port, hmem, -, -, -, rfl⟩ := output?_eq_some hfound
      have hport := hg.wellFormed.port?_portId hmem
      cases hcontrol : port.port.decl.isControl with
      | true => simp [hfound, getPort_eq_ok.2 hport, hcontrol, bind, Except.bind] at h
      | false =>
        simp [hfound, getPort_eq_ok.2 hport, hcontrol, bind, Except.bind] at h
        refine ⟨name, rfl, fun p' port' hp' hport' => ?_, h.symm⟩
        obtain rfl := Option.some.inj (hfound.symm.trans hp')
        obtain rfl := Option.some.inj (hport.symm.trans hport')
        exact hcontrol

/-- The outputs before the one whose read fails have been published. -/
theorem deliver_breaks_off (hg : s.graph.Valid []) (hnode : node ∈ s.graph.nodes)
    (hkind : node.kind = .action d) {child : Setting} (hchild : child.graph.Valid [])
    (hsigned : child.graph.signature = some d.signature) {result : NodeId}
    (hresult : child.graph.resultNode? = some result) {ds : List PortDecl}
    (hds : ds ⊆ d.signature.outputs) {memory : Memory}
    (h : (exec host j).deliver s child node.id result ds memory m = some (.error e, m')) :
    ∃ published c rest q, ds = published ++ c :: rest ∧
      child.graph.input? result c.name none = some q ∧
      child.Fails host (j + 1) (.read q) e m' ∧
      s.graph.Partly node.id published m.memory.scopes m'.memory.scopes := by
  induction ds generalizing memory m with
  | nil => exact absurd h Exec.pure_ne_error
  | cons c ds ih =>
    obtain ⟨hc, hds⟩ := List.cons_subset.1 hds
    obtain ⟨q, hq⟩ := hchild.exists_result_input hsigned hresult hc
    simp only [deliver, getInput_eq_ok.2 hq, Exec.ofGraph_ok_bind] at h
    rcases Exec.bind_eq_error.1 h with h | ⟨⟨v, memory'⟩, m₁, hread, h⟩
    · obtain ⟨m₁, hread, rfl⟩ := Exec.within_eq_error.1 h
      exact ⟨[], c, ds, q, rfl, hq, ⟨j, j.lt_succ_self, _, m₁, hread, rfl, rfl⟩,
        Graph.Same.rfl.partly⟩
    · obtain ⟨m₂, -, -, rfl⟩ := Exec.within_eq_ok.1 hread
      rcases Exec.bind_eq_error.1 h with h | ⟨_, m₃, hpublish, h⟩
      · obtain ⟨m₃, hpublish⟩ := publish_succeeds hg hnode hkind hc v _
        exact absurd (h.symm.trans hpublish) (by simp)
      · obtain ⟨p, port, hp, -, rfl⟩ := publish_eq_ok.1 hpublish
        obtain ⟨published, c', rest, q', rfl, hq', hfails, hpartly⟩ := ih hds h
        exact ⟨c :: published, c', rest, q', rfl, hq', hfails, hpartly.cons hp⟩

section BreaksOff

variable (hg : Reachable Definition.Discreet s.graph) (hnode : s.graph.node? n = some node)
  (hkind : node.kind = .action d) (hn : n ∈ m.memory.running)

include hg hnode hkind hn

theorem invokeMethod_breaks_off {b : Method} (hb : d.behaviour = .method b)
    (h : (exec host j).invokeMethod s host node d.name b m = some (.error e, m')) :
    ∃ published, s.BreaksOff host (j + 1) n published e m' ∧
      s.graph.Partly n published m.memory.scopes m'.memory.scopes := by
  obtain ⟨hmem, rfl⟩ := node?_mem hnode
  have hd := ((hg.invariant.2 node hmem).1 d hkind).orderly
  have hread : ∀ p, Preserves s.graph m.memory.running (· = node.id) (exec host j s (.read p)) :=
    fun p => ((preserves_exec hg host j _).1 p).mono fun k hk => hk ▸ hn
  rcases Exec.bind_eq_error.1 h with h | ⟨args, m₁, hargs, h⟩
  · obtain ⟨-, hsame⟩ := closed_bindParams Preserves.closed hread _ _ _ _ _ _ h rfl
    exact ⟨[], .early rfl, hsame.partly⟩
  obtain ⟨hrunning, hsame⟩ := closed_bindParams Preserves.closed hread _ _ _ _ _ _ hargs rfl
  have hprogram := preserves_runProgram hread host (hd.reads b hb ⟨node.id, args, s.environment⟩)
  rcases Exec.bind_eq_error.1 h with h | ⟨r, m₂, hbody, h⟩
  · exact ⟨[], .early rfl, (hsame.trans (hprogram _ _ _ h hrunning).2).partly⟩
  obtain ⟨hrunning, hbodySame⟩ := hprogram _ _ _ hbody hrunning
  have hsame := hsame.trans hbodySame
  cases r with
  | error cause =>
    exact ⟨[], .early rfl, (hsame.trans (preserves_blame _ _ _ h hrunning).2).partly⟩
  | ok o =>
    have hnames := names_outputsOf b o
    rcases Exec.bind_eq_error.1 h with h | ⟨_, m₃, hpublish, h⟩
    · obtain ⟨m₃, hok⟩ :=
        publishAll_succeeds hg.valid hmem hkind (hd.writes b hb) hnames m₂
      exact absurd (h.symm.trans hok) (by simp)
    · obtain ⟨cause, hcause, rfl, rfl⟩ := Exec.ofGraph_eq_error.1 h
      obtain ⟨name, hbranch, hnone, rfl⟩ := branchOf_eq_error hg.valid hmem hkind hcause
      exact ⟨b.written, .branch hnode hkind hb rfl j.lt_succ_self hbody hbranch hnone rfl,
        (publishAll_eq_ok hnames hpublish).after hsame⟩

theorem invokeGenerated_breaks_off {inner : Graph Definition} (hb : d.behaviour = .generated inner)
    (h : (exec host j).invokeGenerated s node d inner m = some (.error e, m')) :
    ∃ published, s.BreaksOff host (j + 1) n published e m' ∧
      s.graph.Partly n published m.memory.scopes m'.memory.scopes := by
  obtain ⟨hmem, rfl⟩ := node?_mem hnode
  have hd := ((hg.invariant.2 node hmem).1 d hkind).orderly
  have hread : ∀ p, Preserves s.graph m.memory.running (· = node.id) (exec host j s (.read p)) :=
    fun p => ((preserves_exec hg host j _).1 p).mono fun k hk => hk ▸ hn
  have hchild : (s.child inner node.id).graph.Valid [] := hd.valid inner hb
  rcases invokeGenerated_cases h with ⟨-, -, rfl⟩ | ⟨entry, result, -, hresult, h⟩
  · exact ⟨[], .early rfl, Graph.Same.rfl.partly⟩
  rcases Exec.bind_eq_error.1 h with h | ⟨inputs, m₁, hinputs, h⟩
  · obtain ⟨-, hsame⟩ := closed_bindInputs Preserves.closed hread _ _ _ _ _ _ _ _ h rfl
    exact ⟨[], .early rfl, hsame.partly⟩
  obtain ⟨hrunning, hsame⟩ := closed_bindInputs Preserves.closed hread _ _ _ _ _ _ _ _ hinputs rfl
  rcases Exec.bind_eq_error.1 h with h | ⟨frame, m₂, hframe, h⟩
  · obtain ⟨-, -, -, rfl⟩ := Exec.ofGraph_eq_error.1 h
    exact ⟨[], .early rfl, hsame.partly⟩
  obtain ⟨-, rfl⟩ := Exec.ofGraph_eq_ok.1 hframe
  rcases Exec.bind_eq_error.1 h with h | ⟨memory, m₂, hfollow, h⟩
  · exact ⟨[], .early rfl, (hsame.trans (preserves_followEntry _ _ _ h hrunning).2).partly⟩
  have hsame := hsame.trans (preserves_followEntry (P := (· = node.id)) _ _ _ hfollow hrunning).2
  rcases Exec.bind_eq_error.1 h with h | ⟨_, m₃, -, h⟩
  · obtain ⟨published, c, rest, q, houtputs, hq, hfails, hpartly⟩ :=
      deliver_breaks_off hg.valid hmem hkind hchild (hd.signed inner hb) hresult
        (List.Subset.refl _) h
    exact ⟨published, .pull hnode hkind hb houtputs hresult hq hfails, hpartly.after hsame⟩
  · exact absurd h Exec.pure_ne_error

end BreaksOff

end Engine

theorem Setting.BreaksOff.congr {s : Setting} {host : Host σ} {k : Nat} {n : NodeId}
    {published : List PortDecl} {e : FlowError} {m m' : Machine σ}
    (h : s.BreaksOff host k n published e m) (hlog : m.log = m'.log) (hhost : m.host = m'.host) :
    s.BreaksOff host k n published e m' := by
  cases h with
  | early h => exact .early h
  | branch hnode hkind hb hpublished hj hbody hbranch hnone he =>
    exact .branch hnode hkind hb hpublished hj hbody hbranch hnone he
  | pull hnode hkind hb houtputs hresult hinput hfails =>
    exact .pull hnode hkind hb houtputs hresult hinput (hfails.imp le_rfl hlog hhost)

/-- If bodies only read, an invocation that fails leaves the ports of its node as they were, but for
the outputs that it has published when it breaks off: all those of a method whose body has ended
with a branch that the node does not have, or of a generated kind those before the one whose read
fails in the inner flow. -/
theorem invoke_breaks_off {s : Setting} (hg : Reachable Definition.Discreet s.graph)
    (host : Host σ) (k : Nat) (n : NodeId) {e : FlowError} {m m' : Machine σ}
    (h : exec host k s (.invoke n) m = some (.error e, m')) :
    ∃ published, s.BreaksOff host k n published e m' ∧
      s.graph.Partly n published m.memory.scopes m'.memory.scopes := by
  obtain ⟨j, rfl, h⟩ := exec_eq_some h
  cases hnode : s.graph.node? n with
  | none =>
    rcases Exec.bind_eq_error.1 h with h | ⟨node, m₁, h, -⟩
    · obtain ⟨-, -, -, rfl⟩ := Exec.ofGraph_eq_error.1 h
      exact ⟨[], .early rfl, Graph.Same.rfl.partly⟩
    · have hfound := getNode_eq_ok.1 (Exec.ofGraph_eq_ok.1 h).1
      exact nomatch hnode.symm.trans hfound
  | some node =>
    obtain ⟨d, m₁, hkind, hbehave, rfl⟩ := Engine.invoke_eq_error hnode h
    have hinside : ∃ published, s.BreaksOff host (j + 1) n published e m₁ ∧
        s.graph.Partly n published m.memory.scopes m₁.memory.scopes := by
      cases hb : d.behaviour with
      | method b =>
        simp only [Engine.behave, hkind, hb] at hbehave
        exact Engine.invokeMethod_breaks_off (m := m.entering n d.name) hg hnode hkind (.head _) hb
          hbehave
      | generated inner =>
        simp only [Engine.behave, hkind, hb] at hbehave
        exact Engine.invokeGenerated_breaks_off (m := m.entering n d.name) hg hnode hkind (.head _)
          hb hbehave
    obtain ⟨published, hbreaks, hpartly⟩ := hinside
    exact ⟨published, hbreaks.congr rfl rfl, hpartly⟩

/-! ## Kinds that publish and fail -/

/-- A kind with two outputs, of which the second is had from a node that fails. -/
def Signature.half : Signature :=
  ⟨"Half", [], [], [.value "first" .string, .value "second" .any]⟩

def halfInner : Graph Definition :=
  [.setSignature .half, .addNode (.action .refuse), .connect ⟨1, 6⟩ ⟨1, 3⟩].foldl Edit.perform
    (.empty 1 .standard)

def Definition.half : Definition where
  signature := .half
  obsoleteNames := []
  obsoleteMessage := none
  behaviour := .generated ((Edit.setSignature .half).perform halfInner)

/-- A kind whose body chooses a branch that it does not declare. -/
def MethodDecl.stray : MethodDecl where
  name := "Stray"
  returns := some .int
  body := some (.compute fun _ => .ok ((Outcome.returning (.int 7)).take "aside"))

/-- A node of either kind; the first output of the one is joined into a text. -/
def halfFlow : Setting :=
  .top ([.addNode (.action .half), .addNode (.action MethodDecl.stray.kind),
    .addNode (.action Library.concat.kind), .connect ⟨0, 2⟩ ⟨0, 8⟩].foldl Edit.perform
    (.empty 0 .standard)) .empty ⟨32, true⟩ .standard

theorem reachable_halfFlow : Reachable Definition.Discreet halfFlow.graph := by
  have hhalf : Definition.half.Discreet :=
    .generated (K := fun _ => True) (s := .half) (g := halfInner) rfl
      (.foldl (by simp) (.blank 1 .standard))
  have hstray : MethodDecl.stray.kind.Discreet := by
    refine .method (m := .stray) rfl fun body hbody c => ?_
    obtain rfl := Option.some.inj hbody
    exact .pure _
  refine .foldl (fun e he k hk => ?_) (.blank 0 .standard)
  simp only [List.mem_cons, List.not_mem_nil, or_false] at he
  rcases he with rfl | rfl | rfl | rfl
  case inr.inr.inr => simp [Edit.offers] at hk
  all_goals obtain rfl := Option.some.inj hk
  · exact hhalf
  · exact hstray
  · exact standard_concat.discreet

/-- The invocation of the first node breaks off. -/
theorem invoke_breaks_off_halfFlow : ∃ m' published,
    exec nullHost 12 halfFlow (.invoke ⟨1⟩) ⟨.start .empty, [], ()⟩ =
      some (.error (.action ⟨3⟩ "Refuse" (.failed "no")), m') ∧
    halfFlow.BreaksOff nullHost 12 ⟨1⟩ published (.action ⟨3⟩ "Refuse" (.failed "no")) m' ∧
    halfFlow.graph.Partly ⟨1⟩ published (.base .empty) m'.memory.scopes := by
  have hrun : ((exec nullHost 12 halfFlow (.invoke ⟨1⟩) ⟨.start .empty, [], ()⟩).map (·.1)) =
      some (.error (.action ⟨3⟩ "Refuse" (.failed "no"))) := by
    decide +kernel
  obtain ⟨⟨r, m'⟩, hrun, rfl⟩ := Option.map_eq_some_iff.1 hrun
  obtain ⟨published, hbreaks, hpartly⟩ := invoke_breaks_off reachable_halfFlow nullHost 12 ⟨1⟩ hrun
  exact ⟨m', published, hrun, hbreaks, hpartly⟩

/-- The first node has published one of its outputs when it fails, and the second has published its
output. -/
theorem invoke_halfFlow_publishes :
    (∀ p, (Scopes.base .empty).find? p = none) ∧
    (∃ m', exec nullHost 12 halfFlow (.invoke ⟨1⟩) ⟨.start .empty, [], ()⟩ =
        some (.error (.action ⟨3⟩ "Refuse" (.failed "no")), m') ∧
      halfFlow.graph.output? ⟨1⟩ "first" = some ⟨0, 2⟩ ∧
      m'.memory.scopes.find? ⟨0, 2⟩ = some (.string "") ∧
      halfFlow.graph.output? ⟨1⟩ "second" = some ⟨0, 3⟩ ∧
      m'.memory.scopes.find? ⟨0, 3⟩ = none) ∧
    ∃ m', exec nullHost 12 halfFlow (.invoke ⟨2⟩) ⟨.start .empty, [], ()⟩ =
        some (.error (.graph (.noSuchPort ⟨2⟩ "aside" none)), m') ∧
      halfFlow.graph.output? ⟨2⟩ returnName = some ⟨0, 6⟩ ∧
      m'.memory.scopes.find? ⟨0, 6⟩ = some (.int 7) := by
  have hhalf : ((exec nullHost 12 halfFlow (.invoke ⟨1⟩) ⟨.start .empty, [], ()⟩).map fun r =>
      (r.1, r.2.memory.scopes.find? ⟨0, 2⟩, r.2.memory.scopes.find? ⟨0, 3⟩)) =
      some (.error (.action ⟨3⟩ "Refuse" (.failed "no")), some (.string ""), none) := by
    decide +kernel
  have hstray : ((exec nullHost 12 halfFlow (.invoke ⟨2⟩) ⟨.start .empty, [], ()⟩).map fun r =>
      (r.1, r.2.memory.scopes.find? ⟨0, 6⟩)) =
      some (.error (.graph (.noSuchPort ⟨2⟩ "aside" none)), some (.int 7)) := by
    decide +kernel
  obtain ⟨⟨r, m⟩, hhalf, he⟩ := Option.map_eq_some_iff.1 hhalf
  obtain ⟨⟨r', m'⟩, hstray, he'⟩ := Option.map_eq_some_iff.1 hstray
  simp only [Prod.mk.injEq] at he he'
  obtain ⟨rfl, hfirst, hsecond⟩ := he
  obtain ⟨rfl, hresult⟩ := he'
  exact ⟨fun _ => rfl, ⟨m, hhalf, rfl, hfirst, rfl, hsecond⟩, m', hstray, rfl, hresult⟩

end EffectGraph
