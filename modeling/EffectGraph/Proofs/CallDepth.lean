import EffectGraph.Proofs.Attribution
import EffectGraph.Proofs.Declaring
import EffectGraph.Proofs.Dependencies
import EffectGraph.Proofs.Faults

/-!
# The limit of the call depth

A kind has a height (`Definition.height`): how deeply the flows are nested that a run of it may
open. Where the height of a kind is within the limit that is left to a flow, no flow inside fails
for the call depth, unless a body makes up such an error (`Setting.Roomy.excusing`). An invocation
that fails with one has it from the nodes that it depends on, and the last of these is nested too
deeply or has it from a body (`culprit_of_invoke`). Where nothing is left of the limit, a generated
node is refused before anything else is done. The results are put together in `callDepth_exact`.
-/

namespace EffectGraph

open EffectGraph.Graph Relation

variable {σ α β : Type}

/-! ## Heights -/

mutual

/-- How deeply a kind nests flows: not at all if it is a method, and one more than the highest kind
in its inner graph if it is generated. -/
def Definition.height : Definition → Nat
  | ⟨_, _, _, .method _⟩ => 0
  | ⟨_, _, _, .generated ⟨_, nodes, _, _, _, _⟩⟩ => 1 + greatestHeight nodes

/-- The greatest height among the kinds of some nodes. -/
def greatestHeight : List (Node Definition) → Nat
  | [] => 0
  | ⟨_, .action d, _, _, _, _, _, _⟩ :: ns => max d.height (greatestHeight ns)
  | _ :: ns => greatestHeight ns

end

namespace Definition

variable {d f : Definition} {inner : Graph Definition}

/-- A generated kind uses the kinds of the nodes in its inner graph. -/
def Uses (d f : Definition) : Prop :=
  ∃ inner, d.behaviour = .generated inner ∧ ∃ n ∈ inner.nodes, n.kind = .action f

theorem height_of_generated (h : d.behaviour = .generated inner) :
    d.height = 1 + greatestHeight inner.nodes := by
  obtain ⟨_, _, _, _⟩ := d
  subst h
  rfl

theorem height_le_greatest {ns : List (Node Definition)} {n : Node Definition} (hn : n ∈ ns)
    (hkind : n.kind = .action f) : f.height ≤ greatestHeight ns := by
  induction ns with
  | nil => exact absurd hn List.not_mem_nil
  | cons m ns ih =>
    obtain ⟨_, kind, _, _, _, _, _, _⟩ := m
    rcases List.mem_cons.1 hn with rfl | hn
    · obtain rfl := hkind
      rw [greatestHeight]
      exact Nat.le_max_left _ _
    · have hle := ih hn
      cases kind with
      | action k =>
        rw [greatestHeight]
        exact hle.trans (Nat.le_max_right _ _)
      | entry => exact hle
      | result => exact hle

/-- The kinds that a kind uses are lower. -/
theorem Uses.height_lt (h : d.Uses f) : f.height < d.height := by
  obtain ⟨inner, hinner, n, hn, hkind⟩ := h
  have hle := height_le_greatest hn hkind
  rw [height_of_generated hinner]
  omega

end Definition

/-! ## Errors that bodies make up -/

/-- An answer to a request is the given error. -/
def Request.Carries (e : FlowError) : (q : Request) → q.Answer → Prop
  | .read _, a | .run _, a | .runNode _, a | .invoke _, a => a = .error e
  | _, _ => False

/-- A program may end with an error of the interpreter that it has not been given by an answer. -/
inductive Program.MakesUp (e : FlowError) : Program (Except BodyError Outcome) → Prop
  | here : MakesUp e (.pure (.error (.flow e)))
  | later {q : Request} {next : q.Answer → Program (Except BodyError Outcome)} (a : q.Answer)
    (ha : ¬ q.Carries e a) (h : MakesUp e (next a)) : MakesUp e (.ask q next)

/-- A body may make up an error, be it that of a kind itself or of one that is used inside. -/
def Definition.MakesUp (e : FlowError) (d : Definition) : Prop :=
  ∃ f, ReflTransGen Definition.Uses d f ∧
    ∃ b, f.behaviour = .method b ∧ ∃ c, (b.body c).MakesUp e

theorem Definition.Uses.makesUp {d f : Definition} {e : FlowError} (h : d.Uses f)
    (hf : f.MakesUp e) : d.MakesUp e := by
  obtain ⟨k, hk, hbody⟩ := hf
  exact ⟨k, .head h hk, hbody⟩

theorem Program.Candid.not_makesUp {x : Program (Except BodyError Outcome)} {e : FlowError}
    (h : x.Candid) : ¬ x.MakesUp e := by
  induction h with
  | ok o => exact nofun
  | error e => exact nofun
  | log _ ih =>
    intro h
    cases h with
    | later a _ h => exact ih h

theorem Definition.Candid.of_uses {d f : Definition} (hd : d.Candid) (h : d.Uses f) : f.Candid := by
  obtain ⟨inner, hinner, n, hn, hkind⟩ := h
  exact ((hd.isOpen.generated inner hinner).invariant.2 n hn).1 f hkind

/-- Where bodies end well or with errors of their own, inside as well, they make up none. -/
theorem Definition.Candid.not_makesUp {d : Definition} {e : FlowError} (hd : d.Candid) :
    ¬ d.MakesUp e := by
  have hinside : ∀ f, ReflTransGen Definition.Uses d f → f.Candid := by
    intro f huses
    induction huses with
    | refl => exact hd
    | tail _ huse ih => exact ih.of_uses huse
  rintro ⟨f, huses, b, hb, c, h⟩
  exact ((hinside f huses).isOpen.method b hb c).not_makesUp h

/-! ## Steps that fail for the depth -/

/-- The contract of steps that fail for the call depth with excused errors only. -/
def Contract.excusing (E : FlowError → Prop) : Contract σ :=
  fun o _ _ => ∀ name limit, o = some (.tooDeep name limit) → E (.tooDeep name limit)

section Excusing

variable {E : FlowError → Prop} {x : Exec σ α}

theorem Contract.composes_excusing : (Contract.excusing (σ := σ) E).Composes where
  refl _ := nofun
  trans _ h := h

namespace Honours

theorem excusing_iff : Honours (.excusing E) x ↔ ∀ m name limit m',
    x m = some (.error (.tooDeep name limit), m') → E (.tooDeep name limit) := by
  constructor
  · exact fun hx m name limit m' h => hx m _ m' h name limit rfl
  · intro hx m r m' h name limit hr
    cases r with
    | ok a => exact nomatch hr
    | error e =>
      obtain rfl := Option.some.inj hr
      exact hx m name limit m' h

theorem fail_excusing {e : FlowError} (h : ∀ name limit, e ≠ .tooDeep name limit) :
    Honours (σ := σ) (α := α) (.excusing E) (.fail e) :=
  .fail fun _ name limit he => absurd (Option.some.inj he) (h name limit)

theorem emit_excusing (e : Event) : Honours (σ := σ) (.excusing E) (.emit e) :=
  .emit fun _ _ _ h => absurd h (by simp)

theorem closed_excusing : Exec.Closed fun x : Exec σ _ => Honours (.excusing E) x :=
  Honours.closed Contract.composes_excusing fun _ _ => nofun

theorem within_excusing (memory : Memory) (hx : Honours (.excusing E) x) :
    Honours (.excusing E) (.within memory x) := by
  rw [excusing_iff] at hx ⊢
  intro m name limit m' h
  obtain ⟨m₁, h, -⟩ := Exec.within_eq_error.1 h
  exact hx _ name limit m₁ h

theorem memoize_excusing (p : PortId) (v : Value) :
    Honours (σ := σ) (.excusing E) (.memoize p v) := by
  intro m r m' h
  obtain ⟨rfl, -⟩ := Prod.mk.inj (Option.some.inj h)
  exact nofun

end Honours

end Excusing

/-- An error that is an answer has ended the step that the answer is for. -/
theorem Exec.eq_error_of_attempt {x : Exec σ α} {e : FlowError} {m m' : Machine σ}
    (h : Exec.attempt x m = some (.ok (.error e), m')) : x m = some (.error e, m') := by
  unfold Exec.attempt at h
  split at h
  · simp at h
  next r m₁ hx =>
    obtain ⟨hr, rfl⟩ := Prod.mk.inj (Option.some.inj h)
    rw [hx, Except.ok.inj hr]

namespace Engine

variable {engine : Engine σ} {s : Setting} {host : Host σ} {E : FlowError → Prop}

/-! ## Values and control -/

theorem excusing_read {p : PortId}
    (hinput : ∀ port x, s.graph.port? p = some port → port.role = .valueInput →
      s.graph.valueSource? p = some x → Honours (.excusing E) (engine s (.read x)))
    (houtput : ∀ port, s.graph.port? p = some port → port.role = .valueOutput →
      Honours (.excusing E) (engine s (.invoke port.node))) :
    Honours (.excusing E) (engine.read s p) := by
  have hK := Contract.composes_excusing (σ := σ) (E := E)
  have hC : Exec.Closed fun x : Exec σ _ => Honours (.excusing E) x := Honours.closed_excusing
  refine hC.bind (.inspect hK _) fun found => ?_
  cases found with
  | some v => exact hC.pure v
  | none =>
    refine hC.ofGraph_bind fun port hport => ?_
    have hport := getPort_eq_ok.1 hport
    simp only
    split
    next hrole =>
      split
      next x hx => exact hC.bind (hinput port x hport hrole hx) fun _ => hC.pure _
      next => exact hC.pure _
    next hrole =>
      refine hC.bind (.inspect hK _) fun running => ?_
      split
      · exact .fail_excusing (by simp)
      · refine hC.bind (houtput port hport hrole) fun _ => hC.bind (.inspect hK _) fun found => ?_
        cases found with
        | some v => exact hC.pure v
        | none => exact hC.bind (.emit_excusing _) fun _ => .fail_excusing (by simp)
    next => exact .fail_excusing (by simp)

section Tasks

variable (he : ∀ t, Honours (.excusing E) (engine s t))

include he

theorem excusing_follow (p : PortId) : Honours (.excusing E) (engine.follow s p) := by
  have hC : Exec.Closed fun x : Exec σ _ => Honours (.excusing E) x := Honours.closed_excusing
  refine hC.bind (hC.ofGraph _) fun port => hC.bind (he _) fun exit => ?_
  split
  · exact he _
  · exact hC.pure _

theorem excusing_run (p : PortId) : Honours (.excusing E) (engine.run s p) := by
  have hC : Exec.Closed fun x : Exec σ _ => Honours (.excusing E) x := Honours.closed_excusing
  refine hC.bind (hC.ofGraph _) fun port => ?_
  split
  · exact he _
  · exact .fail_excusing (by simp)

theorem excusing_runNode (n : NodeId) : Honours (.excusing E) (engine.runNode s n) := by
  unfold runNode
  split
  · exact excusing_run he _
  · exact .fail_excusing (by simp)

/-! ## Bodies -/

/-- An answer of the flow carries excused errors only. -/
theorem excused_of_answer {q : Request} {a : q.Answer} {name : String} {limit : Nat}
    {m m' : Machine σ} (ha : q.Carries (.tooDeep name limit) a)
    (h : engine.answer s host q m = some (.ok a, m')) : E (.tooDeep name limit) := by
  cases q with
  | read p =>
    obtain rfl := ha
    exact he (.read p) _ _ _ (Exec.eq_error_of_attempt (x := engine s (.read p)) h) _ _ rfl
  | run p =>
    obtain rfl := ha
    exact excusing_run he p _ _ _ (Exec.eq_error_of_attempt h) _ _ rfl
  | runNode n =>
    obtain rfl := ha
    exact excusing_runNode he n _ _ _ (Exec.eq_error_of_attempt h) _ _ rfl
  | invoke n =>
    obtain rfl := ha
    exact he (.invoke n) _ _ _ (Exec.eq_error_of_attempt (x := engine s (.invoke n)) h) _ _ rfl
  | _ => exact ha.elim

/-- A body that ends with an error of the flow has been given it or makes it up. -/
theorem excused_of_runProgram {x : Program (Except BodyError Outcome)} {name : String}
    {limit : Nat} {m m' : Machine σ}
    (h : engine.runProgram s host x m = some (.ok (.error (.flow (.tooDeep name limit))), m')) :
    E (.tooDeep name limit) ∨ x.MakesUp (.tooDeep name limit) := by
  induction x generalizing m with
  | pure r =>
    obtain ⟨hr, -⟩ := Prod.mk.inj (Option.some.inj h)
    obtain rfl := Except.ok.inj hr
    exact .inr .here
  | ask q next ih =>
    obtain ⟨a, m₁, hanswer, h⟩ := Exec.bind_eq_ok.1 h
    by_cases ha : q.Carries (.tooDeep name limit) a
    · exact .inl (excused_of_answer he ha hanswer)
    · exact (ih a h).imp_right (.later a ha)

end Tasks

theorem excusing_blame {n : NodeId} {define : String} {cause : BodyError}
    (h : ∀ name limit, cause = .flow (.tooDeep name limit) → E (.tooDeep name limit)) :
    Honours (σ := σ) (α := α) (.excusing E) (blame s n define cause) := by
  have hK := Contract.composes_excusing (σ := σ) (E := E)
  cases cause with
  | flow e =>
    refine .fail fun m name limit he => h name limit ?_
    rw [Option.some.inj he]
  | action e =>
    simp only [blame]
    split
    · exact (Honours.emit_excusing _).bind hK fun _ => .fail_excusing (by simp)
    · exact .fail_excusing (by simp)

/-! ## Nodes -/

section Node

variable {node : Node Definition}
  (hread : ∀ c p, s.graph.Draws node.id c p → Honours (.excusing E) (engine s (.read p)))

include hread

theorem excusing_invokeMethod {define : String} {b : Method}
    (hbody : ∀ c m name limit m', engine.runProgram s host (b.body c) m =
      some (.ok (.error (.flow (.tooDeep name limit))), m') → E (.tooDeep name limit)) :
    Honours (.excusing E) (engine.invokeMethod s host node define b) := by
  have hC : Exec.Closed fun x : Exec σ _ => Honours (.excusing E) x := Honours.closed_excusing
  refine hC.bind (closed_bindParams_of_draws hC node b.params .empty fun c _ => hread c)
    fun args => Honours.excusing_iff.2 fun m name limit m' h => ?_
  rcases Exec.bind_eq_error.1 h with h | ⟨r, m₁, hrun, h⟩
  · exact absurd h runProgram_ne_error
  cases r with
  | error cause =>
    have hcause : ∀ name limit, cause = .flow (.tooDeep name limit) → E (.tooDeep name limit) := by
      rintro name limit rfl
      exact hbody _ _ _ _ _ hrun
    exact Honours.excusing_iff.1 (excusing_blame hcause) m₁ name limit m' h
  | ok o =>
    have hpublish := closed_publishAll (s := s) hC Honours.memoize_excusing node.id (outputsOf b o)
    have hrest := hC.bind hpublish fun _ => hC.ofGraph (branchOf s node.id o)
    exact Honours.excusing_iff.1 hrest m₁ name limit m' h

theorem excusing_invokeGenerated {d : Definition} {inner : Graph Definition}
    (hdepth : s.depth + 1 ≤ s.options.maxCallDepth)
    (hchild : ∀ t, Honours (.excusing E) (engine (s.child inner node.id) t)) :
    Honours (.excusing E) (engine.invokeGenerated s node d inner) := by
  have hC : Exec.Closed fun x : Exec σ _ => Honours (.excusing E) x := Honours.closed_excusing
  have hdeliver : ∀ result ds memory, Honours (.excusing E)
      (engine.deliver s (s.child inner node.id) node.id result ds memory) := by
    intro result ds
    induction ds with
    | nil => exact fun _ => hC.pure ()
    | cons c ds ih =>
      intro memory
      refine hC.bind (hC.ofGraph _) fun p => ?_
      refine hC.bind (.within_excusing memory (hchild _)) fun r => ?_
      exact hC.bind (closed_publish hC Honours.memoize_excusing node.id c.name r.1) fun _ => ih r.2
  unfold invokeGenerated
  rw [if_neg (by omega)]
  split
  · exact .fail_excusing (by simp)
  · exact .fail_excusing (by simp)
  · refine hC.bind (closed_bindInputs_of_draws hC _ _ _ _ _ fun c _ => hread c) fun inputs => ?_
    refine hC.bind (hC.ofGraph _) fun frame => hC.bind ?_ fun memory => ?_
    · unfold followEntry
      split
      · exact hC.pure _
      · exact hC.bind (.within_excusing _ (hchild _)) fun _ => hC.pure _
    · exact hC.bind (hdeliver _ _ _) fun _ => hC.pure _

end Node

theorem excusing_invoke {n : NodeId}
    (hmethod : ∀ node d b, s.graph.node? n = some node → node.kind = .action d →
      d.behaviour = .method b → Honours (.excusing E) (engine.invokeMethod s host node d.name b))
    (hgenerated : ∀ node d inner, s.graph.node? n = some node → node.kind = .action d →
      d.behaviour = .generated inner →
        Honours (.excusing E) (engine.invokeGenerated s node d inner)) :
    Honours (.excusing E) (engine.invoke s host n) := by
  refine Honours.excusing_iff.2 fun m name limit m' h => ?_
  cases hnode : s.graph.node? n with
  | none =>
    rcases Exec.bind_eq_error.1 h with h | ⟨node, m₁, h, -⟩
    · obtain ⟨_, -, he, -⟩ := Exec.ofGraph_eq_error.1 h
      exact nomatch he
    · have hfound := getNode_eq_ok.1 (Exec.ofGraph_eq_ok.1 h).1
      exact nomatch hnode.symm.trans hfound
  | some node =>
    obtain ⟨d, m₁, hkind, hbehave, -⟩ := invoke_eq_error hnode h
    cases hb : d.behaviour with
    | method b =>
      simp only [behave, hkind, hb] at hbehave
      exact Honours.excusing_iff.1 (hmethod node d b hnode hkind hb) _ name limit m₁ hbehave
    | generated inner =>
      simp only [behave, hkind, hb] at hbehave
      exact Honours.excusing_iff.1 (hgenerated node d inner hnode hkind hb) _ name limit m₁ hbehave

/-- A generated node is refused where the limit leaves no room for another flow: all that is done is
to note the invocation in the log. -/
theorem invoke_of_exhausted (engine : Engine σ) (host : Host σ) {node : Node Definition}
    (hnode : s.graph.node? node.id = some node) {d : Definition} (hkind : node.kind = .action d)
    {inner : Graph Definition} (hinner : d.behaviour = .generated inner)
    (hdepth : s.options.maxCallDepth < s.depth + 1) (m : Machine σ) :
    engine.invoke s host node.id m = some (.error (.tooDeep d.name s.options.maxCallDepth),
      { m with log := .nodeInvoked node.id d.name :: m.log }) := by
  rw [invoke_eq hnode, behave]
  simp only [hkind, hinner, invokeGenerated, if_pos hdepth]
  rfl

end Engine

/-! ## Flows with room -/

/-- The limit leaves room for every node of a flow, and the errors that bodies make up in runs of
the flow are excused. -/
structure Setting.Roomy (s : Setting) (E : FlowError → Prop) : Prop where
  depth : ∀ n ∈ s.graph.nodes, ∀ d, n.kind = .action d →
    s.depth + d.height ≤ s.options.maxCallDepth
  bodies : ∀ n ∈ s.graph.nodes, ∀ d, n.kind = .action d → ∀ e, d.MakesUp e → E e

section Roomy

variable {s u : Setting} {E : FlowError → Prop} {d : Definition} {inner : Graph Definition}

/-- A node for which there is room opens a flow with room. -/
theorem Setting.roomy_child (hinner : d.behaviour = .generated inner)
    (hdepth : s.depth + d.height ≤ s.options.maxCallDepth) (hbodies : ∀ e, d.MakesUp e → E e)
    (caller : NodeId) : (s.child inner caller).Roomy E where
  depth n hn f hkind := by
    have hlt := Definition.Uses.height_lt ⟨inner, hinner, n, hn, hkind⟩
    show s.depth + 1 + f.height ≤ s.options.maxCallDepth
    omega
  bodies n hn f hkind e hf :=
    hbodies e (Definition.Uses.makesUp ⟨inner, hinner, n, hn, hkind⟩ hf)

theorem Setting.Nests.roomy {k : Nat} (h : s.Nests k u) (hs : s.Roomy E) : u.Roomy E := by
  induction h with
  | self => exact hs
  | child hnode hkind hinner _ ih =>
    exact Setting.roomy_child hinner (ih.depth _ hnode _ hkind) (ih.bodies _ hnode _ hkind) _

/-- A flow with room fails for the call depth with excused errors only. -/
theorem Setting.Roomy.excusing (hs : s.Roomy E) (host : Host σ) (k : Nat) (t : Task) :
    Honours (.excusing E) (exec host k s t) := by
  induction k generalizing s t with
  | zero => exact .exhausted
  | succ k ih =>
    have he : ∀ t, Honours (.excusing E) (exec host k s t) := ih hs
    cases t with
    | read p => exact Engine.excusing_read (fun _ x _ _ _ => he (.read x)) fun _ _ _ => he _
    | follow p => exact Engine.excusing_follow he p
    | invoke n =>
      refine Engine.excusing_invoke (fun node d b hnode hkind hb => ?_)
        fun node d inner hnode hkind hinner => ?_
      · have hmem := (node?_mem hnode).1
        refine Engine.excusing_invokeMethod (fun _ p _ => he (.read p)) ?_
        intro c m name limit m' h
        rcases Engine.excused_of_runProgram he h with h | h
        · exact h
        · exact hs.bodies node hmem d hkind _ ⟨d, .refl, b, hb, c, h⟩
      · have hmem := (node?_mem hnode).1
        have hdepth := hs.depth node hmem d hkind
        have hheight := Definition.height_of_generated hinner
        refine Engine.excusing_invokeGenerated (fun _ p _ => he (.read p)) (by omega) ?_
        exact ih (Setting.roomy_child hinner hdepth (hs.bodies node hmem d hkind) node.id)

end Roomy

/-! ## Where an error comes from -/

/-- Why the invocation of a node fails for the call depth that does not have the error from a node
before it: the node is of a kind that nests flows too deeply, a body inside makes up the error, or
the node's own body passes it on. -/
inductive Setting.Culprit (s : Setting) (host : Host σ) (e : FlowError) (n : Node Definition) : Prop
  | nested {d : Definition} {inner : Graph Definition} (hkind : n.kind = .action d)
    (hinner : d.behaviour = .generated inner) (h : s.options.maxCallDepth < s.depth + d.height)
  | madeUp {d : Definition} (hkind : n.kind = .action d) (h : d.MakesUp e)
  | passed {d : Definition} {b : Method} (hkind : n.kind = .action d) (hb : d.behaviour = .method b)
    (k : Nat) (c : Call) (m m' : Machine σ)
    (h : Engine.runProgram (exec host k) s host (b.body c) m = some (.ok (.error (.flow e)), m'))

/-- A node that another depends on, be it by way of others, fails with an error with a smaller
allowance, and the error originates there. -/
def Setting.Upstream (s : Setting) (host : Host σ) (k : Nat) (n : NodeId) (e : FlowError) : Prop :=
  ∃ b ∈ s.graph.nodes, TransGen s.graph.DependsOn n b.id ∧ s.Culprit host e b ∧
    ∃ j < k, ∃ m m', exec host j s (.invoke b.id) m = some (.error e, m')

section Culprit

variable {s : Setting} (hg : s.graph.Valid [])

include hg

/-- A read fails for the depth as the invocation does of a node that the value is to be had from. -/
theorem excusing_of_demands {E : FlowError → Prop} (host : Host σ) (k : Nat) {p : PortId}
    (h : ∀ b ∈ s.graph.nodes, s.graph.Demands p b.id → ∀ j < k,
      Honours (.excusing E) (exec host j s (.invoke b.id))) :
    Honours (.excusing E) (exec host k s (.read p)) := by
  induction k generalizing p with
  | zero => exact .exhausted
  | succ k ih =>
    refine Engine.excusing_read (fun port x hport hrole hx => ih fun b hb hdemands j hj => ?_)
      fun port hport hrole => ?_
    · have hdemands := (hg.wellFormed.demands_iff hport hrole hx).2 hdemands
      exact h b hb hdemands j (hj.trans k.lt_succ_self)
    · obtain ⟨b, hb, hfound⟩ := hg.exists_node_of_port hport
      obtain ⟨-, hid⟩ := node?_mem hfound
      rw [← hid]
      exact h b hb (hid ▸ .output hport hrole) k k.lt_succ_self

/-- An invocation that fails for the call depth has the error from the node itself or from a node
that it depends on. -/
theorem culprit_of_invoke (host : Host σ) (k : Nat) {n : Node Definition} (hn : n ∈ s.graph.nodes)
    {m m' : Machine σ} {name : String} {limit : Nat}
    (h : exec host k s (.invoke n.id) m = some (.error (.tooDeep name limit), m')) :
    s.Culprit host (.tooDeep name limit) n ∨ s.Upstream host k n.id (.tooDeep name limit) := by
  induction k using Nat.strong_induction_on generalizing n m m' name limit with
  | _ k ih =>
    obtain ⟨j, rfl, h⟩ := exec_eq_some h
    have hfound := node?_of_mem hg.ascending hn
    let E : FlowError → Prop := fun e => s.Culprit host e n ∨ s.Upstream host (j + 1) n.id e
    have hread : ∀ c p, s.graph.Draws n.id c p →
        Honours (.excusing E) (exec host j s (.read p)) := by
      intro c p hp
      refine excusing_of_demands hg host j fun b hb hdemands i hi =>
        Honours.excusing_iff.2 fun m name limit m' hrun => .inr ?_
      have hbefore := hg.wellFormed.dependsOn_of_draws hp hdemands
      rcases ih i (hi.trans j.lt_succ_self) hb hrun with hculprit | hupstream
      · exact ⟨b, hb, .single hbefore, hculprit, i, hi.trans j.lt_succ_self, m, m', hrun⟩
      · obtain ⟨a, ha, habove, hculprit, l, hl, hfails⟩ := hupstream
        exact ⟨a, ha, .head hbefore habove, hculprit, l, by omega, hfails⟩
    suffices hinvoke : Honours (.excusing E) ((exec host j).invoke s host n.id) from
      Honours.excusing_iff.1 hinvoke m name limit m' h
    refine Engine.excusing_invoke (fun node d b hnode hkind hb => ?_)
      fun node d inner hnode hkind hinner => ?_
    · obtain rfl := Option.some.inj (hfound.symm.trans hnode)
      exact Engine.excusing_invokeMethod hread fun c m name limit m' hrun =>
        .inl (.passed hkind hb j c m m' hrun)
    · obtain rfl := Option.some.inj (hfound.symm.trans hnode)
      by_cases hdepth : s.options.maxCallDepth < s.depth + d.height
      · exact fun _ _ _ _ _ _ _ => .inl (.nested hkind hinner hdepth)
      · have hheight := Definition.height_of_generated hinner
        refine Engine.excusing_invokeGenerated hread (by omega) fun t => ?_
        have hbodies : ∀ e, d.MakesUp e → E e := fun e he => .inl (.madeUp hkind he)
        exact (Setting.roomy_child hinner (by omega) hbodies n.id).excusing host j t

end Culprit

/-! ## The limit -/

/-- The limit of the call depth is exact, over every graph that edits have made, in every state of a
flow and whatever bodies do. If the height of a generated kind is within what is left of the limit,
no flow inside a node of the kind fails for the call depth, at any nesting, unless with an error
that a body inside makes up; nor does the invocation of the node, unless a node that it depends on
has failed with the same error, and there the error originates. If nothing is left of the limit, the
invocation is refused under the name of the kind and with the limit, and nothing is done but to note
it in the log. -/
theorem callDepth_exact {K : Definition → Prop} {s : Setting} (hg : Reachable K s.graph)
    (host : Host σ) {node : Node Definition} (hnode : node ∈ s.graph.nodes) {d : Definition}
    (hkind : node.kind = .action d) {inner : Graph Definition}
    (hinner : d.behaviour = .generated inner) :
    (s.depth + d.height ≤ s.options.maxCallDepth →
      (∀ j u, (s.child inner node.id).Nests j u → ∀ k t m name limit m',
        exec host k u t m = some (.error (.tooDeep name limit), m') →
          d.MakesUp (.tooDeep name limit)) ∧
      ∀ k m name limit m',
        exec host k s (.invoke node.id) m = some (.error (.tooDeep name limit), m') →
          d.MakesUp (.tooDeep name limit) ∨
            s.Upstream host k node.id (.tooDeep name limit)) ∧
    (s.options.maxCallDepth < s.depth + 1 → ∀ k m,
      exec host (k + 1) s (.invoke node.id) m =
        some (.error (.tooDeep d.name s.options.maxCallDepth),
          { m with log := .nodeInvoked node.id d.name :: m.log })) := by
  refine ⟨fun hdepth => ⟨fun j u hu k t m name limit m' h => ?_,
    fun k m name limit m' h => ?_⟩, fun hdepth k m => ?_⟩
  · have hroomy : (s.child inner node.id).Roomy fun e => d.MakesUp e :=
      Setting.roomy_child hinner hdepth (fun _ he => he) node.id
    exact Honours.excusing_iff.1 ((hu.roomy hroomy).excusing host k t) m name limit m' h
  · rcases culprit_of_invoke hg.valid host k hnode h with hculprit | hupstream
    · cases hculprit with
      | nested hkind' _ hdeep =>
        obtain rfl := NodeKind.action.inj (hkind.symm.trans hkind')
        omega
      | madeUp hkind' he =>
        obtain rfl := NodeKind.action.inj (hkind.symm.trans hkind')
        exact .inl he
      | passed hkind' hb =>
        obtain rfl := NodeKind.action.inj (hkind.symm.trans hkind')
        exact nomatch hinner.symm.trans hb
    · exact .inr hupstream
  · have hfound := node?_of_mem hg.valid.ascending hnode
    exact Engine.invoke_of_exhausted (exec host k) host hfound hkind hinner hdepth m

/-! ## A kind within a kind -/

def Signature.wrap : Signature := ⟨"Wrap", [], [], []⟩

/-- An inner graph that runs one node of a kind. -/
def wrapInner (d : Definition) : Graph Definition :=
  [.setSignature .wrap, .addNode (.action d), .connect ⟨1, 0⟩ ⟨1, 2⟩].foldl Edit.perform
    (.empty 1 .standard)

def Definition.wrapping (d : Definition) : Definition where
  signature := .wrap
  obsoleteNames := []
  obsoleteMessage := none
  behaviour := .generated ((Edit.setSignature .wrap).perform (wrapInner d))

/-- A kind that nests two flows, the inner one of which runs a method. -/
def Definition.wrapped : Definition := Library.integer.kind.wrapping.wrapping

/-- A node of this kind. -/
def wrappedFlow (limit : Nat) : Setting :=
  .top ((Edit.addNode (.action .wrapped)).perform (.empty 0 .standard)) .empty ⟨limit, true⟩
    .standard

theorem reachable_wrapInner {d : Definition} (hd : d.Candid) :
    Reachable Definition.Candid (wrapInner d) := by
  refine .foldl (fun e he k hk => ?_) (.blank 1 .standard)
  simp only [List.mem_cons, List.not_mem_nil, or_false] at he
  rcases he with rfl | rfl | rfl
  case inr.inl => exact Option.some.inj hk ▸ hd
  all_goals simp [Edit.offers] at hk

theorem candid_wrapped : Definition.wrapped.Candid := by
  have hinteger : Library.integer.kind.Candid :=
    Definition.Standard.candid ⟨Library.integer, by simp [Library.declarations], rfl⟩
  have hwrapping : Library.integer.kind.wrapping.Candid :=
    .generated (s := .wrap) (g := wrapInner Library.integer.kind) rfl (reachable_wrapInner hinteger)
  exact .generated (s := .wrap) (g := wrapInner Library.integer.kind.wrapping) rfl
    (reachable_wrapInner hwrapping)

/-- With a limit of two the node never fails for the call depth, with a limit of one the node inside
does, and with none it is refused itself. -/
theorem callDepth_exact_wrapped : Definition.wrapped.height = 2 ∧
    (∀ k m name limit m', exec nullHost k (wrappedFlow 2) (.invoke ⟨1⟩) m ≠
      some (.error (.tooDeep name limit), m')) ∧
    (exec nullHost 12 (wrappedFlow 1) (.invoke ⟨1⟩) ⟨.start .empty, [], ()⟩).map
        (fun r => (r.1, r.2.log)) = some (.error (.tooDeep "Wrap" 1),
          [.nodeInvoked ⟨3⟩ "Wrap", .nodeInvoked ⟨1⟩ "Wrap"]) ∧
    ∀ k m, exec nullHost (k + 1) (wrappedFlow 0) (.invoke ⟨1⟩) m =
      some (.error (.tooDeep "Wrap" 0), { m with log := .nodeInvoked ⟨1⟩ "Wrap" :: m.log }) := by
  have hg : ∀ limit, Reachable Definition.Candid (wrappedFlow limit).graph := fun limit =>
    .edited (.addNode (.action .wrapped)) (fun k hk => Option.some.inj hk ▸ candid_wrapped)
      (.blank 0 .standard)
  obtain ⟨node, hnode, hid, hkind⟩ : ∃ node, (∀ limit, node ∈ (wrappedFlow limit).graph.nodes) ∧
      node.id = ⟨1⟩ ∧ node.kind = .action .wrapped := ⟨_, fun _ => .head _, rfl, rfl⟩
  refine ⟨by decide +kernel, fun k m name limit m' h => ?_, by decide +kernel, fun k m => ?_⟩
  · obtain ⟨hroom, -⟩ := callDepth_exact (hg 2) nullHost (hnode 2) hkind rfl
    rw [← hid] at h
    rcases (hroom (by decide +kernel)).2 k m name limit m' h with he | ⟨b, -, hbefore, -⟩
    · exact candid_wrapped.not_makesUp he
    -- There is no connection that the node might depend on another by.
    · obtain ⟨_, ⟨c, hc, -⟩, -⟩ := TransGen.head'_iff.1 hbefore
      exact nomatch hc
  · obtain ⟨-, hrefused⟩ := callDepth_exact (hg 0) nullHost (hnode 0) hkind rfl
    exact hid ▸ hrefused (by decide) k m

end EffectGraph
