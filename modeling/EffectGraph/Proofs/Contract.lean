import EffectGraph.Proofs.Congruence
import EffectGraph.Proofs.Failures

/-!
# Steps that honour a contract

A contract (`Contract`) says what the machine after a step has to do with the machine before it,
depending on the error that the step ends with, if any. Steps that honour a contract can be put
together if it composes, and the whole interpreter honours it if its own steps do
(`Contract.Lawful`). A relation between the memories before and after is a contract whatever bodies
are run (`Memory.Lasting`).
-/

namespace EffectGraph

variable {σ α β : Type}

/-- What is to hold of the machines before and after a step that ends with an error or with none. -/
abbrev Contract (σ : Type) := Option FlowError → Machine σ → Machine σ → Prop

/-- The error of a step that fails. -/
def failure? : Except FlowError α → Option FlowError
  | .ok _ => none
  | .error e => some e

/-- A step that honours a contract whenever it ends. -/
def Honours (K : Contract σ) (x : Exec σ α) : Prop :=
  ∀ m r m', x m = some (r, m') → K (failure? r) m m'

/-- A contract that is honoured by steps that do nothing and by one step after another. -/
structure Contract.Composes (K : Contract σ) : Prop where
  refl : ∀ m, K none m m
  trans : ∀ {o m m₁ m₂}, K none m m₁ → K o m₁ m₂ → K o m m₂

/-- A contract that the interpreter honours as far as it does not run bodies. -/
structure Contract.Lawful (K : Contract σ) : Prop extends K.Composes where
  fail : ∀ {e m}, e.isAction = false → K (some e) m m
  memoize : ∀ {m p v},
    K none m { m with memory := { m.memory with scopes := m.memory.scopes.set p v } }
  emit : ∀ {m e}, e.isFailure = false → K none m { m with log := e :: m.log }
  running : ∀ {o m m' n}, K o ⟨⟨m.memory.scopes, n :: m.memory.running⟩, m.log, m.host⟩ m' →
    K o m ⟨⟨m'.memory.scopes, m'.memory.running.tail⟩, m'.log, m'.host⟩

namespace Honours

variable {K : Contract σ} {x : Exec σ α} {f : α → Exec σ β}

theorem pure (hK : K.Composes) (a : α) : Honours K (Pure.pure a) := by
  intro m r m' hx
  obtain ⟨rfl, rfl⟩ := Prod.mk.inj (Option.some.inj hx)
  exact hK.refl m

theorem fail {e : FlowError} (h : ∀ m, K (some e) m m) : Honours (α := α) K (.fail e) := by
  intro m r m' hx
  obtain ⟨rfl, rfl⟩ := Prod.mk.inj (Option.some.inj hx)
  exact h m

theorem inspect (hK : K.Composes) (f : Memory → α) : Honours K (.inspect f) := by
  intro m r m' hx
  obtain ⟨rfl, rfl⟩ := Prod.mk.inj (Option.some.inj hx)
  exact hK.refl m

theorem exhausted : Honours (α := α) K .exhausted := fun m r m' hx => by
  simp [Exec.exhausted] at hx

theorem emit {e : Event} (h : ∀ m, K none m { m with log := e :: m.log }) :
    Honours K (.emit e) := by
  intro m r m' hx
  obtain ⟨rfl, rfl⟩ := Prod.mk.inj (Option.some.inj hx)
  exact h m

theorem bind (hK : K.Composes) (hx : Honours K x) (hf : ∀ a, Honours K (f a)) :
    Honours K (x >>= f) := by
  intro m r m' h
  rcases Exec.bind_eq_some h with ⟨e, rfl, he⟩ | ⟨a, m₁, ha, hb⟩
  · exact hx _ _ _ he
  · exact hK.trans (hx _ _ _ ha) (hf a _ _ _ hb)

theorem ofGraph (hK : K.Composes) (hfail : ∀ cause m, K (some (.graph cause)) m m)
    (r : Except GraphError α) : Honours K (.ofGraph r) := by
  cases r with
  | error cause => exact fail fun m => hfail cause m
  | ok a => exact pure hK a

theorem closed (hK : K.Composes) (hfail : ∀ cause m, K (some (.graph cause)) m m) :
    Exec.Closed fun x : Exec σ _ => Honours K x :=
  ⟨pure hK, ofGraph hK hfail, bind hK⟩

theorem running {n : NodeId} (hx : ∀ m r m',
    x ⟨⟨m.memory.scopes, n :: m.memory.running⟩, m.log, m.host⟩ = some (r, m') →
      K (failure? r) m ⟨⟨m'.memory.scopes, m'.memory.running.tail⟩, m'.log, m'.host⟩) :
    Honours K (.running n x) := by
  intro m r m' h
  rw [Exec.running_eq] at h
  obtain ⟨⟨r₁, m₁⟩, h₁, he⟩ := Option.map_eq_some_iff.1 h
  obtain ⟨rfl, rfl⟩ := Prod.mk.inj he
  exact hx _ _ _ h₁

theorem entering {n : NodeId} {define : String}
    (hx : ∀ m r m', x (m.entering n define) = some (r, m') →
      K (failure? r) m ⟨⟨m'.memory.scopes, m'.memory.running.tail⟩, m'.log, m'.host⟩) :
    Honours K (.entering n define x) := by
  intro m r m' h
  rw [Exec.entering_eq] at h
  obtain ⟨⟨r₁, m₁⟩, h₁, he⟩ := Option.map_eq_some_iff.1 h
  obtain ⟨rfl, rfl⟩ := Prod.mk.inj he
  exact hx _ _ _ h₁

end Honours

/-- What is honoured from the machine in which a node is run is honoured by the invocation. -/
theorem Contract.Lawful.entered {K : Contract σ} (hK : K.Lawful) {o : Option FlowError}
    {n : NodeId} {define : String} {m m' : Machine σ} (h : K o (m.entering n define) m') :
    K o m ⟨⟨m'.memory.scopes, m'.memory.running.tail⟩, m'.log, m'.host⟩ :=
  hK.trans (hK.emit rfl)
    (hK.running (m := { m with log := .nodeInvoked n define :: m.log }) h)

/-- To honour a lawful contract is a property of steps that the interpreter respects. -/
theorem Contract.Lawful.congruence {K : Contract σ} (hK : K.Lawful) :
    Exec.Congruence fun x (_ : Exec σ _) => Honours K x where
  pure := Honours.pure hK.toComposes
  fail he := .fail fun _ => hK.fail he
  bind hx hf := hx.bind hK.toComposes hf
  inspect := Honours.inspect hK.toComposes
  memoize p v := by
    intro m r m' hx
    obtain ⟨rfl, rfl⟩ := Prod.mk.inj (Option.some.inj hx)
    exact hK.memoize
  emit he := .emit fun _ => hK.emit he
  running n _ _ hx := .running fun _ _ _ h => hK.running (hx _ _ _ h)

theorem Contract.Lawful.closed {K : Contract σ} (hK : K.Lawful) :
    Exec.Closed fun x : Exec σ _ => Honours K x :=
  Honours.closed hK.toComposes fun _ _ => hK.fail rfl

section Lawful

variable {K : Contract σ} (hK : K.Lawful) {engine : Engine σ} {host : Host σ} {s : Setting}
  (he : ∀ t, Honours K (engine s t))

include hK he

theorem Contract.Lawful.answer
    (hattempt : ∀ {α : Type} {x : Exec σ α}, Honours K x → Honours K (.attempt x))
    (hconsult : ∀ v, Honours K (.consult host v)) (q : Request)
    (hopen : q = .openScope → Honours (σ := σ) K .openScope)
    (hclose : q = .closeScope → Honours (σ := σ) K .closeScope) :
    Honours K (engine.answer s host q) :=
  @Exec.Congruence.answer σ σ _ hK.congruence engine engine s s.options host host he hattempt
    hconsult q hopen hclose

omit he in
theorem Contract.Lawful.entering (n : NodeId) (define : String) {x : Exec σ α} (hx : Honours K x) :
    Honours K (.entering n define x) :=
  @Exec.Congruence.entering σ σ α _ hK.congruence n define x x hx

theorem Contract.Lawful.invokeMethod {node : Node Definition} {define : String} {b : Method}
    (hbody : ∀ args, Honours K (engine.runProgram s host (b.body ⟨node.id, args, s.environment⟩)))
    (hblame : ∀ e, Honours (α := Option PortId) K (Engine.blame s node.id define e)) :
    Honours K (engine.invokeMethod s host node define b) :=
  @Exec.Congruence.invokeMethod σ σ _ hK.congruence engine engine s s.options he host host node
    define b hbody hblame

theorem Contract.Lawful.step
    (hmethod : ∀ node, s.graph.node? node.id = some node → ∀ d, node.kind = .action d → ∀ b,
      d.behaviour = .method b →
        Honours K (Exec.entering node.id d.name (engine.invokeMethod s host node d.name b)))
    (hchild : ∀ node ∈ s.graph.nodes, ∀ d, node.kind = .action d → ∀ inner,
      d.behaviour = .generated inner → s.depth + 1 ≤ s.options.maxCallDepth → ∀ memory t,
        Honours K (Exec.within memory (engine (s.child inner node.id) t)))
    (t : Task) : Honours K (engine.step host s t) :=
  @Exec.Congruence.step σ σ _ hK.congruence engine engine s s.options he host host rfl hmethod
    hchild t

end Lawful

/-! ## Memories -/

/-- The contract that relates the memories before and after a step however it ends. -/
def Contract.ofMemory (R : Memory → Memory → Prop) : Contract σ :=
  fun _ m m' => R m.memory m'.memory

/-- A relation between the memories before and after a step that does not run bodies. -/
structure Memory.Lasting (R : Memory → Memory → Prop) : Prop where
  refl : ∀ mem, R mem mem
  trans : ∀ {mem mem₁ mem₂}, R mem mem₁ → R mem₁ mem₂ → R mem mem₂
  memoize : ∀ {mem p v}, R mem { mem with scopes := mem.scopes.set p v }
  running : ∀ {mem mem' n}, R { mem with running := n :: mem.running } mem' →
    R mem { mem' with running := mem'.running.tail }

namespace Honours

variable {R : Memory → Memory → Prop}

/-- A failure that is turned into a result leaves the same memory. -/
theorem attempt_ofMemory {x : Exec σ α} (hx : Honours (.ofMemory R) x) :
    Honours (.ofMemory R) (.attempt x) := by
  intro m r m' h
  unfold Exec.attempt at h
  split at h
  · simp at h
  next r₁ m₁ h₁ =>
    obtain ⟨rfl, rfl⟩ := Prod.mk.inj (Option.some.inj h)
    exact hx _ _ _ h₁

theorem modifyScopes_ofMemory {f : Scopes → Scopes}
    (h : ∀ mem, R mem { mem with scopes := f mem.scopes }) :
    Honours (σ := σ) (.ofMemory R) (.modifyScopes f) := by
  intro m r m' hx
  obtain ⟨-, rfl⟩ := Prod.mk.inj (Option.some.inj hx)
  exact h m.memory

theorem closeScope_ofMemory (h : ∀ mem, R mem { mem with scopes := mem.scopes.pop.1 }) :
    Honours (σ := σ) (.ofMemory R) .closeScope := by
  intro m r m' hx
  obtain ⟨-, rfl⟩ := Prod.mk.inj (Option.some.inj hx)
  exact h m.memory

end Honours

namespace Memory.Lasting

variable {R : Memory → Memory → Prop} (hR : Lasting R)

include hR

theorem lawful : (Contract.ofMemory (σ := σ) R).Lawful where
  refl _ := hR.refl _
  trans h h' := hR.trans h h'
  fail _ := hR.refl _
  memoize := hR.memoize
  emit _ := hR.refl _
  running h := hR.running h

/-- What happens in the memory of another flow does not concern the present one. -/
theorem within (memory : Memory) (x : Exec σ α) :
    Honours (.ofMemory R) (.within memory x) := by
  intro m r m' h
  unfold Exec.within at h
  split at h
  · simp at h
  all_goals
    obtain ⟨-, rfl⟩ := Prod.mk.inj (Option.some.inj h)
    exact hR.refl _

theorem consult (host : Host σ) (v : Value) :
    Honours (.ofMemory R) (.consult host v) := by
  intro m r m' h
  obtain ⟨-, rfl⟩ := Prod.mk.inj (Option.some.inj h)
  exact hR.refl _

theorem blame {s : Setting} {n : NodeId} {define : String} (e : BodyError) :
    Honours (α := α) (σ := σ) (.ofMemory R) (Engine.blame s n define e) := by
  have hK := (hR.lawful (σ := σ)).toComposes
  cases e with
  | flow e => exact .fail fun _ => hR.refl _
  | action e =>
    simp only [Engine.blame]
    split
    · exact (Honours.emit fun _ => hR.refl _).bind hK fun _ => .fail fun _ => hR.refl _
    · exact .fail fun _ => hR.refl _

variable (hpush : ∀ mem, R mem { mem with scopes := mem.scopes.push })
  (hpop : ∀ mem, R mem { mem with scopes := mem.scopes.pop.1 })

include hpush hpop

/-- A relation that survives the opening and the closing of scopes is kept by bodies, too. -/
theorem fullCongruence (host : Host σ) :
    Exec.FullCongruence host host fun x (_ : Exec σ _) => Honours (.ofMemory R) x where
  toCongruence := hR.lawful.congruence
  exhausted := .exhausted
  attempt := .attempt_ofMemory
  within memory x _ _ := hR.within memory x
  openScope := .modifyScopes_ofMemory hpush
  closeScope := .closeScope_ofMemory hpop
  consult := hR.consult host

/-- The memories before and after a task are related, whatever bodies are run. -/
theorem honours_exec (host : Host σ) (k : Nat) (s : Setting) (t : Task) :
    Honours (.ofMemory R) (exec host k s t) :=
  (hR.fullCongruence hpush hpop host).tasks (p := s.options) rfl
    (fun _ _ _ _ e => hR.blame e) k s rfl t

theorem honours_answer (host : Host σ) (k : Nat) (s : Setting) (q : Request) :
    Honours (.ofMemory R) (Engine.answer (exec host k) s host q) :=
  hR.lawful.answer (hR.honours_exec hpush hpop host k s) .attempt_ofMemory (hR.consult host) q
    (fun _ => .modifyScopes_ofMemory hpush) fun _ => .closeScope_ofMemory hpop

end Memory.Lasting

end EffectGraph
