import EffectGraph.Flow.Run

/-!
# Steps in lockstep

Two steps are in lockstep (`Lockstep`) if from machines with related memories, the same log and the
same host they end alike: neither ends, both fail with one error, or both succeed with related
results, and then the machines are again such. Steps that are built alike from steps in lockstep
are in lockstep.
-/

namespace EffectGraph

variable {σ α β γ δ : Type} {T : Memory → Memory → Prop}

/-- Machines with related memories, the same log and the same host. -/
structure Abreast (T : Memory → Memory → Prop) (m m' : Machine σ) : Prop where
  memory : T m.memory m'.memory
  log : m'.log = m.log
  host : m'.host = m.host

/-- Two ends of steps that are alike. -/
inductive EndsAlike (T : Memory → Memory → Prop) (R : α → β → Prop) :
    Option (Except FlowError α × Machine σ) → Option (Except FlowError β × Machine σ) → Prop
  | unended : EndsAlike T R none none
  | error {e : FlowError} {m m' : Machine σ} (hm : Abreast T m m') :
    EndsAlike T R (some (.error e, m)) (some (.error e, m'))
  | ok {a : α} {b : β} {m m' : Machine σ} (hab : R a b) (hm : Abreast T m m') :
    EndsAlike T R (some (.ok a, m)) (some (.ok b, m'))

/-- Two steps that end alike if they start alike. -/
def Lockstep (T : Memory → Memory → Prop) (R : α → β → Prop) (x : Exec σ α) (y : Exec σ β) :
    Prop :=
  ∀ m m', Abreast T m m' → EndsAlike T R (x m) (y m')

namespace Lockstep

variable {R : α → β → Prop} {S : γ → δ → Prop} {x : Exec σ α} {y : Exec σ β}

theorem pure {a : α} {b : β} (h : R a b) :
    Lockstep (σ := σ) T R (Pure.pure a) (Pure.pure b) := fun _ _ hm => .ok h hm

theorem exhausted : Lockstep (σ := σ) T R .exhausted .exhausted := fun _ _ _ => .unended

theorem fail (e : FlowError) : Lockstep (σ := σ) T R (.fail e) (.fail e) := fun _ _ hm => .error hm

theorem bind {f : α → Exec σ γ} {g : β → Exec σ δ} (h : Lockstep T R x y)
    (hfg : ∀ a b, R a b → Lockstep T S (f a) (g b)) : Lockstep T S (x >>= f) (y >>= g) := by
  intro m m' hm
  show EndsAlike T S (Exec.bind x f m) (Exec.bind y g m')
  unfold Exec.bind
  have hend := h m m' hm
  generalize x m = o, y m' = o' at hend ⊢
  cases hend with
  | unended => exact .unended
  | error hm => exact .error hm
  | ok hab hm => exact hfg _ _ hab _ _ hm

theorem ofGraph {r : Except GraphError α} {r' : Except GraphError β}
    (h : (∃ e, r = .error e ∧ r' = .error e) ∨ ∃ a b, r = .ok a ∧ r' = .ok b ∧ R a b) :
    Lockstep (σ := σ) T R (.ofGraph r) (.ofGraph r') := by
  rcases h with ⟨e, rfl, rfl⟩ | ⟨a, b, rfl, rfl, hab⟩
  · exact fun _ _ hm => .error hm
  · exact fun _ _ hm => .ok hab hm

theorem getOutput {g r : Graph Definition} {n : NodeId} {name : String}
    {R : PortId → PortId → Prop} (h : Option.Rel R (g.output? n name) (r.output? n name)) :
    Lockstep (σ := σ) T R (.ofGraph (g.getOutput n name)) (.ofGraph (r.getOutput n name)) := by
  unfold Graph.getOutput
  generalize g.output? n name = o, r.output? n name = o' at h ⊢
  cases h with
  | none => exact ofGraph (.inl ⟨_, rfl, rfl⟩)
  | some hpq => exact ofGraph (.inr ⟨_, _, rfl, rfl, hpq⟩)

theorem getInput {g r : Graph Definition} {n : NodeId} {name : String} {slot : Option Nat}
    {R : PortId → PortId → Prop} (h : Option.Rel R (g.input? n name slot) (r.input? n name slot)) :
    Lockstep (σ := σ) T R (.ofGraph (g.getInput n name slot))
      (.ofGraph (r.getInput n name slot)) := by
  unfold Graph.getInput
  generalize g.input? n name slot = o, r.input? n name slot = o' at h ⊢
  cases h with
  | none => exact ofGraph (.inl ⟨_, rfl, rfl⟩)
  | some hpq => exact ofGraph (.inr ⟨_, _, rfl, rfl, hpq⟩)

theorem getNode {g r : Graph Definition} {n : NodeId} {R : Node Definition → Node Definition → Prop}
    (h : Option.Rel R (g.node? n) (r.node? n)) :
    Lockstep (σ := σ) T R (.ofGraph (g.getNode n)) (.ofGraph (r.getNode n)) := by
  unfold Graph.getNode
  generalize g.node? n = o, r.node? n = o' at h ⊢
  cases h with
  | none => exact ofGraph (.inl ⟨_, rfl, rfl⟩)
  | some hmk => exact ofGraph (.inr ⟨_, _, rfl, rfl, hmk⟩)

theorem emit (e : Event) : Lockstep (σ := σ) T Eq (.emit e) (.emit e) := fun _ _ hm =>
  .ok rfl ⟨hm.memory, congrArg (e :: ·) hm.log, hm.host⟩

theorem inspect {f : Memory → α} {g : Memory → β}
    (h : ∀ mem mem', T mem mem' → R (f mem) (g mem')) :
    Lockstep (σ := σ) T R (.inspect f) (.inspect g) := fun _ _ hm => .ok (h _ _ hm.memory) hm

theorem modifyMemory {f g : Memory → Memory} (h : ∀ mem mem', T mem mem' → T (f mem) (g mem')) :
    Lockstep (σ := σ) T Eq (.modifyMemory f) (.modifyMemory g) := fun _ _ hm =>
  .ok rfl ⟨h _ _ hm.memory, hm.log, hm.host⟩

theorem memoize {p q : PortId} {v : Value} (h : ∀ mem mem', T mem mem' →
      T { mem with scopes := mem.scopes.set p v } { mem' with scopes := mem'.scopes.set q v }) :
    Lockstep (σ := σ) T Eq (.memoize p v) (.memoize q v) := modifyMemory h

/-- Failures that are turned into results are the same. -/
theorem attempt (h : Lockstep T R x y) :
    Lockstep T (fun r r' => (∃ e, r = .error e ∧ r' = .error e) ∨
      ∃ a b, r = .ok a ∧ r' = .ok b ∧ R a b) (.attempt x) (.attempt y) := by
  intro m m' hm
  unfold Exec.attempt
  have hend := h m m' hm
  generalize x m = o, y m' = o' at hend ⊢
  cases hend with
  | unended => exact .unended
  | error hm => exact .ok (.inl ⟨_, rfl, rfl⟩) hm
  | ok hab hm => exact .ok (.inr ⟨_, _, rfl, rfl, hab⟩) hm

/-- A node that is run is noted in both memories. -/
theorem running (n : NodeId) (h : Lockstep T R x y)
    (hstart : ∀ mem mem', T mem mem' →
      T { mem with running := n :: mem.running } { mem' with running := n :: mem'.running })
    (hdone : ∀ mem mem', T mem mem' →
      T { mem with running := mem.running.tail } { mem' with running := mem'.running.tail }) :
    Lockstep T R (.running n x) (.running n y) := by
  refine bind (modifyMemory hstart) fun _ _ _ => ?_
  refine bind h.attempt fun r r' hr => ?_
  refine bind (modifyMemory hdone) fun _ _ _ => ?_
  rcases hr with ⟨e, rfl, rfl⟩ | ⟨a, b, rfl, rfl, hab⟩
  · exact fun _ _ hm => .error hm
  · exact fun _ _ hm => .ok hab hm

end Lockstep

end EffectGraph
