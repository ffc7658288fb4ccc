import EffectGraph.Proofs.Chronicle

/-!
# What steps with notes ensure

Notes are in order (`PulledOnce`) if no node is noted as pulled twice, nor after an invocation of it
that has completed. A step ensures (`Ensures`) an assertion on the memory and the notes if it keeps
all notes in order, whether it fails or not, and the assertion holds where it succeeds. Failures
need no assertion: only the steps after a success go on in the same memory.
-/

namespace EffectGraph

variable {σ α β : Type}

/-! ## Notes in order -/

/-- A node is noted as pulled once at most, and not after an invocation of it has completed. The
newest note comes first. -/
def PulledOnce (notes : List Note) : Prop :=
  ∀ later n earlier, notes = later ++ .begun .pull n :: earlier →
    .begun .pull n ∉ earlier ∧ .done n ∉ earlier

theorem pulledOnce_nil : PulledOnce [] := by
  intro later n earlier h
  simp at h

theorem PulledOnce.cons {notes : List Note} {e : Note} (h : PulledOnce notes)
    (he : ∀ n, e = .begun .pull n → .begun .pull n ∉ notes ∧ .done n ∉ notes) :
    PulledOnce (e :: notes) := by
  intro later n earlier heq
  cases later with
  | nil =>
    obtain ⟨hnote, rfl⟩ := List.cons.inj heq
    exact he n hnote
  | cons e' later => exact h later n earlier (List.cons.inj heq).2

/-- The notes on all flows are in order. -/
structure Chronicle.Sane (c : Chronicle) : Prop where
  present : PulledOnce c.present
  inner : PulledOnce c.inner
  closed : ∀ notes ∈ c.closed, PulledOnce notes

theorem Chronicle.sane_empty : Chronicle.empty.Sane :=
  ⟨pulledOnce_nil, pulledOnce_nil, fun notes h => by simp [Chronicle.empty] at h⟩

/-! ## Assertions -/

/-- What an assertion may speak of. -/
structure Scene where
  memory : Memory
  present : List Note
  inner : List Note

def Machine.scene (m : Machine (σ × Chronicle)) : Scene :=
  ⟨m.memory, m.chronicle.present, m.chronicle.inner⟩

/-- A step that keeps all notes in order, and after which an assertion holds if it succeeds. -/
def Ensures (P : Scene → Prop) (x : Exec (σ × Chronicle) α) (Q : α → Scene → Prop) : Prop :=
  ∀ m r m', x m = some (r, m') → m.chronicle.Sane → P m.scene →
    m'.chronicle.Sane ∧ ∀ a, r = .ok a → Q a m'.scene

namespace Ensures

variable {P P' : Scene → Prop} {Q Q' : α → Scene → Prop} {R : β → Scene → Prop}
  {x : Exec (σ × Chronicle) α} {f : α → Exec (σ × Chronicle) β}

theorem mono (h : Ensures P x Q) (hP : ∀ sc, P' sc → P sc) (hQ : ∀ a sc, Q a sc → Q' a sc) :
    Ensures P' x Q' := fun m r m' hx hsane hm =>
  (h m r m' hx hsane (hP _ hm)).imp_right fun hr a ha => hQ a _ (hr a ha)

theorem imp (h : Ensures P x Q) (hQ : ∀ a sc, Q a sc → Q' a sc) : Ensures P x Q' :=
  h.mono (fun _ hsc => hsc) hQ

/-- A step that leaves the memory and the notes as they are. -/
theorem of_scene_eq (h : ∀ m r m', x m = some (r, m') → m'.memory = m.memory ∧
    m'.chronicle = m.chronicle ∧ ∀ a, r = .ok a → P m.scene → Q a m.scene) : Ensures P x Q := by
  intro m r m' hx hsane hm
  obtain ⟨hmemory, hchronicle, hQ⟩ := h m r m' hx
  have hscene : m'.scene = m.scene := by
    unfold Machine.scene
    rw [hmemory, hchronicle]
  rw [hchronicle, hscene]
  exact ⟨hsane, fun a ha => hQ a ha hm⟩

theorem pure {a : α} (h : ∀ sc, P sc → Q a sc) : Ensures (σ := σ) P (Pure.pure a) Q := by
  refine of_scene_eq fun m r m' hx => ?_
  obtain ⟨rfl, rfl⟩ := Prod.mk.inj (Option.some.inj hx)
  exact ⟨rfl, rfl, fun b hb hm => Except.ok.inj hb ▸ h _ hm⟩

theorem ofExcept {e : Except FlowError α} (h : ∀ a, e = .ok a → ∀ sc, P sc → Q a sc) :
    Ensures (σ := σ) P (.ofExcept e) Q := by
  refine of_scene_eq fun m r m' hx => ?_
  obtain ⟨rfl, rfl⟩ := Prod.mk.inj (Option.some.inj hx)
  exact ⟨rfl, rfl, fun a ha => h a ha _⟩

theorem ofGraph {e : Except GraphError α} (h : ∀ a, e = .ok a → ∀ sc, P sc → Q a sc) :
    Ensures (σ := σ) P (.ofGraph e) Q :=
  ofExcept fun a ha => h a (by cases e <;> simp_all [Except.mapError])

theorem fail {e : FlowError} : Ensures (σ := σ) P (.fail e) Q :=
  ofExcept (e := .error e) fun a ha => by simp at ha

theorem exhausted : Ensures (σ := σ) P .exhausted Q := fun m r m' hx => by
  simp [Exec.exhausted] at hx

theorem emit {e : Event} : Ensures (σ := σ) P (.emit e) fun _ => P := by
  refine of_scene_eq fun m r m' hx => ?_
  obtain ⟨rfl, rfl⟩ := Prod.mk.inj (Option.some.inj hx)
  exact ⟨rfl, rfl, fun _ _ hm => hm⟩

theorem inspect {g : Memory → α} (h : ∀ sc, P sc → Q (g sc.memory) sc) :
    Ensures (σ := σ) P (.inspect g) Q := by
  refine of_scene_eq fun m r m' hx => ?_
  obtain ⟨rfl, rfl⟩ := Prod.mk.inj (Option.some.inj hx)
  exact ⟨rfl, rfl, fun a ha hm => Except.ok.inj ha ▸ h _ hm⟩

theorem modifyMemory {g : Memory → Memory} {Q : Unit → Scene → Prop}
    (h : ∀ sc, P sc → Q () { sc with memory := g sc.memory }) :
    Ensures (σ := σ) P (.modifyMemory g) Q := by
  intro m r m' hx hsane hm
  obtain ⟨rfl, rfl⟩ := Prod.mk.inj (Option.some.inj hx)
  exact ⟨hsane, fun _ _ => h _ hm⟩

/-- A note is in order if it is of a pull that nothing speaks against. -/
theorem note {e : Note} {Q : Unit → Scene → Prop}
    (he : ∀ sc, P sc → ∀ n, e = .begun .pull n → .begun .pull n ∉ sc.present ∧ .done n ∉ sc.present)
    (h : ∀ sc, P sc → Q () { sc with present := e :: sc.present }) :
    Ensures (σ := σ) P (.note e) Q := by
  intro m r m' hx hsane hm
  obtain ⟨rfl, rfl⟩ := Prod.mk.inj (Option.some.inj hx)
  exact ⟨⟨hsane.present.cons (he _ hm), hsane.inner, hsane.closed⟩, fun _ _ => h _ hm⟩

theorem bind (hx : Ensures P x Q) (hf : ∀ a, Ensures (Q a) (f a) R) : Ensures P (x >>= f) R := by
  intro m r m' hb hsane hm
  change Exec.bind x f m = some (r, m') at hb
  unfold Exec.bind at hb
  split at hb
  · simp at hb
  next e m₁ h₁ =>
    obtain ⟨rfl, rfl⟩ := Prod.mk.inj (Option.some.inj hb)
    exact ⟨(hx _ _ _ h₁ hsane hm).1, fun b hb => by simp at hb⟩
  next a m₁ h₁ =>
    obtain ⟨hsane₁, hQ⟩ := hx _ _ _ h₁ hsane hm
    exact hf a _ _ _ hb hsane₁ (hQ a rfl)

/-- An assertion is kept by steps that are put together of steps that keep it. -/
theorem closed : Exec.Closed fun x : Exec (σ × Chronicle) _ => Ensures P x fun _ => P :=
  ⟨fun _ => .pure fun _ h => h, fun _ => .ofGraph fun _ _ _ h => h, fun hx hf => bind hx hf⟩

/-- What the assertion before a step says of other things than the memory and the notes may be used
for the step. -/
theorem of_imp {φ : Prop} (hφ : ∀ sc, P sc → φ) (h : φ → Ensures P x Q) : Ensures P x Q :=
  fun m r m' hx hsane hm => h (hφ _ hm) m r m' hx hsane hm

theorem ofGraph_bind {e : Except GraphError α} (h : ∀ a, e = .ok a → Ensures P (f a) R) :
    Ensures P (Exec.ofGraph e >>= f) R := by
  refine bind (Q := fun a sc => e = .ok a ∧ P sc) (ofGraph fun a ha sc hsc => ⟨ha, hsc⟩) fun a => ?_
  exact of_imp (fun _ hsc => hsc.1) fun ha => (h a ha).mono (fun _ hsc => hsc.2) fun _ _ hb => hb

theorem inspect_bind {g : Memory → α}
    (h : ∀ a, Ensures (fun sc => P sc ∧ g sc.memory = a) (f a) R) :
    Ensures P (Exec.inspect g >>= f) R :=
  bind (Q := fun a sc => P sc ∧ g sc.memory = a) (inspect fun _ hsc => ⟨hsc, rfl⟩) h

theorem attempt (h : Ensures P x Q) :
    Ensures P (.attempt x) fun r sc => ∀ a, r = .ok a → Q a sc := by
  intro m r m' hx hsane hm
  unfold Exec.attempt at hx
  split at hx
  · simp at hx
  next r₁ m₁ h₁ =>
    obtain ⟨rfl, rfl⟩ := Prod.mk.inj (Option.some.inj hx)
    obtain ⟨hsane₁, hQ⟩ := h _ _ _ h₁ hsane hm
    exact ⟨hsane₁, fun b hb => Except.ok.inj hb ▸ hQ⟩

theorem running {n : NodeId} (h : Ensures P x Q)
    (hP : ∀ sc, P' sc →
      P { sc with memory := { sc.memory with running := n :: sc.memory.running } })
    (hQ : ∀ a sc, Q a sc →
      Q' a { sc with memory := { sc.memory with running := sc.memory.running.tail } }) :
    Ensures P' (.running n x) Q' := by
  refine bind (Q := fun _ => P) (modifyMemory hP) fun _ => ?_
  refine bind h.attempt fun r => ?_
  refine bind (Q := fun _ sc => ∀ a, r = .ok a → Q' a sc) (modifyMemory fun sc hr a ha => ?_)
    fun _ => ofExcept fun a ha sc hr => hr a ha
  exact hQ a sc (hr a ha)

variable {A O : Memory → List Note → Prop} {B : α → Memory → List Note → Prop}

/-- A step of the inner flow leaves the notes on the present flow alone. -/
theorem aside
    (h : Ensures (fun sc => A sc.memory sc.present) x fun a sc => B a sc.memory sc.present)
    (F : List Note → Prop) :
    Ensures (fun sc => F sc.present ∧ A sc.memory sc.inner) (.aside x)
      fun a sc => F sc.present ∧ B a sc.memory sc.inner := by
  intro m r m' hx hsane hm
  have hsane' : (⟨m.chronicle.inner, [], m.chronicle.closed⟩ : Chronicle).Sane :=
    ⟨hsane.inner, pulledOnce_nil, hsane.closed⟩
  unfold Exec.aside at hx
  split at hx
  · simp at hx
  next r₁ m₁ h₁ =>
    obtain ⟨rfl, rfl⟩ := Prod.mk.inj (Option.some.inj hx)
    obtain ⟨hsane₁, hB⟩ := h _ _ _ h₁ hsane' hm.2
    exact ⟨⟨hsane.present, hsane₁.present, hsane₁.closed⟩, fun a ha => ⟨hm.1, hB a ha⟩⟩

/-- A step in the memory of another flow leaves the present memory alone. -/
theorem within {memory : Memory}
    (h : ∀ F : List Note → Prop, Ensures (fun sc => F sc.present ∧ A sc.memory sc.inner) x
      fun a sc => F sc.present ∧ B a sc.memory sc.inner) :
    Ensures (fun sc => O sc.memory sc.present ∧ A memory sc.inner) (.within memory x)
      fun r sc => O sc.memory sc.present ∧ B r.1 r.2 sc.inner := by
  intro m r m' hx hsane hm
  unfold Exec.within at hx
  split at hx
  · simp at hx
  next e m₁ h₁ =>
    obtain ⟨rfl, rfl⟩ := Prod.mk.inj (Option.some.inj hx)
    exact ⟨(h (O m.memory) _ _ _ h₁ hsane hm).1, fun b hb => by simp at hb⟩
  next a m₁ h₁ =>
    obtain ⟨rfl, rfl⟩ := Prod.mk.inj (Option.some.inj hx)
    obtain ⟨hsane₁, hB⟩ := h (O m.memory) _ _ _ h₁ hsane hm
    exact ⟨hsane₁, fun b hb => Except.ok.inj hb ▸ hB a rfl⟩

/-- A step with a new inner flow. -/
theorem nesting {J : List Note → Prop}
    (h : Ensures (fun sc => sc.inner = [] ∧ A sc.memory sc.present) x
      fun a sc => B a sc.memory sc.present) :
    Ensures (fun sc => J sc.inner ∧ A sc.memory sc.present) (.nesting x)
      fun a sc => J sc.inner ∧ B a sc.memory sc.present := by
  intro m r m' hx hsane hm
  have hsane' : ({ m.chronicle with inner := [] } : Chronicle).Sane :=
    ⟨hsane.present, pulledOnce_nil, hsane.closed⟩
  unfold Exec.nesting at hx
  split at hx
  · simp at hx
  next r₁ m₁ h₁ =>
    obtain ⟨rfl, rfl⟩ := Prod.mk.inj (Option.some.inj hx)
    obtain ⟨hsane₁, hB⟩ := h _ _ _ h₁ hsane' ⟨rfl, hm.2⟩
    refine ⟨⟨hsane₁.present, hsane.inner, ?_⟩, fun a ha => ⟨hm.1, hB a ha⟩⟩
    intro notes hnotes
    rcases List.mem_cons.1 hnotes with rfl | hnotes
    · exact hsane₁.inner
    · exact hsane₁.closed notes hnotes

end Ensures

end EffectGraph
