import EffectGraph.Proofs.Plain

/-!
# Steps that keep a property of the memory

A step upholds (`Upholds`) a property of the scopes of a flow if it keeps it, whether it fails or
not, and if its result has a given property. Steps built from such steps uphold the property too.
The properties of interest say something of every memoized value (`ScopesHold`). A memory is honest
(`Honest`) if every value memoized in it is the plain value of its port, and a step that upholds
this is sound (`Sound`).
-/

namespace EffectGraph

variable {σ α β : Type}

/-! ## Scopes -/

/-- All values memoized in some scope have a property, which may depend on the port. -/
def ScopesHold (P : PortId → Value → Prop) (scopes : Scopes) : Prop :=
  ∀ f ∈ scopes.top :: scopes.outer, ∀ p v, f.get? p = some v → P p v

namespace ScopesHold

variable {P : PortId → Value → Prop} {scopes : Scopes}

theorem base {f : Frame} (h : ∀ p v, f.get? p = some v → P p v) : ScopesHold P (.base f) := by
  intro f' hf'
  obtain rfl := List.mem_singleton.1 hf'
  exact h

theorem empty : ScopesHold P (.base .empty) := base fun p v h => by simp at h

theorem findIn? {fs : List Frame} (h : ∀ f ∈ fs, ∀ p v, f.get? p = some v → P p v) {p : PortId}
    {v : Value} (hv : Scopes.findIn? p fs = some v) : P p v := by
  induction fs with
  | nil => simp [Scopes.findIn?] at hv
  | cons f fs ih =>
    rw [Scopes.findIn?] at hv
    cases hf : f.get? p with
    | some w =>
      rw [hf] at hv
      exact Option.some.inj hv ▸ h f (.head _) p w hf
    | none =>
      rw [hf] at hv
      exact ih (fun f' hf' => h f' (.tail _ hf')) hv

theorem find? (h : ScopesHold P scopes) {p : PortId} {v : Value} (hv : scopes.find? p = some v) :
    P p v := findIn? h hv

theorem set (h : ScopesHold P scopes) {p : PortId} {v : Value} (hv : P p v) :
    ScopesHold P (scopes.set p v) := by
  intro f hf
  rcases List.mem_cons.1 hf with rfl | hf
  · intro q w hw
    have hw : (scopes.top.insert p v).get? q = some w := hw
    rw [Table.get?_insert] at hw
    split at hw
    next hq =>
      obtain rfl := Option.some.inj hw
      exact hq ▸ hv
    next => exact h _ (.head _) q w hw
  · exact h f (.tail _ hf)

theorem push (h : ScopesHold P scopes) : ScopesHold P scopes.push := by
  intro f hf
  rcases List.mem_cons.1 hf with rfl | hf
  · intro p v hv
    have hv : (Table.empty : Frame).get? p = some v := hv
    simp at hv
  · exact h f hf

theorem pop (h : ScopesHold P scopes) : ScopesHold P scopes.pop.1 := by
  obtain ⟨top, outer⟩ := scopes
  cases outer with
  | nil => exact h
  | cons f fs => exact fun f' hf' => h f' (.tail _ hf')

end ScopesHold

/-! ## Steps -/

/-- A step that keeps a property of the scopes, however it ends, and whose result has a property. -/
def Upholds (I : Scopes → Prop) (x : Exec σ α) (Q : α → Prop) : Prop :=
  ∀ m r m', x m = some (r, m') → I m.memory.scopes →
    I m'.memory.scopes ∧ ∀ a, r = .ok a → Q a

namespace Upholds

variable {I : Scopes → Prop} {Q R : α → Prop} {P : β → Prop} {x : Exec σ α} {f : α → Exec σ β}

theorem mono (h : Upholds I x Q) (hQ : ∀ a, Q a → R a) : Upholds I x R := fun m r m' hx hm =>
  (h m r m' hx hm).imp_right fun hr a ha => hQ a (hr a ha)

/-- A step that leaves the memory as it is. -/
theorem of_memory_eq (h : ∀ m r m', x m = some (r, m') →
    m'.memory = m.memory ∧ ∀ a, r = .ok a → Q a) : Upholds I x Q := by
  intro m r m' hx hm
  obtain ⟨hmem, hQ⟩ := h m r m' hx
  exact ⟨hmem ▸ hm, hQ⟩

theorem pure {a : α} (h : Q a) : Upholds (σ := σ) I (Pure.pure a) Q := by
  refine of_memory_eq fun m r m' hx => ?_
  obtain ⟨rfl, rfl⟩ := Prod.mk.inj (Option.some.inj hx)
  exact ⟨rfl, fun b hb => Except.ok.inj hb ▸ h⟩

theorem ofExcept {e : Except FlowError α} (h : ∀ a, e = .ok a → Q a) :
    Upholds (σ := σ) I (Exec.ofExcept e) Q := by
  refine of_memory_eq fun m r m' hx => ?_
  obtain ⟨rfl, rfl⟩ := Prod.mk.inj (Option.some.inj hx)
  exact ⟨rfl, h⟩

theorem ofGraph {e : Except GraphError α} (h : ∀ a, e = .ok a → Q a) :
    Upholds (σ := σ) I (Exec.ofGraph e) Q :=
  ofExcept fun a ha => h a (by cases e <;> simp_all [Except.mapError])

theorem fail {e : FlowError} : Upholds (σ := σ) I (Exec.fail e) Q :=
  ofExcept (e := .error e) fun a ha => by simp at ha

theorem exhausted : Upholds (σ := σ) I Exec.exhausted Q := fun m r m' hx => by
  simp [Exec.exhausted] at hx

theorem emit {e : Event} : Upholds (σ := σ) I (Exec.emit e) fun _ => True := by
  refine of_memory_eq fun m r m' hx => ?_
  obtain ⟨rfl, rfl⟩ := Prod.mk.inj (Option.some.inj hx)
  exact ⟨rfl, fun _ _ => trivial⟩

theorem bind (hx : Upholds I x R) (hf : ∀ a, R a → Upholds I (f a) P) : Upholds I (x >>= f) P := by
  intro m r m' hb hm
  change Exec.bind x f m = some (r, m') at hb
  unfold Exec.bind at hb
  split at hb
  · simp at hb
  next e m₁ h₁ =>
    obtain ⟨rfl, rfl⟩ := Prod.mk.inj (Option.some.inj hb)
    exact ⟨(hx _ _ _ h₁ hm).1, fun b hb => by simp at hb⟩
  next a m₁ h₁ =>
    obtain ⟨hm₁, hR⟩ := hx _ _ _ h₁ hm
    exact hf a (hR a rfl) _ _ _ hb hm₁

/-- A failure that is turned into a result leaves the memory as it was. -/
theorem attempt (h : Upholds I x Q) : Upholds I (Exec.attempt x) fun r => ∀ a, r = .ok a → Q a := by
  intro m r m' hx hm
  unfold Exec.attempt at hx
  split at hx
  · simp at hx
  next r₁ m₁ h₁ =>
    obtain ⟨rfl, rfl⟩ := Prod.mk.inj (Option.some.inj hx)
    obtain ⟨hm₁, hQ⟩ := h _ _ _ h₁ hm
    exact ⟨hm₁, fun b hb => Except.ok.inj hb ▸ hQ⟩

theorem inspect {g : Memory → α} (h : ∀ mem, I mem.scopes → Q (g mem)) :
    Upholds (σ := σ) I (Exec.inspect g) Q := by
  intro m r m' hx hm
  obtain ⟨rfl, rfl⟩ := Prod.mk.inj (Option.some.inj hx)
  exact ⟨hm, fun a ha => Except.ok.inj ha ▸ h m.memory hm⟩

theorem modifyMemory {g : Memory → Memory} (h : ∀ mem, I mem.scopes → I (g mem).scopes) :
    Upholds (σ := σ) I (Exec.modifyMemory g) fun _ => True := by
  intro m r m' hx hm
  obtain ⟨rfl, rfl⟩ := Prod.mk.inj (Option.some.inj hx)
  exact ⟨h m.memory hm, fun _ _ => trivial⟩

theorem modifyScopes {g : Scopes → Scopes} (h : ∀ scopes, I scopes → I (g scopes)) :
    Upholds (σ := σ) I (Exec.modifyScopes g) fun _ => True :=
  modifyMemory fun mem hm => h mem.scopes hm

/-- A look at a port tells what the scopes hold for it. -/
theorem peek (p : PortId) :
    Upholds (σ := σ) I (Exec.peek p) fun r => ∃ scopes, I scopes ∧ scopes.find? p = r :=
  inspect fun mem hm => ⟨mem.scopes, hm, rfl⟩

theorem running {n : NodeId} (h : Upholds I x Q) : Upholds I (Exec.running n x) Q := by
  refine bind (modifyMemory fun mem hm => hm) fun _ _ => ?_
  refine bind h.attempt fun r hr => ?_
  refine bind (modifyMemory fun mem hm => hm) fun _ _ => ?_
  exact ofExcept hr

/-- A step in the memory of another flow keeps what it upholds there, and does not concern the
present flow. -/
theorem within {J : Scopes → Prop} {memory : Memory} (hmemory : I memory.scopes)
    (h : Upholds I x Q) :
    Upholds J (Exec.within memory x) fun r => Q r.1 ∧ I r.2.scopes := by
  intro m r m' hx hm
  unfold Exec.within at hx
  split at hx
  · simp at hx
  next e m₁ h₁ =>
    obtain ⟨rfl, rfl⟩ := Prod.mk.inj (Option.some.inj hx)
    exact ⟨hm, fun b hb => by simp at hb⟩
  next a m₁ h₁ =>
    obtain ⟨rfl, rfl⟩ := Prod.mk.inj (Option.some.inj hx)
    obtain ⟨hm₁, hQ⟩ := h _ _ _ h₁ hmemory
    exact ⟨hm, fun b hb => Except.ok.inj hb ▸ ⟨hQ a rfl, hm₁⟩⟩

end Upholds

/-! ## Honest memories -/

variable {s : Setting}

/-- All values memoized in a frame are plain. -/
def HonestFrame (s : Setting) (f : Frame) : Prop := ∀ p v, f.get? p = some v → s.Plain p v

/-- All values memoized in some scope are plain. -/
abbrev HonestScopes (s : Setting) : Scopes → Prop := ScopesHold s.Plain

/-- All values memoized are plain. -/
def Honest (s : Setting) (mem : Memory) : Prop := HonestScopes s mem.scopes

theorem honestFrame_empty : HonestFrame s .empty := by
  intro p v h
  simp at h

/-- A step that leaves an honest memory honest, however it ends, and whose result has a property. -/
abbrev Sound (s : Setting) (x : Exec σ α) (Q : α → Prop) : Prop := Upholds (HonestScopes s) x Q

end EffectGraph
