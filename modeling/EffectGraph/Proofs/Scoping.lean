import EffectGraph.Proofs.Bookkeeping

/-!
# Scopes isolate

Whatever bodies do, scopes only change in that a value is memoized in the innermost frame, a scope
is opened, or the innermost one is closed and is not the last (`Scopes.Move`). If bodies open and
close scopes in pairs (`Program.Bracketed`), a task leaves all frames but the innermost alone
(`outer_exec`). So what is asked of a flow between the opening of a scope and the closing of it has
no effect on what is memoized outside (`scopes_isolate`).
-/

namespace EffectGraph

open EffectGraph.Graph Relation

variable {σ α : Type}

/-! ## Changes of scopes -/

/-- A change of the scopes, none of which concerns a frame other than the innermost. -/
inductive Scopes.Move (s : Scopes) : Scopes → Prop
  | write (p : PortId) (v : Value) : Move s (s.set p v)
  | push : Move s s.push
  | pop (h : s.outer ≠ []) : Move s s.pop.1

/-- Any number of changes of the scopes. -/
abbrev Scopes.Moves : Scopes → Scopes → Prop := ReflTransGen Scopes.Move

/-- The outermost frame, which a flow starts with. -/
def Scopes.bottom (s : Scopes) : Frame := s.outer.getLast?.getD s.top

/-- A frame in which further values are memoized. -/
def Frame.Grows : Frame → Frame → Prop := ReflTransGen fun f f' => ∃ p v, f' = f.insert p v

/-- The outermost frame is never lost, whatever changes. -/
theorem Scopes.Moves.bottom {s s' : Scopes} (h : s.Moves s') : Frame.Grows s.bottom s'.bottom := by
  induction h with
  | refl => exact .refl
  | @tail a b _ hmove ih =>
    cases hmove with
    | write p v =>
      cases houter : a.outer with
      | nil =>
        have hlast : Frame.Grows a.bottom (a.set p v).bottom := by
          simp only [Scopes.bottom, Scopes.set, houter]
          exact .single ⟨p, v, rfl⟩
        exact ih.trans hlast
      | cons f fs =>
        have hsame : (a.set p v).bottom = a.bottom := by
          simp [Scopes.bottom, Scopes.set, houter, List.getLast?_cons]
        rwa [hsame]
    | push =>
      have hsame : a.push.bottom = a.bottom := by
        simp [Scopes.bottom, Scopes.push, List.getLast?_cons]
      rwa [hsame]
    | pop h =>
      have hsame : a.pop.1.bottom = a.bottom := by
        obtain ⟨top, outer⟩ := a
        cases outer with
        | nil => exact absurd rfl h
        | cons f fs => simp [Scopes.bottom, Scopes.pop, List.getLast?_cons]
      rwa [hsame]

theorem Scopes.moves_pop (s : Scopes) : s.Moves s.pop.1 := by
  by_cases h : s.outer = []
  · have hsame : s.pop.1 = s := by
      unfold Scopes.pop
      rw [h]
    rw [hsame]
  · exact .single (.pop h)

theorem Memory.lasting_moves : Memory.Lasting fun mem mem' => mem.scopes.Moves mem'.scopes where
  refl _ := .refl
  trans h h' := h.trans h'
  memoize := .single (.write _ _)
  running h := h

/-- The frames other than the innermost are the same before and after. -/
theorem Memory.lasting_outer :
    Memory.Lasting fun mem mem' => mem'.scopes.outer = mem.scopes.outer where
  refl _ := rfl
  trans h h' := h'.trans h
  memoize := rfl
  running h := h

/-! ## Scopes in pairs -/

/-- A program that closes some scopes that are open when it starts, and besides these only scopes
that it has opened itself. -/
inductive Program.Bracketed : Nat → Program α → Prop
  | pure (a : α) : Bracketed 0 (.pure a)
  | openScope {k : Nat} {next : Request.openScope.Answer → Program α}
    (hnext : ∀ a, Bracketed (k + 1) (next a)) : Bracketed k (.ask .openScope next)
  | closeScope {k : Nat} {next : Request.closeScope.Answer → Program α}
    (hnext : ∀ a, Bracketed k (next a)) : Bracketed (k + 1) (.ask .closeScope next)
  | ask {k : Nat} {q : Request} {next : q.Answer → Program α} (hopen : q ≠ .openScope)
    (hclose : q ≠ .closeScope) (hnext : ∀ a, Bracketed k (next a)) : Bracketed k (.ask q next)

/-- A flow over a graph of which all bodies open and close scopes in pairs. -/
def Setting.Bracketed (s : Setting) : Prop :=
  ∀ node ∈ s.graph.nodes, ∀ d, node.kind = .action d → ∀ b, d.behaviour = .method b →
    ∀ c, (b.body c).Bracketed 0

namespace Engine

variable {engine : Engine σ} {s : Setting} {host : Host σ}

variable (he : ∀ t, Honours (.ofMemory fun mem mem' => mem'.scopes.outer = mem.scopes.outer)
  (engine s t))

include he

/-- A request leaves a program that closes as many scopes more as there are frames more. -/
theorem outer_answer {k : Nat} {q : Request} {next : q.Answer → Program α}
    (h : (Program.ask q next).Bracketed k) {a : q.Answer} {m m' : Machine σ}
    (hanswer : engine.answer s host q m = some (.ok a, m')) :
    ∃ j, (next a).Bracketed j ∧
      m'.memory.scopes.outer.drop j = m.memory.scopes.outer.drop k := by
  cases h with
  | openScope hnext =>
    obtain ⟨-, rfl⟩ := Prod.mk.inj (Option.some.inj hanswer)
    exact ⟨k + 1, hnext a, rfl⟩
  | @closeScope k _ hnext =>
    obtain ⟨-, rfl⟩ := Prod.mk.inj (Option.some.inj hanswer)
    refine ⟨k, hnext a, ?_⟩
    show m.memory.scopes.pop.1.outer.drop k = m.memory.scopes.outer.drop (k + 1)
    unfold Scopes.pop
    split
    next houter => simp [houter]
    next f fs houter => rw [houter, List.drop_succ_cons]
  | ask hopen hclose hnext =>
    have hsame := Memory.lasting_outer.lawful.answer he .attempt_ofMemory
      (Memory.lasting_outer.consult host) q (fun h => absurd h hopen) fun h => absurd h hclose
    exact ⟨k, hnext a, by rw [hsame m _ m' hanswer]⟩

/-- A program closes as many scopes as it is said to, and leaves the other frames outside alone. -/
theorem outer_runProgram {x : Program α} {k : Nat} (h : x.Bracketed k) {m m' : Machine σ}
    {r : Except FlowError α} (hrun : engine.runProgram s host x m = some (r, m')) :
    m'.memory.scopes.outer = m.memory.scopes.outer.drop k := by
  induction x generalizing k m with
  | pure a =>
    cases h
    obtain ⟨-, rfl⟩ := Prod.mk.inj (Option.some.inj hrun)
    rfl
  | ask q next ih =>
    rcases Exec.bind_eq_some hrun with ⟨e, -, hanswer⟩ | ⟨a, m₁, hanswer, hrest⟩
    · exact nomatch answer_succeeds hanswer
    · obtain ⟨j, hj, houter⟩ := outer_answer he h hanswer
      exact (ih a hj hrest).trans houter

end Engine

/-- If bodies open and close scopes in pairs, a task leaves all frames but the innermost alone. -/
theorem outer_exec {s : Setting} (hs : s.Bracketed) (host : Host σ) (k : Nat) (t : Task) :
    Honours (.ofMemory fun mem mem' => mem'.scopes.outer = mem.scopes.outer)
      (exec host k s t) := by
  have hR := Memory.lasting_outer
  induction k generalizing t with
  | zero => exact .exhausted
  | succ k ih =>
    refine hR.lawful.step ih (fun node hnode d hkind b hb => hR.lawful.entering _ _ ?_)
      (fun _ _ _ _ _ _ _ memory t => hR.within memory _) t
    refine hR.lawful.invokeMethod ih (fun args => ?_) hR.blame
    have hbody := hs node (node?_mem hnode).1 d hkind b hb
    exact fun m r m' hrun => Engine.outer_runProgram ih (hbody _) hrun

theorem moves_exec (host : Host σ) (k : Nat) (s : Setting) (t : Task) :
    Honours (.ofMemory fun mem mem' => mem.scopes.Moves mem'.scopes) (exec host k s t) :=
  Memory.lasting_moves.honours_exec (fun _ => .single .push) (fun mem => mem.scopes.moves_pop) host
    k s t

theorem moves_answer (host : Host σ) (k : Nat) (s : Setting) (q : Request) :
    Honours (.ofMemory fun mem mem' => mem.scopes.Moves mem'.scopes)
      (Engine.answer (exec host k) s host q) :=
  Memory.lasting_moves.honours_answer (fun _ => .single .push) (fun mem => mem.scopes.moves_pop)
    host k s q

/-! ## Sessions -/

/-- At every moment of a program the frames are those outside and those of the scopes that it still
has to close. -/
theorem Setting.Moment.bracketed {s : Setting} (hs : s.Bracketed) {host : Host σ}
    {x y : Program α} {k : Nat} (hx : x.Bracketed k) {m m' : Machine σ}
    (h : s.Moment host x m y m') : ∃ j, y.Bracketed j ∧
      m'.memory.scopes.outer.drop j = m.memory.scopes.outer.drop k := by
  induction h with
  | start => exact ⟨k, hx, rfl⟩
  | answered l _ hanswer ih =>
    obtain ⟨j, hj, houter⟩ := ih
    obtain ⟨i, hi, houter'⟩ := Engine.outer_answer (outer_exec hs host l) hj hanswer
    exact ⟨i, hi, houter'.trans houter⟩

/-- Scopes isolate. If the bodies of a graph open and close scopes in pairs, then so does what is
asked of a flow, request by request, between the opening of a scope and the closing of it: at every
moment in between the frames outside are as they were, and after it the same is memoized for every
port, and there are as many scopes, as before it. No task touches a frame other than the innermost.
And whatever bodies do, scopes only change in that a value is memoized in the innermost frame, a
scope is opened, or the innermost one is closed and is not the last; so the outermost frame is never
lost. -/
theorem scopes_isolate (host : Host σ) (s : Setting) :
    (s.Bracketed → ∀ (α : Type) (x : Program α), x.Bracketed 0 → ∀ k m m₀,
      Engine.answer (exec host k) s host .openScope m = some (.ok (), m₀) →
      (∀ y m₁, s.Moment host x m₀ y m₁ →
        (m.memory.scopes.top :: m.memory.scopes.outer) <:+ m₁.memory.scopes.outer) ∧
      ∀ a m₁, s.Moment host x m₀ (.pure a) m₁ → ∀ l f m₂,
        Engine.answer (exec host l) s host .closeScope m₁ = some (.ok f, m₂) →
        (∀ p, m₂.memory.scopes.find? p = m.memory.scopes.find? p) ∧
          m₂.memory.scopes.depth = m.memory.scopes.depth) ∧
    (s.Bracketed → ∀ k t m r m', exec host k s t m = some (r, m') →
      m'.memory.scopes.outer = m.memory.scopes.outer) ∧
    (∀ k t m r m', exec host k s t m = some (r, m') →
      m.memory.scopes.Moves m'.memory.scopes ∧
        Frame.Grows m.memory.scopes.bottom m'.memory.scopes.bottom) ∧
    ∀ k q m r m', Engine.answer (exec host k) s host q m = some (r, m') →
      m.memory.scopes.Moves m'.memory.scopes ∧
        Frame.Grows m.memory.scopes.bottom m'.memory.scopes.bottom := by
  refine ⟨fun hs α x hx k m m₀ hopen => ?_, fun hs k t m r m' h => outer_exec hs host k t m r m' h,
    fun k t m r m' h => ⟨moves_exec host k s t m r m' h, (moves_exec host k s t m r m' h).bottom⟩,
    fun k q m r m' h =>
      ⟨moves_answer host k s q m r m' h, (moves_answer host k s q m r m' h).bottom⟩⟩
  obtain ⟨-, rfl⟩ := Prod.mk.inj (Option.some.inj hopen)
  refine ⟨fun y m₁ hmoment => ?_, fun a m₁ hend l f m₂ hclose => ?_⟩
  · obtain ⟨j, -, houter⟩ := hmoment.bracketed hs hx
    have houter : m₁.memory.scopes.outer.drop j = m.memory.scopes.top :: m.memory.scopes.outer :=
      houter
    exact houter ▸ List.drop_suffix j _
  · obtain ⟨j, hj, houter⟩ := hend.bracketed hs hx
    cases hj
    have houter : m₁.memory.scopes.outer = m.memory.scopes.top :: m.memory.scopes.outer := houter
    obtain ⟨-, rfl⟩ := Prod.mk.inj (Option.some.inj hclose)
    have hscopes : m₁.memory.scopes.pop.1 = m.memory.scopes := by
      unfold Scopes.pop
      rw [houter]
    exact ⟨fun p => congrArg (·.find? p) hscopes, congrArg Scopes.depth hscopes⟩

/-- A kind whose body memoizes a value in a scope of its own, closes the scope, and fails. -/
def MethodDecl.secluded : MethodDecl where
  name := "Secluded"
  returns := some .int
  body := some fun _ => .ask .openScope fun _ => .ask (.write ⟨0, 2⟩ (.int 3)) fun _ =>
    .ask .closeScope fun _ => .pure (.error (.action (.failed "no")))

/-- A node of this kind alone. -/
def secludedFlow : Setting :=
  .top ((Edit.addNode (.action MethodDecl.secluded.kind)).perform (.empty 0 .standard)) .empty
    ⟨32, true⟩ .standard

theorem bracketed_secludedFlow : secludedFlow.Bracketed := by
  have hbody : ∀ c,
      ((MethodDecl.secluded.body.getD (.compute fun _ => .ok .empty)) c).Bracketed 0 :=
    fun c => .openScope fun _ => .ask (by simp) (by simp) fun _ => .closeScope fun _ => .pure _
  have hg : Reachable (fun d => ∀ b, d.behaviour = .method b → ∀ c, (b.body c).Bracketed 0)
      secludedFlow.graph := by
    refine .edited (.addNode (.action MethodDecl.secluded.kind)) (fun k hk => ?_)
      (.blank 0 .standard)
    obtain rfl := Option.some.inj hk
    intro b hb c
    obtain rfl := Behaviour.method.inj hb
    exact hbody c
  exact fun node hnode d hkind => (hg.invariant.2 node hnode).1 d hkind

/-- Between the opening of a scope and the closing of it a value is memoized for the output of the
node, and the node is invoked and fails. Afterwards the value is memoized that was there before. -/
theorem scopes_isolate_secludedFlow :
    let m : Machine Unit := ⟨.start (Table.empty.insert ⟨0, 2⟩ (.int 1)), [], ()⟩
    ∃ m₀ m₁ m₂ f, Engine.answer (exec nullHost 5) secludedFlow nullHost .openScope m =
        some (.ok (), m₀) ∧
      secludedFlow.Moment nullHost (.ask (.write ⟨0, 2⟩ (.int 5)) fun _ => .ask (.invoke ⟨1⟩) .pure)
        m₀ (.pure (.error (.action ⟨1⟩ "Secluded" (.failed "no")))) m₁ ∧
      m₁.memory.scopes.find? ⟨0, 2⟩ = some (.int 5) ∧
      Engine.answer (exec nullHost 5) secludedFlow nullHost .closeScope m₁ = some (.ok f, m₂) ∧
      (∀ p, m₂.memory.scopes.find? p = m.memory.scopes.find? p) ∧
      m₂.memory.scopes.depth = 1 := by
  intro m
  let x : Program (Except FlowError (Option PortId)) :=
    .ask (.write ⟨0, 2⟩ (.int 5)) fun _ => .ask (.invoke ⟨1⟩) .pure
  have hx : x.Bracketed 0 :=
    .ask (by simp) (by simp) fun _ => .ask (by simp) (by simp) fun _ => .pure _
  let inside (f : Frame) (log : List Event) : Machine Unit :=
    ⟨⟨⟨f, [Table.empty.insert ⟨0, 2⟩ (.int 1)]⟩, []⟩, log, ()⟩
  let f : Frame := Table.empty.insert ⟨0, 2⟩ (.int 5)
  let log : List Event :=
    [.nodeFailed ⟨1⟩ "Secluded" 0 [] (.failed "no"), .nodeInvoked ⟨1⟩ "Secluded"]
  have hopen : Engine.answer (exec nullHost 5) secludedFlow nullHost .openScope m =
      some (.ok (), inside .empty []) := rfl
  have hbegin : secludedFlow.Moment nullHost x (inside .empty []) x (inside .empty []) := .start
  have hwrite : secludedFlow.Moment nullHost x (inside .empty []) (.ask (.invoke ⟨1⟩) .pure)
      (inside f []) := hbegin.answered (q := .write ⟨0, 2⟩ (.int 5)) (a := ()) 5 rfl
  have hinvoke : secludedFlow.Moment nullHost x (inside .empty [])
      (.pure (.error (.action ⟨1⟩ "Secluded" (.failed "no")))) (inside f log) :=
    hwrite.answered (q := .invoke ⟨1⟩) (a := .error (.action ⟨1⟩ "Secluded" (.failed "no"))) 5 rfl
  have hclose : Engine.answer (exec nullHost 5) secludedFlow nullHost .closeScope (inside f log) =
      some (.ok (some f), ⟨m.memory, log, ()⟩) := rfl
  have hkept := ((scopes_isolate nullHost secludedFlow).1 bracketed_secludedFlow _ x hx 5 m _
    hopen).2 _ _ hinvoke 5 _ _ hclose
  exact ⟨_, _, _, _, hopen, hinvoke, rfl, hclose, hkept.1, hkept.2⟩

end EffectGraph
