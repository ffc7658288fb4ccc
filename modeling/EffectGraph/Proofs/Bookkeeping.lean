import EffectGraph.Proofs.Contract
import EffectGraph.Proofs.Publishing
import EffectGraph.Proofs.Supervision

/-!
# The bookkeeping of the interpreter

A flow notes the nodes that it is running, and each flow that a generated node opens is given its
depth and the nodes that led to it. Whatever bodies do that wait for the answers to their requests,
also if they drive the flow themselves and pass over the errors that they get: no request changes
these notes (`Memory.lasting_running`), the node of a body is the innermost one noted while the body
is at work, and flows are not nested more deeply than the options allow (`supervised_eq_levels`).
The results are put together in `bookkeeping_kept`.
-/

namespace EffectGraph

open EffectGraph.Graph

variable {σ α : Type}

/-! ## The nodes being run -/

/-- The nodes noted as being run are the same before and after. -/
theorem Memory.lasting_running : Memory.Lasting fun mem mem' => mem'.running = mem.running where
  refl _ := rfl
  trans h h' := h'.trans h
  memoize := rfl
  running h := congrArg List.tail h

/-- A task leaves the nodes noted that are being run, whatever bodies it runs, however it ends. -/
theorem running_exec (host : Host σ) (k : Nat) (s : Setting) (t : Task) :
    Honours (.ofMemory fun mem mem' => mem'.running = mem.running) (exec host k s t) :=
  Memory.lasting_running.honours_exec (fun _ => rfl) (fun _ => rfl) host k s t

theorem running_answer (host : Host σ) (k : Nat) (s : Setting) (q : Request) :
    Honours (.ofMemory fun mem mem' => mem'.running = mem.running)
      (Engine.answer (exec host k) s host q) :=
  Memory.lasting_running.honours_answer (fun _ => rfl) (fun _ => rfl) host k s q

/-! ## Bodies at work -/

/-- Errors of the interpreter are answers. -/
theorem Engine.answer_succeeds {engine : Engine σ} {s : Setting} {host : Host σ} {q : Request}
    {m m' : Machine σ} {r : Except FlowError q.Answer}
    (h : engine.answer s host q m = some (r, m')) : ∃ a, r = .ok a := by
  cases q with
  | read | run | runNode | invoke =>
    change Exec.attempt _ m = _ at h
    unfold Exec.attempt at h
    split at h
    · simp at h
    · obtain ⟨rfl, -⟩ := Prod.mk.inj (Option.some.inj h)
      exact ⟨_, rfl⟩
  | _ =>
    obtain ⟨rfl, -⟩ := Prod.mk.inj (Option.some.inj h)
    exact ⟨_, rfl⟩

/-- An invocation of a method node has resolved the arguments and starts the body. -/
def Setting.Starts (s : Setting) (host : Host σ) (k : Nat) (n : NodeId) (define : String)
    (m : Machine σ) (x : Program (Except BodyError Outcome)) (m₀ : Machine σ) : Prop :=
  ∃ node d b args, s.graph.node? n = some node ∧ node.kind = .action d ∧ d.name = define ∧
    d.behaviour = .method b ∧
    Engine.bindParams (exec host k) s node b.params .empty (m.entering n define) =
      some (.ok args, m₀) ∧
    x = b.body ⟨n, args, s.environment⟩

/-- The moments that a program comes to while a flow answers its requests, each with an allowance of
its own: what is left of the program and the machine then. -/
inductive Setting.Moment (s : Setting) (host : Host σ) (x : Program α) (m : Machine σ) :
    Program α → Machine σ → Prop
  | start : Moment s host x m x m
  | answered {q : Request} {next : q.Answer → Program α} {a : q.Answer} {m₁ m₂ : Machine σ}
    (k : Nat) (h : Moment s host x m (.ask q next) m₁)
    (hanswer : Engine.answer (exec host k) s host q m₁ = some (.ok a, m₂)) :
    Moment s host x m (next a) m₂

theorem Setting.Moment.running_eq {s : Setting} {host : Host σ} {x y : Program α}
    {m m' : Machine σ} (h : s.Moment host x m y m') : m'.memory.running = m.memory.running := by
  induction h with
  | start => rfl
  | answered k _ hanswer ih => exact (running_answer host k s _ _ _ _ hanswer).trans ih

theorem Setting.Starts.running_eq {s : Setting} {host : Host σ} {k : Nat} {n : NodeId}
    {define : String} {m m₀ : Machine σ} {x : Program (Except BodyError Outcome)}
    (h : s.Starts host k n define m x m₀) : m₀.memory.running = n :: m.memory.running := by
  obtain ⟨node, d, b, args, -, -, -, -, hargs, -⟩ := h
  have hK : (Contract.ofMemory (σ := σ) fun mem mem' => mem'.running = mem.running).Lawful :=
    Memory.lasting_running.lawful
  exact Engine.closed_bindParams hK.closed
    (fun p => running_exec host k s (.read p)) node b.params .empty _ _ _ hargs

/-! ## Nested flows -/

/-- The flows that runs of a flow open for generated kinds, with the number of flows between. -/
inductive Setting.Nests (s : Setting) : Nat → Setting → Prop
  | self : Nests s 0 s
  | child {k : Nat} {u : Setting} {node : Node Definition} {d : Definition}
    {inner : Graph Definition} (hnode : node ∈ u.graph.nodes) (hkind : node.kind = .action d)
    (hinner : d.behaviour = .generated inner) (h : Nests s k u) :
    Nests s (k + 1) (u.child inner node.id)

namespace Setting.Nests

variable {s u : Setting} {k : Nat}

theorem options_eq (h : s.Nests k u) : u.options = s.options := by
  induction h with
  | self => rfl
  | child _ _ _ _ ih => exact ih

theorem depth_eq (h : s.Nests k u) : u.depth = s.depth + k := by
  induction h with
  | self => rfl
  | child _ _ _ _ ih => exact congrArg (· + 1) ih

/-- A flow has a caller for each of the flows around it. -/
theorem length_callers (h : s.Nests k u) : u.callers.length = s.callers.length + k := by
  induction h with
  | self => rfl
  | @child k u node d inner _ _ _ _ ih =>
    show (u.callers ++ [node.id]).length = s.callers.length + (k + 1)
    rw [List.length_append, ih]
    rfl

theorem depth_of_top (h : s.Nests k u) (htop : s.depth = 0) : u.depth = k := by
  rw [h.depth_eq, htop, Nat.zero_add]

theorem length_callers_of_top (h : s.Nests k u) (htop : s.callers = []) :
    u.callers.length = k := by
  rw [h.length_callers, htop, List.length_nil, Nat.zero_add]

end Setting.Nests

/-- Equality of steps is respected by the interpreter. -/
theorem Exec.fullCongruence_eq (host : Host σ) :
    Exec.FullCongruence host host fun x y : Exec σ _ => x = y where
  pure _ := rfl
  fail _ := rfl
  bind := by
    intro α β x y f g hx hf
    rw [hx, funext hf]
  inspect _ := rfl
  memoize _ _ := rfl
  emit _ := rfl
  running _ _ _ h := h ▸ rfl
  exhausted := rfl
  attempt h := h ▸ rfl
  within _ _ _ h := h ▸ rfl
  openScope := rfl
  closeScope := rfl
  consult _ := rfl

/-- Engines that agree on the flow and, as far as it may open them, on the flows inside do the same
in a step. -/
theorem Engine.step_congr {engine engine' : Engine σ} {host : Host σ} {u : Setting}
    (he : ∀ t, engine u t = engine' u t)
    (hchild : ∀ node ∈ u.graph.nodes, ∀ d, node.kind = .action d → ∀ inner,
      d.behaviour = .generated inner → u.depth + 1 ≤ u.options.maxCallDepth →
        ∀ t, engine (u.child inner node.id) t = engine' (u.child inner node.id) t) (t : Task) :
    engine.step host u t = engine'.step host u t := by
  have hC := Exec.fullCongruence_eq host
  refine hC.step (o := u.options) he rfl (fun node _ d _ b _ => hC.entering _ _ ?_)
    (fun node hnode d hkind inner hinner hdepth memory t => ?_) t
  · exact hC.invokeMethod (o := u.options) he
      (fun args => hC.runProgram (o := u.options) (hC.answer (o := u.options) he) _) fun _ => rfl
  · exact congrArg (Exec.within memory) (hchild node hnode d hkind inner hinner hdepth t)

/-- A flow that passes a test whatever it has memoized is left to itself. -/
theorem watch_of_passes {test : Test} {u : Setting} (htest : ∀ scopes, test u scopes = true)
    (alarm engine : Engine σ) (t : Task) : watch test alarm engine u t = engine u t := by
  funext m
  unfold watch
  rw [if_pos (htest _)]
  cases engine u t m with
  | none => rfl
  | some r => exact if_pos (htest _)

/-- A supervisor does not interfere that lets all flows pass that are nested no more deeply than the
options allow, since no others are opened. -/
theorem supervised_eq_levels {s : Setting} (htop : s.depth = 0) {test : Test}
    (htest : ∀ u k, s.Nests k u → k ≤ s.options.maxCallDepth → ∀ scopes, test u scopes = true)
    (alarm base : Engine σ) (host : Host σ) (n : Nat) {u : Setting} {k : Nat} (hu : s.Nests k u)
    (hk : k ≤ s.options.maxCallDepth) (t : Task) :
    supervised test alarm base host n u t = levels base host n u t := by
  induction n generalizing u k t with
  | zero => exact watch_of_passes (htest u k hu hk) alarm base t
  | succ n ih =>
    have hstep := watch_of_passes (htest u k hu hk) alarm
      (Engine.step (supervised test alarm base host n) host) t
    refine hstep.trans (Engine.step_congr (ih hu hk) ?_ t)
    intro node hnode d hkind inner hinner hdepth
    refine ih (.child hnode hkind hinner hu) ?_
    rwa [hu.depth_of_top htop, hu.options_eq] at hdepth

/-- The interpreter leaves its bookkeeping as it found it, over every graph, in every state of a
flow and whatever bodies do that wait for the answers to their requests. A request that is answered,
be it with a result or with an error, leaves a flow that has the same status but for the number of
scopes: the same nodes being run, the same callers and the same depth. At every moment of a body
that is not waiting for an answer the last of the nodes being run is its own, after those that were
being run when it was invoked. And a flow that is opened in a run of one that no other opened is at
the depth of the number of flows around it and has as many callers, which is no more than the
options allow: a supervisor that lets these flows pass never interferes, also with runs that do not
end. -/
theorem bookkeeping_kept (host : Host σ) (s : Setting) :
    (∀ k q m r m', Engine.answer (exec host k) s host q m = some (r, m') →
      s.status m'.memory = { s.status m.memory with scopes := m'.memory.scopes.depth }) ∧
    (∀ k n define m x m₀, s.Starts host k n define m x m₀ → ∀ y m₁, s.Moment host x m₀ y m₁ →
      (s.status m₁.memory).running = (s.status m.memory).running ++ [n]) ∧
    (s.depth = 0 → s.callers = [] → ∀ test : Test,
      (∀ u k, s.Nests k u → u.depth = k → u.callers.length = k → k ≤ s.options.maxCallDepth →
        ∀ scopes, test u scopes = true) →
      ∀ alarm base n t, supervised test alarm base host n s t = levels base host n s t) := by
  refine ⟨fun k q m r m' h => ?_, fun k n define m x m₀ hstart y m₁ hmoment => ?_,
    fun hdepth hcallers test htest alarm base n t => ?_⟩
  · have hrunning : m'.memory.running = m.memory.running := running_answer host k s q m r m' h
    simp only [Setting.status, hrunning]
  · have hrunning := hmoment.running_eq.trans hstart.running_eq
    show m₁.memory.running.reverse = m.memory.running.reverse ++ [n]
    rw [hrunning, List.reverse_cons]
  · refine supervised_eq_levels hdepth (fun u k hu hk => ?_) alarm base host n .self
      (Nat.zero_le _) t
    exact htest u k hu (hu.depth_of_top hdepth) (hu.length_callers_of_top hcallers) hk

/-! ## A body that drives its flow -/

/-- A kind whose body asks for its own output, passes over the error that it gets, and fails. -/
def MethodDecl.daring : MethodDecl where
  name := "Daring"
  returns := some .int
  body := some fun c => .ask .graph fun g =>
    match g.output? c.node returnName with
    | none => .pure (.ok .empty)
    | some p => .ask (.read p) fun _ => .pure (.error (.action (.failed "no")))

/-- A node of this kind, and one of a kind with a node that fails in its inner graph. -/
def daringFlow : Setting :=
  .top ([.addNode (.action MethodDecl.daring.kind), .addNode (.action .half)].foldl Edit.perform
    (.empty 0 .standard)) .empty ⟨1, true⟩ .standard

/-- The first node is noted while its body runs, also when it has passed over the error, and no
longer when the invocation has failed; the second opens a flow at the depth allowed. -/
theorem bookkeeping_daringFlow :
    (∃ x m₀ y m₁, daringFlow.Starts nullHost 11 ⟨1⟩ "Daring" ⟨.start .empty, [], ()⟩ x m₀ ∧
      daringFlow.Moment nullHost x m₀ y m₁ ∧ y = .pure (.error (.action (.failed "no"))) ∧
      (daringFlow.status m₁.memory).running = [⟨1⟩]) ∧
    (∃ m', Engine.answer (exec nullHost 12) daringFlow nullHost (.invoke ⟨1⟩)
        ⟨.start .empty, [], ()⟩ =
          some (.ok (.error (.action ⟨1⟩ "Daring" (.failed "no"))), m') ∧
      (daringFlow.status m'.memory).running = []) ∧
    (supervised (fun u _ => decide (u.depth ≤ 1)) (fun _ _ => .fail (.cycle ⟨0⟩))
      (fun _ _ => .exhausted) nullHost 12 daringFlow (.invoke ⟨2⟩) ⟨.start .empty, [], ()⟩).map
        (·.1) = some (.error (.action ⟨3⟩ "Refuse" (.failed "no"))) := by
  obtain ⟨hanswer, hmoment, hnested⟩ := bookkeeping_kept nullHost daringFlow
  refine ⟨?_, ?_, ?_⟩
  · let m₀ : Machine Unit := ⟨⟨.base .empty, [⟨1⟩]⟩, [.nodeInvoked ⟨1⟩ "Daring"], ()⟩
    let failed : Program (Except BodyError Outcome) := .pure (.error (.action (.failed "no")))
    let reads (g : Graph Signature) : Program (Except BodyError Outcome) :=
      match g.output? ⟨1⟩ returnName with
      | none => .pure (.ok .empty)
      | some p => .ask (.read p) fun _ => failed
    have hstart : daringFlow.Starts nullHost 11 ⟨1⟩ "Daring" ⟨.start .empty, [], ()⟩
        (.ask .graph reads) m₀ := ⟨_, _, _, _, rfl, rfl, rfl, rfl, rfl, rfl⟩
    have hbegin : daringFlow.Moment nullHost (.ask .graph reads) m₀ (.ask .graph reads) m₀ := .start
    have hread : daringFlow.Moment nullHost (.ask .graph reads) m₀
        (.ask (.read ⟨0, 2⟩) fun _ => failed) m₀ :=
      hbegin.answered (q := .graph) (a := daringFlow.graph.map Definition.signature) 11 rfl
    have hend : daringFlow.Moment nullHost (.ask .graph reads) m₀ failed m₀ :=
      hread.answered (q := .read ⟨0, 2⟩) (a := .error (.cycle ⟨1⟩)) 11 rfl
    exact ⟨_, m₀, failed, m₀, hstart, hend, rfl, hmoment 11 ⟨1⟩ _ _ _ m₀ hstart failed m₀ hend⟩
  · have hrun : ((Engine.answer (exec nullHost 12) daringFlow nullHost (.invoke ⟨1⟩)
        ⟨.start .empty, [], ()⟩).map (·.1)) =
        some (.ok (.error (.action ⟨1⟩ "Daring" (.failed "no")))) := by
      rfl
    obtain ⟨⟨r, m'⟩, hrun, rfl⟩ := Option.map_eq_some_iff.1 hrun
    exact ⟨m', hrun, congrArg FlowStatus.running (hanswer 12 _ _ _ _ hrun)⟩
  · rw [hnested rfl rfl _ (fun u k _ hdepth _ hk _ => decide_eq_true (hdepth ▸ hk)),
      ← exec_eq_levels]
    decide +kernel

end EffectGraph
