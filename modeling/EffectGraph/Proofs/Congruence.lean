import EffectGraph.Proofs.Substitution

/-!
# What the interpreter is put together of

A relation between steps is a congruence (`Exec.Congruence`) if it holds of the steps that the
interpreter is put together of and is kept when they are put together. If two engines carry out
tasks alike up to a congruence, so do the engines that take their nested steps with them
(`Exec.Congruence.step`). A property of steps is a relation that does not mention the second step:
what is said of pairs here is how a property of single runs is carried through the interpreter, too.

What method bodies do and what flows over inner graphs do is left to hypotheses. In the second run
the options may be others, provided that they nest flows as deeply.

Two congruences are of general use. Steps are images of one another under a map of machines that
leaves the memory as it is (`Exec.Mirrors`, `Exec.Projection`), and a step comes to the same end as
another wherever that one ends (`Exec.Extends`). By the latter a larger allowance changes nothing
about a run that has ended (`exec_extends`).
-/

namespace EffectGraph

variable {σ τ α β : Type}

/-- Whether an error is one of a body, attributed to its node. -/
def FlowError.isAction : FlowError → Bool
  | action .. => true
  | _ => false

/-- Whether an entry of the log notes the failure of a body. -/
def Event.isFailure : Event → Bool
  | nodeFailed .. => true
  | _ => false

/-! ## Other options -/

/-- The same flow with other options. -/
def Setting.under (s : Setting) (o : Options) : Setting := { s with options := o }

section Under

variable (s : Setting) (o : Options)

@[simp] theorem Setting.under_graph : (s.under o).graph = s.graph := rfl

@[simp] theorem Setting.under_depth : (s.under o).depth = s.depth := rfl

@[simp] theorem Setting.under_options : (s.under o).options = o := rfl

@[simp] theorem Setting.under_child (inner : Graph Definition) (n : NodeId) :
    (s.under o).child inner n = (s.child inner n).under o := rfl

@[simp] theorem Engine.bindConsts_under (node : Node Definition) (inner : Graph Definition)
    (entry : NodeId) (ds : List PortDecl) (f : Frame) :
    Engine.bindConsts (s.under o) node inner entry ds f =
      Engine.bindConsts s node inner entry ds f := by
  induction ds generalizing f with
  | nil => rfl
  | cons d ds ih =>
    unfold Engine.bindConsts
    simp only [ih]
    rfl

end Under

/-! ## What bodies ask for -/

/-- Where a flow stands that has a given memory. -/
def Setting.status (s : Setting) (mem : Memory) : FlowStatus :=
  ⟨s.depth, s.callers, mem.running.reverse, mem.scopes.depth⟩

namespace Exec

def openScope : Exec σ Unit := modifyScopes (·.push)

/-- Closes the innermost scope and answers with its frame. -/
def closeScope : Exec σ (Option Frame) := do
  let closed ← inspect fun mem => mem.scopes.pop
  modifyScopes fun _ => closed.1
  return closed.2

def consult (host : Host σ) (v : Value) : Exec σ Value := fun m =>
  let (w, host) := host v m.host
  some (.ok w, { m with host := host })

/-- Takes a step with the invocation of a node logged and the node noted as running. -/
def entering (n : NodeId) (define : String) (x : Exec σ α) : Exec σ α := do
  emit (.nodeInvoked n define)
  running n x

theorem entering_eq (n : NodeId) (define : String) (x : Exec σ α) (m : Machine σ) :
    entering n define x m = (x (m.entering n define)).map fun r =>
      (r.1, ⟨⟨r.2.memory.scopes, r.2.memory.running.tail⟩, r.2.log, r.2.host⟩) :=
  running_eq

end Exec

/-! ## Relations that the interpreter respects -/

/-- A relation between steps that the interpreter respects as far as it does not run bodies. -/
structure Exec.Congruence (C : ∀ {α : Type}, Exec σ α → Exec τ α → Prop) : Prop where
  pure : ∀ {α : Type} (a : α), C (Pure.pure a) (Pure.pure a)
  fail : ∀ {α : Type} {e : FlowError}, e.isAction = false → C (α := α) (Exec.fail e) (Exec.fail e)
  bind : ∀ {α β : Type} {x : Exec σ α} {y : Exec τ α} {f : α → Exec σ β} {g : α → Exec τ β},
    C x y → (∀ a, C (f a) (g a)) → C (x >>= f) (y >>= g)
  inspect : ∀ {α : Type} (f : Memory → α), C (Exec.inspect f) (Exec.inspect f)
  memoize : ∀ p v, C (Exec.memoize p v) (Exec.memoize p v)
  emit : ∀ {e : Event}, e.isFailure = false → C (Exec.emit e) (Exec.emit e)
  running : ∀ {α : Type} (n : NodeId) {x : Exec σ α} {y : Exec τ α},
    C x y → C (Exec.running n x) (Exec.running n y)

namespace Exec.Congruence

variable {C : ∀ {α : Type}, Exec σ α → Exec τ α → Prop} (hC : Exec.Congruence C)

include hC

theorem ofGraph (r : Except GraphError α) : C (Exec.ofGraph r) (Exec.ofGraph r) := by
  cases r with
  | error e => exact hC.fail (e := .graph e) rfl
  | ok a => exact hC.pure a

/-- A question to the graph that it answers in one way. -/
theorem ofGraph_bind {r : Except GraphError α} {f : α → Exec σ β} {g : α → Exec τ β}
    (hfg : ∀ a, r = .ok a → C (f a) (g a)) : C (Exec.ofGraph r >>= f) (Exec.ofGraph r >>= g) := by
  cases r with
  | error e => exact hC.fail (e := .graph e) rfl
  | ok a => exact hfg a rfl

theorem entering (n : NodeId) (define : String) {x : Exec σ α} {y : Exec τ α} (h : C x y) :
    C (Exec.entering n define x) (Exec.entering n define y) :=
  hC.bind (hC.emit rfl) fun _ => hC.running n h

variable {engine : Engine σ} {engine' : Engine τ} {s : Setting} {o : Options}

/-! ## Outputs -/

theorem publish (n : NodeId) (name : String) (v : Value) :
    C (Engine.publish s n name v) (Engine.publish (s.under o) n name v) :=
  hC.bind (hC.ofGraph _) fun _ => hC.bind (hC.ofGraph _) fun _ => hC.memoize _ _

theorem publishAll (n : NodeId) (outs : List (String × Value)) :
    C (Engine.publishAll s n outs) (Engine.publishAll (s.under o) n outs) := by
  induction outs with
  | nil => exact hC.pure ()
  | cons e es ih => exact hC.bind (hC.publish n e.1 e.2) fun _ => ih

theorem populateEntry (ps : List Port) :
    C (Engine.populateEntry s ps) (Engine.populateEntry (s.under o) ps) := by
  induction ps with
  | nil => exact hC.pure ()
  | cons p ps ih =>
    refine hC.bind (hC.inspect _) fun found => ?_
    simp only
    split
    · exact hC.bind (hC.memoize _ _) fun _ => ih
    · exact ih

section Tasks

variable (he : ∀ t, C (engine s t) (engine' (s.under o) t))

include he

/-! ## Values -/

theorem read (p : PortId) : C (engine.read s p) (engine'.read (s.under o) p) := by
  refine hC.bind (hC.inspect _) fun found => ?_
  cases found with
  | some v => exact hC.pure v
  | none =>
    refine hC.bind (hC.ofGraph _) fun port => ?_
    simp only [Setting.under_graph]
    split
    · split
      · exact hC.bind (he _) fun _ => hC.pure _
      · exact hC.pure _
    · refine hC.bind (hC.inspect _) fun running => ?_
      split
      · exact hC.fail rfl
      · refine hC.bind (he _) fun _ => hC.bind (hC.inspect _) fun found => ?_
        cases found with
        | some v => exact hC.pure v
        | none => exact hC.bind (hC.emit rfl) fun _ => hC.fail rfl
    · exact hC.fail rfl

theorem readAll (ps : List PortId) : C (engine.readAll s ps) (engine'.readAll (s.under o) ps) := by
  induction ps with
  | nil => exact hC.pure _
  | cons p ps ih => exact hC.bind (he _) fun _ => hC.bind ih fun _ => hC.pure _

theorem argument (n : NodeId) (d : PortDecl) :
    C (engine.argument s n d) (engine'.argument (s.under o) n d) := by
  unfold Engine.argument
  split
  · exact hC.bind (hC.readAll he _) fun _ => hC.pure _
  · exact hC.bind (hC.ofGraph _) fun _ => he _

theorem bindParams (node : Node Definition) (ps : List MethodParam) (args : Table String Value) :
    C (engine.bindParams s node ps args) (engine'.bindParams (s.under o) node ps args) := by
  induction ps generalizing args with
  | nil => exact hC.pure _
  | cons p ps ih =>
    cases p with
    | input d => exact hC.bind (hC.argument he node.id d) fun _ => ih _
    | const d => exact ih _
    | out d => exact ih _
    | branch d => exact ih _
    | ambient name context => exact ih _

theorem bindInputs (n : NodeId) (inner : Graph Definition) (entry : NodeId) (ds : List PortDecl)
    (f : Frame) : C (engine.bindInputs s n inner entry ds f)
      (engine'.bindInputs (s.under o) n inner entry ds f) := by
  induction ds generalizing f with
  | nil => exact hC.pure _
  | cons d ds ih =>
    exact hC.bind (hC.argument he n d) fun _ => hC.bind (hC.ofGraph _) fun _ => ih _

/-! ## Control -/

theorem follow (p : PortId) : C (engine.follow s p) (engine'.follow (s.under o) p) := by
  refine hC.bind (hC.ofGraph _) fun port => hC.bind (he _) fun exit => ?_
  simp only [Setting.under_graph]
  split
  · exact he _
  · exact hC.pure ()

theorem run (p : PortId) : C (engine.run s p) (engine'.run (s.under o) p) := by
  refine hC.bind (hC.ofGraph _) fun port => ?_
  split
  · exact he _
  · exact hC.fail rfl

theorem runNode (n : NodeId) : C (engine.runNode s n) (engine'.runNode (s.under o) n) := by
  unfold Engine.runNode
  simp only [Setting.under_graph]
  split
  · exact hC.run he _
  · exact hC.fail rfl

/-! ## Bodies -/

variable {host : Host σ} {host' : Host τ}

/-- A body that is respected, and so is the way it is blamed. -/
theorem invokeMethod {node : Node Definition} {define : String} {b : Method}
    (hbody : ∀ args, C (engine.runProgram s host (b.body ⟨node.id, args, s.environment⟩))
      (engine'.runProgram (s.under o) host' (b.body ⟨node.id, args, s.environment⟩)))
    (hblame : ∀ e, C (α := Option PortId) (Engine.blame s node.id define e)
      (Engine.blame (s.under o) node.id define e)) :
    C (engine.invokeMethod s host node define b)
      (engine'.invokeMethod (s.under o) host' node define b) := by
  refine hC.bind (hC.bindParams he node b.params _) fun args => hC.bind (hbody args) fun r => ?_
  cases r with
  | error e => exact hblame e
  | ok outcome => exact hC.bind (hC.publishAll _ _) fun _ => hC.ofGraph _

end Tasks

/-! ## Generated kinds -/

section Child

variable {child : Setting}
  (hchild : ∀ memory t, C (Exec.within memory (engine child t))
    (Exec.within memory (engine' (child.under o) t)))

include hchild

theorem followEntry (entry : NodeId) (memory : Memory) : C (engine.followEntry child entry memory)
    (engine'.followEntry (child.under o) entry memory) := by
  unfold Engine.followEntry
  simp only [Setting.under_graph]
  split
  · exact hC.pure _
  · exact hC.bind (hchild _ _) fun _ => hC.pure _

theorem deliver (n result : NodeId) (ds : List PortDecl) (memory : Memory) :
    C (engine.deliver s child n result ds memory)
      (engine'.deliver (s.under o) (child.under o) n result ds memory) := by
  induction ds generalizing memory with
  | nil => exact hC.pure ()
  | cons d ds ih =>
    refine hC.bind (hC.ofGraph _) fun p => hC.bind (hchild _ _) fun r => ?_
    exact hC.bind (hC.publish n d.name _) fun _ => ih _

end Child

section Nodes

variable (he : ∀ t, C (engine s t) (engine' (s.under o) t))

include he

theorem invokeGenerated {node : Node Definition} {d : Definition} {inner : Graph Definition}
    (ho : o.maxCallDepth = s.options.maxCallDepth)
    (hchild : s.depth + 1 ≤ s.options.maxCallDepth → ∀ memory t,
      C (Exec.within memory (engine (s.child inner node.id) t))
        (Exec.within memory (engine' ((s.child inner node.id).under o) t))) :
    C (engine.invokeGenerated s node d inner)
      (engine'.invokeGenerated (s.under o) node d inner) := by
  unfold Engine.invokeGenerated
  simp only [Setting.under_depth, Setting.under_options, Setting.under_child,
    Engine.bindConsts_under, ho]
  split
  · exact hC.fail rfl
  next hfits =>
    split
    · exact hC.fail rfl
    · exact hC.fail rfl
    · have hchild := hchild (Nat.le_of_not_lt hfits)
      refine hC.bind (hC.bindInputs he node.id _ _ _ _) fun inputs => ?_
      refine hC.bind (hC.ofGraph _) fun frame => ?_
      refine hC.bind (hC.followEntry hchild _ _) fun memory => ?_
      exact hC.bind (hC.deliver hchild node.id _ _ _) fun _ => hC.pure _

/-! ## Nodes and tasks -/

variable {host : Host σ} {host' : Host τ}

/-- Nodes are run alike if those of methods and those of generated kinds are. -/
theorem invoke (ho : o.maxCallDepth = s.options.maxCallDepth)
    (hmethod : ∀ node, s.graph.node? node.id = some node → ∀ d, node.kind = .action d → ∀ b,
      d.behaviour = .method b →
        C (Exec.entering node.id d.name (engine.invokeMethod s host node d.name b))
          (Exec.entering node.id d.name (engine'.invokeMethod (s.under o) host' node d.name b)))
    (hchild : ∀ node ∈ s.graph.nodes, ∀ d, node.kind = .action d → ∀ inner,
      d.behaviour = .generated inner → s.depth + 1 ≤ s.options.maxCallDepth → ∀ memory t,
        C (Exec.within memory (engine (s.child inner node.id) t))
          (Exec.within memory (engine' ((s.child inner node.id).under o) t)))
    (n : NodeId) : C (engine.invoke s host n) (engine'.invoke (s.under o) host' n) := by
  refine hC.ofGraph_bind fun node hnode => ?_
  have hnode := Graph.getNode_eq_ok.1 hnode
  obtain ⟨hmem, rfl⟩ := Graph.node?_mem hnode
  cases hkind : node.kind with
  | entry => exact hC.entering _ _ (hC.bind (hC.populateEntry _) fun _ => hC.pure _)
  | result => exact hC.entering _ _ (hC.pure _)
  | action d =>
    simp only
    split
    next b hb => exact hmethod node hnode d hkind b hb
    next inner hinner =>
      exact hC.entering _ _ (hC.invokeGenerated he ho (hchild node hmem d hkind inner hinner))

/-- So are all tasks. -/
theorem step (ho : o.maxCallDepth = s.options.maxCallDepth)
    (hmethod : ∀ node, s.graph.node? node.id = some node → ∀ d, node.kind = .action d → ∀ b,
      d.behaviour = .method b →
        C (Exec.entering node.id d.name (engine.invokeMethod s host node d.name b))
          (Exec.entering node.id d.name (engine'.invokeMethod (s.under o) host' node d.name b)))
    (hchild : ∀ node ∈ s.graph.nodes, ∀ d, node.kind = .action d → ∀ inner,
      d.behaviour = .generated inner → s.depth + 1 ≤ s.options.maxCallDepth → ∀ memory t,
        C (Exec.within memory (engine (s.child inner node.id) t))
          (Exec.within memory (engine' ((s.child inner node.id).under o) t)))
    (t : Task) : C (engine.step host s t) (engine'.step host' (s.under o) t) := by
  cases t with
  | read p => exact hC.read he p
  | follow p => exact hC.follow he p
  | invoke n => exact hC.invoke he ho hmethod hchild n

end Nodes

/-! ## Bodies of every kind -/

variable {host : Host σ} {host' : Host τ}

/-- Requests are answered alike, those for scopes if scopes are opened and closed alike. -/
theorem answer (he : ∀ t, C (engine s t) (engine' (s.under o) t))
    (hattempt : ∀ {α : Type} {x : Exec σ α} {y : Exec τ α}, C x y → C (attempt x) (attempt y))
    (hconsult : ∀ v, C (consult host v) (consult host' v)) (q : Request)
    (hopen : q = .openScope → C openScope openScope)
    (hclose : q = .closeScope → C closeScope closeScope) :
    C (engine.answer s host q) (engine'.answer (s.under o) host' q) := by
  cases q with
  | read p => exact hattempt (he _)
  | run p => exact hattempt (hC.run he p)
  | runNode n => exact hattempt (hC.runNode he n)
  | invoke n => exact hattempt (he _)
  | write p v => exact hC.memoize p v
  | peek p => exact hC.inspect fun mem => mem.scopes.find? p
  | openScope => exact hopen rfl
  | closeScope => exact hclose rfl
  | status => exact hC.inspect s.status
  | graph => exact hC.pure _
  | log n message => exact hC.emit rfl
  | consult v => exact hconsult v

/-- Bodies are run alike if their requests are answered alike. -/
theorem runProgram
    (hanswer : ∀ q, C (engine.answer s host q) (engine'.answer (s.under o) host' q))
    (x : Program α) : C (engine.runProgram s host x) (engine'.runProgram (s.under o) host' x) := by
  induction x with
  | pure a => exact hC.pure a
  | ask q next ih => exact hC.bind (hanswer q) ih

end Exec.Congruence

namespace Exec

/-- A relation between steps that the interpreter respects whatever bodies it runs. -/
structure FullCongruence (host : Host σ) (host' : Host τ)
    (C : ∀ {α : Type}, Exec σ α → Exec τ α → Prop) : Prop extends Congruence C where
  exhausted : ∀ {α : Type}, C (α := α) Exec.exhausted Exec.exhausted
  attempt : ∀ {α : Type} {x : Exec σ α} {y : Exec τ α}, C x y → C (attempt x) (attempt y)
  within : ∀ {α : Type} (memory : Memory) {x : Exec σ α} {y : Exec τ α},
    C x y → C (within memory x) (within memory y)
  openScope : C openScope openScope
  closeScope : C closeScope closeScope
  consult : ∀ v, C (consult host v) (consult host' v)

namespace FullCongruence

variable {C : ∀ {α : Type}, Exec σ α → Exec τ α → Prop} {host : Host σ} {host' : Host τ}
  (hC : FullCongruence host host' C) {engine : Engine σ} {engine' : Engine τ} {s : Setting}
  {o p : Options}

include hC

theorem answer (he : ∀ t, C (engine s t) (engine' (s.under o) t)) (q : Request) :
    C (engine.answer s host q) (engine'.answer (s.under o) host' q) :=
  hC.toCongruence.answer he hC.attempt hC.consult q (fun _ => hC.openScope) fun _ => hC.closeScope

/-- Engines that carry out tasks alike in every flow run nodes alike. -/
theorem invoke (ho : p.maxCallDepth = o.maxCallDepth)
    (hblame : ∀ s : Setting, s.options = o → ∀ n define e,
      C (α := Option PortId) (Engine.blame s n define e) (Engine.blame (s.under p) n define e))
    (he : ∀ s : Setting, s.options = o → ∀ t, C (engine s t) (engine' (s.under p) t))
    (s : Setting) (hs : s.options = o) (n : NodeId) :
    C (engine.invoke s host n) (engine'.invoke (s.under p) host' n) := by
  refine hC.toCongruence.invoke (he s hs) (hs ▸ ho)
    (fun node _ d _ b _ => ?_) (fun node _ d _ inner _ _ memory t => ?_) n
  · exact hC.entering _ _ (hC.invokeMethod (he s hs)
      (fun args => hC.runProgram (hC.answer (he s hs)) _) (hblame s hs _ _))
  · exact hC.within memory (he (s.child inner node.id) hs t)

/-- They carry out all tasks alike one level up. -/
theorem succ (ho : p.maxCallDepth = o.maxCallDepth)
    (hblame : ∀ s : Setting, s.options = o → ∀ n define e,
      C (α := Option PortId) (Engine.blame s n define e) (Engine.blame (s.under p) n define e))
    (he : ∀ s : Setting, s.options = o → ∀ t, C (engine s t) (engine' (s.under p) t))
    (s : Setting) (hs : s.options = o) (t : Task) :
    C (engine.step host s t) (engine'.step host' (s.under p) t) := by
  cases t with
  | read q => exact hC.read (he s hs) q
  | follow q => exact hC.follow (he s hs) q
  | invoke n => exact hC.invoke ho hblame he s hs n

/-- Every task is carried out alike, at every level and in every flow. -/
theorem tasks (ho : p.maxCallDepth = o.maxCallDepth)
    (hblame : ∀ s : Setting, s.options = o → ∀ n define e,
      C (α := Option PortId) (Engine.blame s n define e) (Engine.blame (s.under p) n define e))
    (k : Nat) (s : Setting) (hs : s.options = o) (t : Task) :
    C (exec host k s t) (exec host' k (s.under p) t) := by
  induction k generalizing s t with
  | zero => exact hC.exhausted
  | succ k ih => exact hC.succ ho hblame ih s hs t

end FullCongruence

/-! ## Images of machines -/

/-- A step that does in the image of a machine what another does in the machine itself. -/
def Mirrors (φ : Machine σ → Machine τ) (x : Exec σ α) (y : Exec τ α) : Prop :=
  ∀ m, y (φ m) = (x m).map fun r => (r.1, φ r.2)

/-- A map of machines that keeps memories, and entries of the log that note no failure. -/
structure Projection (φ : Machine σ → Machine τ) : Prop where
  memory : ∀ m, (φ m).memory = m.memory
  withMemory : ∀ m memory, φ { m with memory := memory } = { φ m with memory := memory }
  withEvent : ∀ m {e}, e.isFailure = false →
    φ { m with log := e :: m.log } = { φ m with log := e :: (φ m).log }

namespace Mirrors

variable {φ : Machine σ → Machine τ} {x : Exec σ α} {y : Exec τ α} {f : α → Exec σ β}
  {g : α → Exec τ β}

theorem bind (hx : Mirrors φ x y) (hf : ∀ a, Mirrors φ (f a) (g a)) :
    Mirrors φ (x >>= f) (y >>= g) := by
  intro m
  show Exec.bind y g (φ m) = (Exec.bind x f m).map _
  unfold Exec.bind
  rw [hx m]
  cases x m with
  | none => rfl
  | some r =>
    obtain ⟨r, m'⟩ := r
    cases r with
    | error e => rfl
    | ok a => exact hf a m'

theorem attempt (h : Mirrors φ x y) : Mirrors φ (Exec.attempt x) (Exec.attempt y) := by
  intro m
  unfold Exec.attempt
  rw [h m]
  cases x m <;> rfl

variable (hφ : Projection φ)

include hφ

theorem inspect (k : Memory → α) : Mirrors φ (Exec.inspect k) (Exec.inspect k) := by
  intro m
  simp only [Exec.inspect, hφ.memory, Option.map_some]

theorem modifyScopes (k : Scopes → Scopes) :
    Mirrors φ (Exec.modifyScopes k) (Exec.modifyScopes k) := by
  intro m
  have hout := hφ.withMemory m ⟨k m.memory.scopes, m.memory.running⟩
  simp only [Exec.modifyScopes, Exec.modifyMemory, hφ.memory, Option.map_some, hout]

theorem running (n : NodeId) (h : Mirrors φ x y) :
    Mirrors φ (Exec.running n x) (Exec.running n y) := by
  intro m
  have hin := h { m with memory := ⟨m.memory.scopes, n :: m.memory.running⟩ }
  rw [hφ.withMemory] at hin
  rw [running_eq, running_eq, hφ.memory, hin, Option.map_map, Option.map_map]
  refine congrArg (Option.map · _) (funext fun r => ?_)
  simp only [Function.comp_apply, hφ.memory]
  rw [← hφ.withMemory]

theorem within (memory : Memory) (h : Mirrors φ x y) :
    Mirrors φ (Exec.within memory x) (Exec.within memory y) := by
  intro m
  have hin := h { m with memory := memory }
  rw [hφ.withMemory] at hin
  unfold Exec.within
  rw [hin, hφ.memory]
  cases x { m with memory := memory } with
  | none => rfl
  | some r =>
    obtain ⟨r, m'⟩ := r
    have hout : φ { m' with memory := m.memory } = { φ m' with memory := m.memory } :=
      hφ.withMemory m' m.memory
    cases r <;> simp only [Option.map_some, hφ.memory, hout]

end Mirrors

namespace Projection

variable {φ : Machine σ → Machine τ} (hφ : Projection φ)

include hφ

/-- To do the same in the image is a relation that the interpreter respects. -/
theorem congruence : Congruence fun x y => Mirrors φ x y where
  pure _ _ := rfl
  fail _ _ := rfl
  bind := Mirrors.bind
  inspect := Mirrors.inspect hφ
  memoize p v := Mirrors.modifyScopes hφ (·.set p v)
  emit he m := congrArg (fun m => some (_, m)) (hφ.withEvent m he).symm
  running n _ _ := Mirrors.running hφ n

theorem fullCongruence {host : Host σ} {host' : Host τ}
    (hconsult : ∀ v, Mirrors φ (consult host v) (consult host' v)) :
    FullCongruence host host' fun x y => Mirrors φ x y where
  toCongruence := hφ.congruence
  exhausted _ := rfl
  attempt := Mirrors.attempt
  within memory _ _ := Mirrors.within hφ memory
  openScope := Mirrors.modifyScopes hφ (·.push)
  closeScope := Mirrors.bind (Mirrors.inspect hφ _) fun _ =>
    Mirrors.bind (Mirrors.modifyScopes hφ _) fun _ _ => rfl
  consult := hconsult

end Projection

/-! ## More allowance -/

/-- Where the one step comes to an end so does the other, in the same way. -/
def Extends (x y : Exec σ α) : Prop := ∀ m r, x m = some r → y m = some r

theorem Extends.bind {x y : Exec σ α} {f g : α → Exec σ β} (hx : Extends x y)
    (hf : ∀ a, Extends (f a) (g a)) : Extends (x >>= f) (y >>= g) := by
  intro m r h
  change Exec.bind x f m = _ at h
  show Exec.bind y g m = _
  unfold Exec.bind at h ⊢
  cases hrun : x m with
  | none => simp [hrun] at h
  | some r₁ =>
    obtain ⟨r₁, m₁⟩ := r₁
    rw [hx m _ hrun]
    rw [hrun] at h
    cases r₁ with
    | error e => exact h
    | ok a => exact hf a m₁ r h

theorem Extends.attempt {x y : Exec σ α} (h : Extends x y) :
    Extends (Exec.attempt x) (Exec.attempt y) := by
  intro m r hx
  unfold Exec.attempt at hx ⊢
  cases hrun : x m with
  | none => simp [hrun] at hx
  | some r₁ => rwa [h m _ hrun, ← hrun]

theorem Extends.within {x y : Exec σ α} (h : Extends x y) (memory : Memory) :
    Extends (Exec.within memory x) (Exec.within memory y) := by
  intro m r hx
  unfold Exec.within at hx ⊢
  cases hrun : x { m with memory := memory } with
  | none => simp [hrun] at hx
  | some r₁ => rwa [h _ _ hrun, ← hrun]

theorem fullCongruence_extends (host : Host σ) :
    FullCongruence host host fun x y : Exec σ _ => Extends x y where
  pure _ _ _ := id
  fail _ _ _ := id
  bind := Extends.bind
  inspect _ _ _ := id
  memoize _ _ _ _ := id
  emit _ _ _ := id
  running n x y h := by
    intro m r hx
    rw [running_eq] at hx ⊢
    obtain ⟨r₁, hrun, rfl⟩ := Option.map_eq_some_iff.1 hx
    rw [h _ _ hrun, Option.map_some]
  exhausted m r h := nomatch h
  attempt := Extends.attempt
  within memory _ _ h := h.within memory
  openScope _ _ := id
  closeScope _ _ := id
  consult _ _ _ := id

end Exec

/-- A task that comes to an end does so in the same way with a greater allowance. -/
theorem exec_extends {j k : Nat} (h : j ≤ k) (host : Host σ) (s : Setting) (t : Task) :
    Exec.Extends (exec host j s t) (exec host k s t) := by
  induction j generalizing k s t with
  | zero => exact fun m r hx => nomatch hx
  | succ j ih =>
    obtain ⟨k, rfl⟩ : ∃ i, k = i + 1 := ⟨k - 1, by omega⟩
    have hC := Exec.fullCongruence_extends host
    exact hC.succ (o := s.options) (p := s.options) rfl (fun u hu _ _ _ => hu ▸ fun _ _ => id)
      (fun u hu t => hu ▸ ih (Nat.le_of_succ_le_succ h) u t) s rfl t

end EffectGraph
