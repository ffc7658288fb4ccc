import EffectGraph.Proofs.Reachable
import EffectGraph.Proofs.Sound

/-!
# Runs under a discipline

A discipline (`Discipline`) is a property of ports with values that the memory of a flow keeps: what
is found in memory has it, it passes along connections, and the values of unconnected inputs and of
Entry have it. The steps of the interpreter uphold every discipline, up to what the bodies of nodes
publish. The nested steps are carried out by an engine that is taken to uphold it as well.
-/

namespace EffectGraph

open EffectGraph.Graph

/-- What a task is to result in: a read in a value with a property. -/
def Task.Meets (P : PortId → Value → Prop) : (t : Task) → t.Result → Prop
  | .read p, v => P p v
  | .invoke _, _ => True
  | .follow _, _ => True

/-- The id of an output of some node. -/
def Graph.IsOutput (g : Graph Definition) (p : PortId) : Prop :=
  ∃ node ∈ g.nodes, ∃ q ∈ node.outputs, p = g.portId q.index

/-- A property of values at ports that the memory of a flow keeps. -/
structure Discipline (s : Setting) (I : Scopes → Prop) (P : PortId → Value → Prop) : Prop where
  found : ∀ {scopes p v}, I scopes → scopes.find? p = some v → P p v
  /-- The interpreter memoizes values for outputs only. -/
  kept : ∀ {scopes p v}, I scopes → P p v → s.graph.IsOutput p → I (scopes.set p v)
  pulled : ∀ {p port q v}, s.graph.port? p = some port → port.role = .valueInput →
    s.graph.valueSource? p = some q → P q v → P p (s.coerce port v)
  unconnected : ∀ {p port}, s.graph.port? p = some port → port.role = .valueInput →
    s.graph.valueSource? p = none → P p (s.coerce port (s.unconnected port))
  /-- An output of Entry that has no value yet takes the default of its type. -/
  entry : ∀ {scopes node q}, I scopes → node ∈ s.graph.nodes → node.kind = .entry →
    q ∈ node.outputs → q.decl.isControl = false →
    scopes.find? (s.graph.portId q.index) = none → P (s.graph.portId q.index) q.decl.type.default

variable {σ : Type} {s : Setting} {I : Scopes → Prop} {P : PortId → Value → Prop}

/-- A value that a declared input of a node may have when the values of ports have a property. -/
def Setting.Argument (s : Setting) (P : PortId → Value → Prop) (n : NodeId) (d : PortDecl)
    (v : Value) : Prop :=
  if d.isVariadic then ∃ vs, v = .array vs ∧ List.Forall₂ P (s.graph.variadicSlots n d.name) vs
  else ∃ p, s.graph.input? n d.name none = some p ∧ P p v

/-- Arguments that the parameters of a method may have, added to others. -/
def Setting.Arguments (s : Setting) (P : PortId → Value → Prop) (node : Node Definition) :
    List MethodParam → Table String Value → Table String Value → Prop
  | [], args, out => out = args
  | .input d :: ps, args, out =>
    ∃ v, s.Argument P node.id d v ∧ s.Arguments P node ps (args.insert d.name v) out
  | .const d :: ps, args, out => s.Arguments P node ps
      (args.insert d.name ((Engine.constant node d.name).convert s.hook d.type)) out
  | .ambient name context :: ps, args, out =>
    s.Arguments P node ps (args.insert name (s.environment.resolve context)) out
  | .out _ :: ps, args, out => s.Arguments P node ps args out
  | .branch _ :: ps, args, out => s.Arguments P node ps args out

/-- The ports whose values make up the argument for a declared input of a node. -/
def Graph.Draws (g : Graph Definition) (n : NodeId) (d : PortDecl) (p : PortId) : Prop :=
  if d.isVariadic then p ∈ g.variadicSlots n d.name else g.input? n d.name none = some p

theorem Graph.isOutput_of_output? {g : Graph Definition} {n : NodeId} {name : String} {p : PortId}
    (h : g.output? n name = some p) : g.IsOutput p := by
  obtain ⟨node, hnode, h⟩ := Option.bind_eq_some_iff.1 h
  obtain ⟨q, hq, rfl⟩ := Option.map_eq_some_iff.1 h
  exact ⟨node, (node?_mem hnode).1, q, List.mem_of_find?_eq_some hq, rfl⟩

/-- A property of steps that steps have which are put together of steps that have it. -/
structure Exec.Closed (C : ∀ {α : Type}, Exec σ α → Prop) : Prop where
  pure : ∀ {α : Type} (a : α), C (Pure.pure a : Exec σ α)
  ofGraph : ∀ {α : Type} (e : Except GraphError α), C (Exec.ofGraph e)
  bind : ∀ {α β : Type} {x : Exec σ α} {f : α → Exec σ β}, C x → (∀ a, C (f a)) → C (x >>= f)

/-- A question to the graph that it answers in one way. -/
theorem Exec.Closed.ofGraph_bind {C : ∀ {α : Type}, Exec σ α → Prop} (hC : Exec.Closed C)
    {α β : Type} {r : Except GraphError α} {f : α → Exec σ β} (hf : ∀ a, r = .ok a → C (f a)) :
    C (Exec.ofGraph r >>= f) := by
  cases r with
  | error e => exact hC.ofGraph (.error e : Except GraphError β)
  | ok a => exact hf a rfl

namespace Engine

variable {engine : Engine σ}

/-! ## Arguments -/

section Closed

variable {C : ∀ {α : Type}, Exec σ α → Prop} (hC : Exec.Closed C)

include hC

theorem closed_readAll (ps : List PortId) (hread : ∀ p ∈ ps, C (engine s (.read p))) :
    C (engine.readAll s ps) := by
  induction ps with
  | nil => exact hC.pure _
  | cons p ps ih =>
    exact hC.bind (hread p (.head _)) fun _ =>
      hC.bind (ih fun q hq => hread q (.tail _ hq)) fun _ => hC.pure _

theorem closed_argument (n : NodeId) (d : PortDecl)
    (hread : ∀ p, s.graph.Draws n d p → C (engine s (.read p))) :
    C (engine.argument s n d) := by
  unfold argument
  split
  next hd =>
    refine hC.bind (closed_readAll hC _ fun p hp => hread p ?_) fun _ => hC.pure _
    rwa [Graph.Draws, if_pos hd]
  next hd =>
    refine hC.ofGraph_bind fun p hp => hread p ?_
    rw [Graph.Draws, if_neg hd]
    exact getInput_eq_ok.1 hp

/-- To resolve the parameters of a method takes no more than to read the ports drawn for them. -/
theorem closed_bindParams_of_draws (node : Node Definition) (ps : List MethodParam)
    (args : Table String Value)
    (hread : ∀ d, .input d ∈ ps → ∀ p, s.graph.Draws node.id d p → C (engine s (.read p))) :
    C (engine.bindParams s node ps args) := by
  induction ps generalizing args with
  | nil => exact hC.pure _
  | cons p ps ih =>
    have hrest := fun args => ih args fun d hd => hread d (.tail _ hd)
    cases p with
    | input d =>
      exact hC.bind (closed_argument hC node.id d (hread d (.head _))) fun _ => hrest _
    | const d => exact hrest _
    | out d => exact hrest _
    | branch d => exact hrest _
    | ambient name context => exact hrest _

/-- So does it to pull the inputs of a generated node. -/
theorem closed_bindInputs_of_draws (n : NodeId) (inner : Graph Definition) (entry : NodeId)
    (ds : List PortDecl) (f : Frame)
    (hread : ∀ d ∈ ds, ∀ p, s.graph.Draws n d p → C (engine s (.read p))) :
    C (engine.bindInputs s n inner entry ds f) := by
  induction ds generalizing f with
  | nil => exact hC.pure _
  | cons d ds ih =>
    have hrest := fun f => ih f fun d hd => hread d (.tail _ hd)
    exact hC.bind (closed_argument hC n d (hread d (.head _))) fun _ =>
      hC.bind (hC.ofGraph _) fun _ => hrest _

theorem closed_publish (hmemoize : ∀ p v, C (Exec.memoize p v)) (n : NodeId) (name : String)
    (v : Value) : C (publish s n name v) :=
  hC.bind (hC.ofGraph _) fun _ => hC.bind (hC.ofGraph _) fun _ => hmemoize _ _

theorem closed_publishAll (hmemoize : ∀ p v, C (Exec.memoize p v)) (n : NodeId)
    (outs : List (String × Value)) : C (publishAll s n outs) := by
  induction outs with
  | nil => exact hC.pure ()
  | cons e es ih => exact hC.bind (closed_publish hC hmemoize n e.1 e.2) fun _ => ih

variable (hread : ∀ p, C (engine s (.read p)))

include hread

theorem closed_bindParams (node : Node Definition) (ps : List MethodParam)
    (args : Table String Value) : C (engine.bindParams s node ps args) :=
  closed_bindParams_of_draws hC node ps args fun _ _ p _ => hread p

theorem closed_bindInputs (n : NodeId) (inner : Graph Definition) (entry : NodeId)
    (ds : List PortDecl) (f : Frame) : C (engine.bindInputs s n inner entry ds f) :=
  closed_bindInputs_of_draws hC n inner entry ds f fun _ _ p _ => hread p

end Closed

/-! ## Reading values -/

section Pull

variable (hD : Discipline s I P) (he : ∀ t, Upholds I (engine s t) (t.Meets P))

include hD he

theorem upholds_read (p : PortId) : Upholds I (engine.read s p) (P p) := by
  unfold read
  refine (Upholds.peek p).bind fun o ho => ?_
  obtain ⟨scopes, hI, ho⟩ := ho
  cases o with
  | some v => exact .pure (hD.found hI ho)
  | none =>
    refine Upholds.bind (.ofGraph (Q := fun q => s.graph.port? p = some q) fun q hq =>
      getPort_eq_ok.1 hq) fun port hport => ?_
    split
    next hrole =>
      split
      next source hsource =>
        refine Upholds.bind (he (.read source)) fun v hv => .pure ?_
        exact hD.pulled hport hrole hsource hv
      next hsource => exact .pure (hD.unconnected hport hrole hsource)
    next hrole =>
      refine Upholds.bind (.inspect (Q := fun _ => True) fun _ _ => trivial) fun running _ => ?_
      split
      · exact .fail
      · refine Upholds.bind (he (.invoke port.node)) fun _ _ => ?_
        refine (Upholds.peek p).bind fun o ho => ?_
        obtain ⟨scopes, hI, ho⟩ := ho
        cases o with
        | some v => exact .pure (hD.found hI ho)
        | none => exact Upholds.emit.bind fun _ _ => .fail
    next => exact .fail

omit hD in
theorem upholds_readAll (ps : List PortId) :
    Upholds I (engine.readAll s ps) (List.Forall₂ P ps) := by
  induction ps with
  | nil => exact .pure .nil
  | cons p ps ih =>
    refine Upholds.bind (he (.read p)) fun v hv => ?_
    exact Upholds.bind ih fun vs hvs => .pure (.cons hv hvs)

omit hD in
theorem upholds_argument (n : NodeId) (d : PortDecl) :
    Upholds I (engine.argument s n d) (s.Argument P n d) := by
  unfold argument Setting.Argument
  split
  · exact Upholds.bind (upholds_readAll he _) fun vs hvs => .pure ⟨vs, rfl, hvs⟩
  · refine Upholds.bind (.ofGraph (Q := fun p => s.graph.input? n d.name none = some p)
      fun p hp => getInput_eq_ok.1 hp) fun p hp => ?_
    exact (he (.read p)).mono fun v hv => ⟨p, hp, hv⟩

omit hD in
theorem upholds_bindParams (node : Node Definition) (ps : List MethodParam)
    (args : Table String Value) :
    Upholds I (engine.bindParams s node ps args) (s.Arguments P node ps args) := by
  induction ps generalizing args with
  | nil => exact .pure rfl
  | cons p ps ih =>
    cases p with
    | input d =>
      refine Upholds.bind (upholds_argument he node.id d) fun v hv => (ih _).mono fun out hout => ?_
      exact ⟨v, hv, hout⟩
    | const d => exact ih _
    | out d => exact ih _
    | branch d => exact ih _
    | ambient name context => exact ih _

omit hD in
theorem upholds_follow (p : PortId) : Upholds I (engine.follow s p) fun _ => True := by
  refine Upholds.bind (.ofGraph (Q := fun _ => True) fun _ _ => trivial) fun port _ => ?_
  refine Upholds.bind (he (.invoke port.node)) fun exit _ => ?_
  split
  next next _ => exact he (.follow next)
  next => exact .pure trivial

omit hD in
theorem upholds_run (p : PortId) : Upholds I (engine.run s p) fun _ => True := by
  refine Upholds.bind (.ofGraph (Q := fun _ => True) fun _ _ => trivial) fun port _ => ?_
  split
  · exact he (.follow p)
  · exact .fail

omit hD in
theorem upholds_runNode (n : NodeId) : Upholds I (engine.runNode s n) fun _ => True := by
  unfold runNode
  split
  · exact upholds_run he _
  · exact .fail

end Pull

/-- Control is followed from Entry in the memory of the inner flow, which upholds its own
discipline. -/
theorem upholds_followEntry {J : Scopes → Prop} {u : Setting}
    (he : ∀ t, Upholds I (engine u t) (t.Meets P)) (entry : NodeId) {memory : Memory}
    (hmemory : I memory.scopes) :
    Upholds J (engine.followEntry u entry memory) fun memory => I memory.scopes := by
  unfold followEntry
  split
  · exact .pure hmemory
  next start _ => exact Upholds.bind (.within hmemory (he (.follow start))) fun r hr => .pure hr.2

/-! ## Outputs -/

section Push

variable (hD : Discipline s I P)

include hD

/-- A value may be published at an output if it has the property there once converted. -/
theorem upholds_publish {n : NodeId} {name : String} {v : Value}
    (h : ∀ p port, s.graph.output? n name = some p → s.graph.port? p = some port →
      P p (s.coerce port v)) :
    Upholds (σ := σ) I (publish s n name v) fun _ => True := by
  refine Upholds.bind (.ofGraph (Q := fun p => s.graph.output? n name = some p) fun p hp =>
    getOutput_eq_ok.1 hp) fun p hp => ?_
  refine Upholds.bind (.ofGraph (Q := fun q => s.graph.port? p = some q) fun q hq =>
    getPort_eq_ok.1 hq) fun port hport => ?_
  exact .modifyScopes fun _ hI => hD.kept hI (h p port hp hport) (isOutput_of_output? hp)

theorem upholds_publishAll {n : NodeId} {outs : List (String × Value)}
    (h : ∀ e ∈ outs, ∀ p port, s.graph.output? n e.1 = some p → s.graph.port? p = some port →
      P p (s.coerce port e.2)) :
    Upholds (σ := σ) I (publishAll s n outs) fun _ => True := by
  induction outs with
  | nil => exact .pure trivial
  | cons e es ih =>
    refine Upholds.bind (upholds_publish hD (h e (.head _))) fun _ _ => ?_
    exact ih fun x hx => h x (.tail _ hx)

theorem upholds_populateEntry {node : Node Definition} (hnode : node ∈ s.graph.nodes)
    (hkind : node.kind = .entry) {qs : List Port} (hqs : ∀ q ∈ qs, q ∈ node.outputs) :
    Upholds (σ := σ) I (populateEntry s qs) fun _ => True := by
  induction qs with
  | nil => exact .pure trivial
  | cons q qs ih =>
    have hrest := ih fun x hx => hqs x (.tail _ hx)
    refine (Upholds.peek _).bind fun o ho => ?_
    obtain ⟨scopes, hI, ho⟩ := ho
    simp only
    split
    next h =>
      obtain rfl := Option.isNone_iff_eq_none.1 h.1
      have hdefault := hD.entry hI hnode hkind (hqs q (.head _)) h.2 ho
      have houtput : s.graph.IsOutput (s.graph.portId q.index) :=
        ⟨node, hnode, q, hqs q (.head _), rfl⟩
      exact Upholds.bind (.modifyScopes fun _ hI => hD.kept hI hdefault houtput) fun _ _ => hrest
    next => exact hrest

end Push

theorem upholds_blame {α : Type} {Q : α → Prop} {n : NodeId} {define : String} {e : BodyError} :
    Upholds (σ := σ) I (blame s n define e) Q := by
  cases e with
  | flow e => exact .fail
  | action e =>
    simp only [blame]
    split
    · exact Upholds.emit.bind fun _ _ => .fail
    · exact .fail

/-! ## Running nodes -/

section Running

variable (hD : Discipline s I P) (he : ∀ t, Upholds I (engine s t) (t.Meets P)) {host : Host σ}

include hD he

/-- A method node upholds the discipline if what its body leaves has the property once converted. -/
theorem upholds_invokeMethod {node : Node Definition} {define : String} {m : Method}
    (hbody : ∀ args, s.Arguments P node m.params .empty args →
      Upholds I (engine.runProgram s host (m.body ⟨node.id, args, s.environment⟩)) fun r =>
        ∀ o, r = .ok o → ∀ e ∈ outputsOf m o, ∀ p port, s.graph.output? node.id e.1 = some p →
          s.graph.port? p = some port → P p (s.coerce port e.2)) :
    Upholds I (engine.invokeMethod s host node define m) fun _ => True := by
  refine Upholds.bind (upholds_bindParams he node m.params .empty) fun args hargs => ?_
  refine Upholds.bind (hbody args hargs) fun r hr => ?_
  cases r with
  | error e => exact upholds_blame
  | ok o =>
    refine Upholds.bind (upholds_publishAll hD (hr o rfl)) fun _ _ => ?_
    exact .ofGraph fun _ _ => trivial

omit he in
/-- A node is run with the discipline upheld if actions are. -/
theorem upholds_invoke (n : NodeId)
    (haction : ∀ node d, s.graph.node? n = some node → node.kind = .action d →
      Upholds I (match d.behaviour with
        | .method m => engine.invokeMethod s host node d.name m
        | .generated inner => engine.invokeGenerated s node d inner) fun _ => True) :
    Upholds I (engine.invoke s host n) fun _ => True := by
  refine Upholds.bind (.ofGraph (Q := fun m => s.graph.node? n = some m) fun m hm =>
    getNode_eq_ok.1 hm) fun node hnode => ?_
  refine Upholds.emit.bind fun _ _ => .running ?_
  split
  next hkind =>
    refine Upholds.bind (upholds_populateEntry hD (node?_mem hnode).1 hkind fun _ hq => hq)
      fun _ _ => ?_
    exact .pure trivial
  next => exact .pure trivial
  next d hkind => exact haction node d hnode hkind

end Running

/-! ## Requests -/

/-- Every request but that to memoize a value is answered with the discipline upheld, provided that
it survives the opening and the closing of scopes. -/
theorem upholds_answer (he : ∀ t, Upholds I (engine s t) (t.Meets P))
    (hpush : ∀ scopes, I scopes → I scopes.push) (hpop : ∀ scopes, I scopes → I scopes.pop.1)
    (host : Host σ) {q : Request} (hq : ∀ p v, q ≠ .write p v) :
    Upholds I (engine.answer s host q) fun _ => True := by
  cases q with
  | read p => exact (he (.read p)).attempt.mono fun _ _ => trivial
  | write p v => exact absurd rfl (hq p v)
  | peek p => exact (Upholds.peek p).mono fun _ _ => trivial
  | run p => exact (upholds_run he p).attempt.mono fun _ _ => trivial
  | runNode n => exact (upholds_runNode he n).attempt.mono fun _ _ => trivial
  | invoke n => exact (he (.invoke n)).attempt.mono fun _ _ => trivial
  | openScope => exact .modifyScopes hpush
  | closeScope =>
    refine Upholds.bind (.inspect (Q := fun closed => I closed.1) fun _ hI => hpop _ hI)
      fun closed hclosed => ?_
    exact Upholds.bind (.modifyScopes fun _ _ => hclosed) fun _ _ => .pure trivial
  | status | graph | log | consult =>
    refine .of_memory_eq fun m r m' hx => ?_
    obtain ⟨rfl, rfl⟩ := Prod.mk.inj (Option.some.inj hx)
    exact ⟨rfl, fun _ _ => trivial⟩

end Engine

end EffectGraph
