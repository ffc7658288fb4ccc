import EffectGraph.Proofs.Ensuring
import EffectGraph.Proofs.Filling

/-!
# A node is pulled at most once

A flow that nobody drives from inside, and in which no scope is opened or closed, forgets no
memoized value. An invocation that completes leaves a value for every output of its node
(`Graph.Filled`), if the outputs of its kind have different names, and a node whose outputs are
memoized is not pulled. A node that is being run is not pulled either; the read fails instead. So a
node is pulled at most once until something fails (`pulled_at_most_once`), and this holds of every
flow that is opened for a generated node as well.
-/

namespace EffectGraph

open EffectGraph.Graph

variable {σ α : Type}

/-! ## How a flow stands -/

/-- What the notes on a flow tell of its memory, while some nodes are being run and some pulls are
noted that are still to be carried out. -/
structure Standing (g : Graph Definition) (running pending : List NodeId) (memory : Memory)
    (notes : List Note) : Prop where
  runs : memory.running = running
  /-- A node of which an invocation has completed is filled. -/
  filled : ∀ n, .done n ∈ notes → g.Filled n memory.scopes
  /-- A pull has completed or is being carried out. -/
  pulled : ∀ n, .begun .pull n ∈ notes → .done n ∈ notes ∨ n ∈ running ∨ n ∈ pending

namespace Standing

variable {g : Graph Definition} {running pending : List NodeId} {memory : Memory}
  {notes : List Note} {n : NodeId}

theorem start (f : Frame) : Standing g [] [] (.start f) [] :=
  ⟨rfl, fun n h => by simp at h, fun n h => by simp at h⟩

theorem set (h : Standing g running pending memory notes) (p : PortId) (v : Value) :
    Standing g running pending { memory with scopes := memory.scopes.set p v } notes :=
  ⟨h.runs, fun n hn => (h.filled n hn).set p v, h.pulled⟩

/-- The invocation of a node begins. -/
theorem begin (h : Standing g running [] memory notes) (cause : Cause) (n : NodeId) :
    Standing g running [n] memory (.begun cause n :: notes) := by
  refine ⟨h.runs, fun k hk => h.filled k (by simpa using hk), fun k hk => ?_⟩
  rcases List.mem_cons.1 hk with hk | hk
  · exact .inr (.inr (by simp_all))
  · rcases h.pulled k hk with hdone | hrunning | hpending
    · exact .inl (.tail _ hdone)
    · exact .inr (.inl hrunning)
    · simp at hpending

/-- The node is noted as being run. -/
theorem enter (h : Standing g running [n] memory notes) :
    Standing g (n :: running) [] { memory with running := n :: memory.running } notes := by
  refine ⟨by rw [h.runs], h.filled, fun k hk => ?_⟩
  rcases h.pulled k hk with hdone | hrunning | hpending
  · exact .inl hdone
  · exact .inr (.inl (.tail _ hrunning))
  · exact .inr (.inl (by simp_all))

/-- The node is no longer noted as being run. -/
theorem leave (h : Standing g (n :: running) [] memory notes) :
    Standing g running [n] { memory with running := memory.running.tail } notes := by
  refine ⟨by rw [h.runs]; rfl, h.filled, fun k hk => ?_⟩
  rcases h.pulled k hk with hdone | hrunning | hpending
  · exact .inl hdone
  · rcases List.mem_cons.1 hrunning with rfl | hrunning
    · exact .inr (.inr (.head _))
    · exact .inr (.inl hrunning)
  · simp at hpending

/-- The invocation of a node has completed. -/
theorem finish (h : Standing g running [n] memory notes) (hn : g.Filled n memory.scopes) :
    Standing g running [] memory (.done n :: notes) := by
  refine ⟨h.runs, fun k hk => ?_, fun k hk => ?_⟩
  · rcases List.mem_cons.1 hk with hk | hk
    · obtain rfl := Note.done.inj hk
      exact hn
    · exact h.filled k hk
  · rcases h.pulled k (by simpa using hk) with hdone | hrunning | hpending
    · exact .inl (.tail _ hdone)
    · exact .inr (.inl hrunning)
    · obtain rfl := List.mem_singleton.1 hpending
      exact .inl (.head _)

/-- Nothing speaks against the pull of a node that is neither filled nor being run. -/
theorem pullable (h : Standing g running [] memory notes) (hrunning : n ∉ running)
    (hn : ¬ g.Filled n memory.scopes) : .begun .pull n ∉ notes ∧ .done n ∉ notes := by
  have hdone : .done n ∉ notes := fun hdone => hn (h.filled n hdone)
  refine ⟨fun hpull => ?_, hdone⟩
  rcases h.pulled n hpull with hdone' | hrunning' | hpending
  · exact hdone hdone'
  · exact hrunning hrunning'
  · simp at hpending

end Standing

/-- An assertion that is kept where values are memoized. -/
def Stable (I : Scene → Prop) : Prop :=
  ∀ sc p v, I sc →
    I { sc with memory := { sc.memory with scopes := sc.memory.scopes.set p v } }

/-- How the present flow stands, with an assertion on the notes on the inner flow. -/
def Stands (g : Graph Definition) (J : List Note → Prop) (running pending : List NodeId)
    (sc : Scene) : Prop :=
  J sc.inner ∧ Standing g running pending sc.memory sc.present

theorem Stable.and {I I' : Scene → Prop} (h : Stable I) (h' : Stable I') :
    Stable fun sc => I sc ∧ I' sc := fun sc p v hsc => ⟨h sc p v hsc.1, h' sc p v hsc.2⟩

theorem stable_holds {g : Graph Definition} {n : NodeId} {names : List String} :
    Stable fun sc => g.Holds n names sc.memory.scopes := fun _ p v h => h.set p v

theorem stable_stands {g : Graph Definition} {J : List Note → Prop}
    {running pending : List NodeId} :
    Stable (Stands g J running pending) := fun _ p v h => ⟨h.1, h.2.set p v⟩

/-- The pulls that are noted when a task is begun and not yet being carried out. -/
def Task.pending : Task → List NodeId
  | invoke n => [n]
  | _ => []

/-- What a task that succeeds leaves behind. -/
def Task.Leaves (g : Graph Definition) (scopes : Scopes) : Task → Prop
  | invoke n => g.Filled n scopes
  | _ => True

/-- An engine that pulls no node twice. -/
def Engine.Sparing (engine : Engine (σ × Chronicle)) : Prop :=
  ∀ s : Setting, Reachable Definition.Tame s.graph → ∀ t running J,
    Ensures (Stands s.graph J running t.pending) (engine s t) fun _ sc =>
      Stands s.graph J running t.pending sc ∧ t.Leaves s.graph sc.memory.scopes

namespace Engine

open Exec

variable {engine : Engine (σ × Chronicle)} {s : Setting} {I : Scene → Prop}

/-! ### Outputs -/

theorem ensures_memoize (hI : Stable I) (p : PortId) (v : Value) :
    Ensures (σ := σ) I (.memoize p v) fun _ sc =>
      I sc ∧ (sc.memory.scopes.find? p).isSome = true :=
  Ensures.modifyMemory (g := fun mem => { mem with scopes := mem.scopes.set p v }) fun sc h =>
    ⟨hI sc p v h, by simp [Scopes.find?_set]⟩

theorem ensures_publish (hI : Stable I) (n : NodeId) (name : String) (v : Value) :
    Ensures (σ := σ) I (publish s n name v) fun _ sc =>
      I sc ∧ s.graph.Holds n [name] sc.memory.scopes := by
  refine Ensures.ofGraph_bind fun p hp => Ensures.ofGraph_bind fun port _ => ?_
  refine (ensures_memoize hI p _).imp fun _ sc ⟨h, hsome⟩ => ⟨h, ?_⟩
  intro name' hname q hq
  obtain rfl := List.mem_singleton.1 hname
  obtain rfl := Option.some.inj ((getOutput_eq_ok.1 hp).symm.trans hq)
  exact hsome

theorem ensures_publishAll (hI : Stable I) (n : NodeId) (outs : List (String × Value)) :
    Ensures (σ := σ) I (publishAll s n outs) fun _ sc =>
      I sc ∧ s.graph.Holds n (outs.map (·.1)) sc.memory.scopes := by
  induction outs generalizing I with
  | nil => exact .pure fun sc h => ⟨h, by simp [Graph.Holds]⟩
  | cons e es ih =>
    refine Ensures.bind (ensures_publish hI n e.1 e.2) fun _ => ?_
    refine (ih (hI.and stable_holds)).imp ?_
    intro _ sc ⟨⟨h, hhead⟩, htail⟩
    exact ⟨h, Graph.Holds.cons hhead htail⟩

theorem ensures_populateEntry (hI : Stable I) (ps : List Port) :
    Ensures (σ := σ) I (populateEntry s ps) fun _ sc => I sc ∧ ∀ p ∈ ps,
      p.decl.isControl = false →
        (sc.memory.scopes.find? (s.graph.portId p.index)).isSome = true := by
  induction ps generalizing I with
  | nil => exact .pure fun sc h => ⟨h, by simp⟩
  | cons p ps ih =>
    let F : Scene → Prop := fun sc => p.decl.isControl = false →
      (sc.memory.scopes.find? (s.graph.portId p.index)).isSome = true
    have hF : Stable F := fun sc q v h hvalue => Scopes.isSome_find?_set (h hvalue) q v
    have hrest : Ensures (σ := σ) (fun sc => I sc ∧ F sc) (populateEntry s ps) fun _ sc =>
        I sc ∧ ∀ q ∈ p :: ps, q.decl.isControl = false →
          (sc.memory.scopes.find? (s.graph.portId q.index)).isSome = true := by
      refine (ih (hI.and hF)).imp ?_
      intro _ sc ⟨⟨h, hhead⟩, htail⟩
      exact ⟨h, List.forall_mem_cons.2 ⟨hhead, htail⟩⟩
    refine Ensures.inspect_bind fun o => ?_
    simp only
    split
    · refine Ensures.bind (Q := fun _ sc => I sc ∧ F sc) ?_ fun _ => hrest
      refine (ensures_memoize hI _ _).mono (fun _ h => h.1) fun _ sc h => ⟨h.1, fun _ => h.2⟩
    next hif =>
      refine hrest.mono (fun sc h => ⟨h.1, fun hvalue => ?_⟩) fun _ _ h => h
      rw [h.2]
      cases o <;> simp_all

/-! ### Bodies -/

theorem ensures_answer (hI : Stable I) (host : Host σ) {q : Request} (hq : q.drives = false) :
    Ensures I (engine.answer s host.noted q) fun _ => I := by
  cases q with
  | write p v => exact (ensures_memoize hI p v).imp fun _ _ h => h.1
  | read p | run p | runNode n | invoke n | openScope | closeScope => simp [Request.drives] at hq
  | _ =>
    refine .of_scene_eq fun m r m' hx => ?_
    obtain ⟨rfl, rfl⟩ := Prod.mk.inj (Option.some.inj hx)
    exact ⟨rfl, rfl, fun _ _ h => h⟩

theorem ensures_runProgram (hI : Stable I) (host : Host σ) {x : Program α} (hx : x.Passive) :
    Ensures I (engine.runProgram s host.noted x) fun _ => I := by
  induction hx with
  | pure a => exact .pure fun _ h => h
  | ask hq _ ih => exact Ensures.bind (ensures_answer hI host hq) ih

theorem ensures_blame {Q : α → Scene → Prop} (n : NodeId) (define : String) (e : BodyError) :
    Ensures (σ := σ) I (blame s n define e) Q := by
  cases e with
  | flow e => exact .fail
  | action e =>
    simp only [blame]
    split
    · exact Ensures.bind .emit fun _ => .fail
    · exact .fail

/-- A method that succeeds leaves its node filled. -/
theorem ensures_invokeMethod (hg : s.graph.Valid [])
    (hread : ∀ p, Ensures I (engine s (.read p)) fun _ => I) (hI : Stable I) (host : Host σ)
    {node : Node Definition} (hnode : node ∈ s.graph.nodes) {d : Definition}
    (hkind : node.kind = .action d) (hd : d.Managed) {m : Method} (hm : d.behaviour = .method m) :
    Ensures I (engine.invokeMethod s host.noted node d.name m) fun _ sc =>
      I sc ∧ s.graph.Filled node.id sc.memory.scopes := by
  obtain ⟨hbody, hwritten⟩ := hd.method m hm
  refine Ensures.bind (closed_bindParams Ensures.closed hread node _ _) fun args => ?_
  refine Ensures.bind (ensures_runProgram hI host (hbody _)) fun r => ?_
  cases r with
  | error e => exact ensures_blame node.id d.name e
  | ok o =>
    refine Ensures.bind (ensures_publishAll hI node.id _) fun _ => .ofGraph fun _ _ sc h => ?_
    refine ⟨h.1, filled_of_holds hg hnode hkind hd (fun p hp hvalue => ?_) h.2⟩
    rw [names_outputsOf]
    exact List.mem_map_of_mem (hwritten p hp hvalue)

/-! ### Inner graphs -/

section Generated

variable {child : Setting} {C O : Memory → List Note → Prop} (hapart : child.callers ≠ s.callers)
  (hchild : ∀ t : Task, t.pending = [] → Ensures (fun sc => C sc.memory sc.present)
    (engine child t) fun _ sc => C sc.memory sc.present)

include hapart hchild

/-- A task of the inner flow, in its own memory and with its own notes. -/
theorem ensures_within (memory : Memory) {t : Task} (ht : t.pending = []) :
    Ensures (fun sc => O sc.memory sc.present ∧ C memory sc.inner)
      (.within memory (engine.apart s child t))
      fun r sc => O sc.memory sc.present ∧ C r.2 sc.inner := by
  have haside : engine.apart s child t = .aside (engine child t) := if_neg hapart
  rw [haside]
  exact Ensures.within (B := fun _ => C) (hchild t ht).aside

theorem ensures_followEntry (entry : NodeId) (memory : Memory) :
    Ensures (fun sc => O sc.memory sc.present ∧ C memory sc.inner)
      ((engine.apart s).followEntry child entry memory)
      fun memory' sc => O sc.memory sc.present ∧ C memory' sc.inner := by
  unfold followEntry
  split
  · exact .pure fun _ h => h
  · exact Ensures.bind (ensures_within hapart hchild memory rfl) fun _ => .pure fun _ h => h

theorem ensures_deliver (hO : ∀ mem notes p v, O mem notes →
      O { mem with scopes := mem.scopes.set p v } notes) (n result : NodeId) (ds : List PortDecl)
    (memory : Memory) : Ensures (fun sc => O sc.memory sc.present ∧ C memory sc.inner)
      ((engine.apart s).deliver s child n result ds memory) fun _ sc =>
        O sc.memory sc.present ∧ s.graph.Holds n (ds.map (·.name)) sc.memory.scopes := by
  induction ds generalizing memory O with
  | nil => exact .pure fun sc h => ⟨h.1, by simp [Graph.Holds]⟩
  | cons d ds ih =>
    refine Ensures.ofGraph_bind fun p _ => ?_
    refine Ensures.bind (ensures_within hapart hchild memory rfl) fun r => ?_
    have hstable : Stable fun sc => O sc.memory sc.present ∧ C r.2 sc.inner :=
      fun sc p v h => ⟨hO _ _ p v h.1, h.2⟩
    refine Ensures.bind (ensures_publish hstable n d.name r.1) fun _ => ?_
    let O' : Memory → List Note → Prop := fun mem notes =>
      O mem notes ∧ s.graph.Holds n [d.name] mem.scopes
    refine (ih (O := O') (fun mem notes p v h => ⟨hO mem notes p v h.1, h.2.set p v⟩) r.2).mono
      (fun sc h => ⟨⟨h.1.1, h.2⟩, h.1.2⟩) ?_
    intro _ sc ⟨⟨h, hhead⟩, htail⟩
    exact ⟨h, Graph.Holds.cons hhead htail⟩

end Generated

variable {J : List Note → Prop} {running : List NodeId}

/-- A task that is no invocation leaves a flow standing as before. -/
theorem Sparing.keeps (he : engine.Sparing) (hg : Reachable Definition.Tame s.graph) {t : Task}
    (ht : t.pending = []) :
    Ensures (Stands s.graph J running []) (engine s t) fun _ => Stands s.graph J running [] :=
  ht ▸ (he s hg t running J).imp fun _ _ h => h.1

/-- A read in the flow itself. -/
theorem ensures_apart_read (he : engine.Sparing) (hg : Reachable Definition.Tame s.graph)
    (p : PortId) : Ensures (Stands s.graph J running []) (engine.apart s s (.read p))
      fun _ => Stands s.graph J running [] := by
  have hsame : engine.apart s s (.read p) = engine s (.read p) := if_pos rfl
  rw [hsame]
  exact he.keeps hg rfl

theorem callers_child (inner : Graph Definition) (n : NodeId) :
    (s.child inner n).callers ≠ s.callers := by
  intro h
  have hlength := congrArg List.length h
  simp [Setting.child] at hlength

/-- A node of a generated kind that succeeds is left filled, and the flow that it opens stands as
any other. -/
theorem ensures_invokeGenerated (he : engine.Sparing) (hg : Reachable Definition.Tame s.graph)
    {node : Node Definition} (hnode : node ∈ s.graph.nodes) {d : Definition}
    (hkind : node.kind = .action d) (hd : d.Managed) {inner : Graph Definition}
    (hinner : d.behaviour = .generated inner) :
    Ensures (Stands s.graph (· = []) running [])
      ((engine.apart s).invokeGenerated s node d inner) fun _ sc =>
        Standing s.graph running [] sc.memory sc.present ∧
          s.graph.Filled node.id sc.memory.scopes := by
  have hchild : ∀ t : Task, t.pending = [] →
      Ensures (fun sc => Standing inner [] [] sc.memory sc.present)
        (engine (s.child inner node.id) t)
        fun _ sc => Standing inner [] [] sc.memory sc.present := by
    intro t ht
    have h : Ensures (Stands inner (fun _ => True) [] []) (engine (s.child inner node.id) t)
        fun _ => Stands inner (fun _ => True) [] [] := he.keeps (hd.generated inner hinner) ht
    exact h.mono (fun _ h => ⟨trivial, h⟩) fun _ _ h => h.2
  have hapart := callers_child (s := s) inner node.id
  unfold invokeGenerated
  split
  · exact .fail
  · split
    · exact .fail
    · exact .fail
    next entry result _ _ =>
      refine Ensures.bind (closed_bindInputs Ensures.closed (ensures_apart_read he hg) node.id
        _ _ _ _) fun inputs => ?_
      refine Ensures.ofGraph_bind fun frame _ => ?_
      have hfollow := ensures_followEntry (O := Standing s.graph running []) hapart hchild entry
        (.start frame)
      refine Ensures.bind (hfollow.mono (fun sc h => ⟨h.2, ?_⟩) fun _ _ h => h) fun memory => ?_
      · obtain ⟨hinner, -⟩ := h
        rw [hinner]
        exact .start frame
      · refine Ensures.bind (ensures_deliver hapart hchild (fun _ _ p v h => h.set p v) node.id
          result d.signature.outputs memory) fun _ => .pure fun sc h => ⟨h.1, ?_⟩
        exact filled_of_holds hg.valid hnode hkind hd (fun p hp _ => List.mem_map_of_mem hp) h.2

/-! ### Invocations -/

/-- A node that succeeds is left filled. -/
theorem ensures_invoke (he : engine.Sparing) (hg : Reachable Definition.Tame s.graph)
    (host : Host σ) (n : NodeId) :
    Ensures (fun sc => sc.inner = [] ∧ Standing s.graph running [n] sc.memory sc.present)
      ((engine.apart s).invoke s host.noted n) fun _ sc =>
        Standing s.graph running [n] sc.memory sc.present ∧
          s.graph.Filled n sc.memory.scopes := by
  refine Ensures.ofGraph_bind fun node hgot => Ensures.bind .emit fun _ => ?_
  have hfound := getNode_eq_ok.1 hgot
  obtain ⟨hnode, rfl⟩ := node?_mem hfound
  refine Ensures.running (P := Stands s.graph (· = []) (node.id :: running) [])
    (Q := fun _ sc => Standing s.graph (node.id :: running) [] sc.memory sc.present ∧
      s.graph.Filled node.id sc.memory.scopes) ?_ (fun sc h => ⟨h.1, h.2.enter⟩)
    fun _ sc h => ⟨h.1.leave, h.2⟩
  have hstable : Stable (Stands s.graph (· = []) (node.id :: running) []) := stable_stands
  split
  next hkind =>
    refine Ensures.bind (ensures_populateEntry hstable _) fun _ => .pure fun sc h => ⟨h.1.2, ?_⟩
    intro node' hnode' p hp hvalue
    obtain rfl := Option.some.inj (hfound.symm.trans hnode')
    exact h.2 p hp hvalue
  next hkind =>
    refine .pure fun sc h => ⟨h.2, fun node' hnode' p hp _ => ?_⟩
    -- A Return node has no outputs.
    obtain rfl := Option.some.inj (hfound.symm.trans hnode')
    have hspecs := (hg.valid.shaped node hnode List.not_mem_nil).outputs
    have hmem : p.spec ∈ s.graph.wantedOutputs node := hspecs ▸ List.mem_map_of_mem hp
    simp [wantedOutputs, hkind] at hmem
  next d hkind =>
    have hd := ((hg.invariant.2 node hnode).1 d hkind).managed
    split
    next m hm =>
      have hmethod := ensures_invokeMethod hg.valid (ensures_apart_read he hg) hstable host hnode
        hkind hd hm
      exact hmethod.imp fun _ _ h => ⟨h.1.2, h.2⟩
    next inner hinner => exact ensures_invokeGenerated he hg hnode hkind hd hinner

/-- An invocation that has begun, up to the note that it is done. -/
theorem ensures_done (he : engine.Sparing) (hg : Reachable Definition.Tame s.graph) (n : NodeId) :
    Ensures (Stands s.graph J running [n]) (do
      let exit ← engine s (.invoke n)
      note (.done n)
      return exit) fun _ => Stands s.graph J running [] := by
  refine Ensures.bind (he s hg (.invoke n) running J) fun exit => ?_
  refine Ensures.bind (Q := fun _ => Stands s.graph J running [])
    (.note (fun _ _ _ h => by simp at h) fun sc h => ?_) fun _ => .pure fun _ h => h
  exact ⟨h.1.1, h.1.2.finish h.2⟩

theorem ensures_push (he : engine.Sparing) (hg : Reachable Definition.Tame s.graph) (n : NodeId) :
    Ensures (Stands s.graph J running []) (engine.noting .push s (.invoke n))
      fun _ => Stands s.graph J running [] :=
  Ensures.bind (Q := fun _ => Stands s.graph J running [n])
    (.note (fun _ _ _ h => by simp at h) fun sc h => ⟨h.1, h.2.begin .push n⟩)
    fun _ => ensures_done he hg n

/-- A node is pulled if it is not being run and not filled, and then not again. -/
theorem ensures_pull (he : engine.Sparing) (hg : Reachable Definition.Tame s.graph) {n : NodeId}
    (hn : n ∉ running) :
    Ensures (fun sc => Stands s.graph J running [] sc ∧ ¬ s.graph.Filled n sc.memory.scopes)
      (engine.noting .pull s (.invoke n)) fun _ => Stands s.graph J running [] := by
  refine Ensures.bind (Q := fun _ => Stands s.graph J running [n])
    (.note (fun sc h k hk => ?_) fun sc h => ⟨h.1.1, h.1.2.begin .pull n⟩)
    fun _ => ensures_done he hg n
  obtain rfl : n = k := by simpa using hk
  exact h.1.2.pullable hn h.2

/-! ### Tasks -/

theorem ensures_read (he : engine.Sparing) (hg : Reachable Definition.Tame s.graph) (p : PortId) :
    Ensures (Stands s.graph J running []) ((engine.noting .pull).read s p)
      fun _ => Stands s.graph J running [] := by
  refine Ensures.inspect_bind fun o => ?_
  cases o with
  | some v => exact .pure fun _ h => h.1
  | none =>
    refine Ensures.ofGraph_bind fun port hport => ?_
    split
    · split
      next source _ =>
        have hsource : Ensures (Stands s.graph J running []) (engine s (.read source))
            fun _ => Stands s.graph J running [] := he.keeps hg rfl
        refine Ensures.bind (hsource.mono (fun _ h => h.1) fun _ _ h => h) fun _ => ?_
        exact .pure fun _ h => h
      · exact .pure fun _ h => h.1
    next hrole =>
      refine Ensures.inspect_bind fun nodes => ?_
      refine .of_imp (φ := running = nodes) (fun sc h => h.1.1.2.runs.symm.trans h.2) ?_
      rintro rfl
      split
      · exact .fail
      next hnot =>
        refine Ensures.bind (Q := fun _ => Stands s.graph J running []) ?_ fun _ => ?_
        · refine (ensures_pull he hg (by simpa using hnot)).mono (fun sc h => ⟨h.1.1, ?_⟩)
            fun _ _ h => h
          exact not_filled hg.valid (getPort_eq_ok.1 hport) hrole h.1.2
        · refine Ensures.inspect_bind fun o => ?_
          cases o with
          | some v => exact .pure fun _ h => h.1
          | none => exact Ensures.bind .emit fun _ => .fail
    · exact .fail

theorem ensures_follow (he : engine.Sparing) (hg : Reachable Definition.Tame s.graph)
    (p : PortId) : Ensures (Stands s.graph J running []) ((engine.noting .push).follow s p)
      fun _ => Stands s.graph J running [] := by
  refine Ensures.ofGraph_bind fun port _ =>
    Ensures.bind (ensures_push he hg port.node) fun exit => ?_
  split
  next next _ => exact he.keeps hg (t := .follow next) rfl
  · exact .pure fun _ h => h

/-- A level that pulls no node twice makes the next level do so. -/
theorem Sparing.step (he : engine.Sparing) (host : Host σ) : (engine.notedStep host).Sparing := by
  intro s hg t running J
  cases t with
  | read p => exact (ensures_read he hg p).imp fun _ _ h => ⟨h, trivial⟩
  | follow p => exact (ensures_follow he hg p).imp fun _ _ h => ⟨h, trivial⟩
  | invoke n =>
    have h : Ensures (fun sc => J sc.inner ∧ Standing s.graph running [n] sc.memory sc.present)
        (.nesting ((engine.apart s).invoke s host.noted n)) fun _ sc => J sc.inner ∧
          Standing s.graph running [n] sc.memory sc.present ∧ s.graph.Filled n sc.memory.scopes :=
      Ensures.nesting (B := fun _ mem notes =>
        Standing s.graph running [n] mem notes ∧ s.graph.Filled n mem.scopes)
        (ensures_invoke he hg host n)
    exact h.imp fun _ _ h => ⟨⟨h.1, h.2.1⟩, h.2.2⟩

end Engine

/-- The interpreter pulls no node twice, at every level and in every flow. -/
theorem sparing_noted (stop : Option FlowError) (host : Host σ) (n : Nat) :
    (noted (.halting stop) host n).Sparing := by
  induction n with
  | zero =>
    intro s hg t running J
    cases stop with
    | none => exact .exhausted
    | some e => exact .fail
  | succ n ih => exact ih.step host

/-! ## Calls -/

/-- A call from outside a flow. -/
inductive Query where
  | run (port : PortId)
  | runNode (node : NodeId)
  | read (port : PortId)

namespace Engine

/-- Carries out a call. -/
def perform (engine : Engine σ) (s : Setting) : Query → Exec σ Unit
  | .run p => engine.run s p
  | .runNode n => engine.runNode s n
  | .read p => do
    let _ ← engine s (.read p)
    return ()

/-- Carries out calls one after another, each with an allowance of its own, until one fails. -/
def performAll (engine : Nat → Engine σ) (s : Setting) : List (Nat × Query) → Exec σ Unit
  | [] => return ()
  | (n, q) :: qs => do
    (engine n).perform s q
    performAll engine s qs

end Engine

/-- A relation that the interpreter respects is one of calls, too. -/
theorem Exec.Congruence.perform {τ : Type} {C : ∀ {α : Type}, Exec σ α → Exec τ α → Prop}
    (hC : Exec.Congruence C) {engine : Engine σ} {engine' : Engine τ} {s : Setting} {o : Options}
    (he : ∀ t, C (engine s t) (engine' (s.under o) t)) (q : Query) :
    C (engine.perform s q) (engine'.perform (s.under o) q) := by
  cases q with
  | run p => exact hC.run he p
  | runNode n => exact hC.runNode he n
  | read p => exact hC.bind (he (.read p)) fun _ => hC.pure ()

namespace Engine

variable {s : Setting}

theorem erases_performAll {engine : Nat → Engine (σ × Chronicle)} {engine' : Nat → Engine σ}
    (he : ∀ n s t, Erases (engine n s t) (engine' n s t)) (qs : List (Nat × Query)) :
    Erases (performAll engine s qs) (performAll engine' s qs) := by
  have hC : Exec.Congruence fun x (y : Exec σ _) => Erases x y := erases_congruence
  induction qs with
  | nil => exact hC.pure _
  | cons q qs ih => exact hC.bind (hC.perform (o := s.options) (he q.1 s) q.2) fun _ => ih

variable {J : List Note → Prop}

theorem ensures_run {engine : Engine (σ × Chronicle)} (he : engine.Sparing)
    (hg : Reachable Definition.Tame s.graph) (p : PortId) :
    Ensures (Stands s.graph J [] []) (engine.run s p)
      fun _ => Stands s.graph J [] [] := by
  refine Ensures.ofGraph_bind fun port _ => ?_
  split
  · exact he.keeps hg (t := .follow p) rfl
  · exact .fail

theorem ensures_perform {engine : Engine (σ × Chronicle)} (he : engine.Sparing)
    (hg : Reachable Definition.Tame s.graph) (q : Query) :
    Ensures (Stands s.graph J [] []) (engine.perform s q)
      fun _ => Stands s.graph J [] [] := by
  cases q with
  | run p => exact ensures_run he hg p
  | runNode n =>
    simp only [perform, runNode]
    split
    · exact ensures_run he hg _
    · exact .fail
  | read p =>
    have hread : Ensures (Stands s.graph J [] []) (engine s (.read p))
        fun _ => Stands s.graph J [] [] := he.keeps hg rfl
    exact Ensures.bind hread fun _ => .pure fun _ h => h

theorem ensures_performAll {engine : Nat → Engine (σ × Chronicle)} (he : ∀ n, (engine n).Sparing)
    (hg : Reachable Definition.Tame s.graph) (qs : List (Nat × Query)) :
    Ensures (Stands s.graph J [] []) (performAll engine s qs)
      fun _ => Stands s.graph J [] [] := by
  induction qs with
  | nil => exact .pure fun _ h => h
  | cons q qs ih => exact Ensures.bind (ensures_perform (he q.1) hg q.2) fun _ => ih

end Engine

/-- In a fresh flow over a graph of tame kinds no node is pulled twice, or pulled after an
invocation of it has completed, whatever calls are made from outside up to the first that fails, and
the same holds of every flow that is opened for a generated node. The notes are those of the run
itself, and of one that does not end also where it is broken off. -/
theorem pulled_at_most_once {s : Setting} (hg : Reachable Definition.Tame s.graph) (host : Host σ)
    (calls : List (Nat × Query)) (f : Frame) (log : List Event) (state : σ) :
    levels (.halting none) host = exec host ∧ ∀ stop : Option FlowError,
      Engine.performAll (levels (.halting stop) host) s calls ⟨.start f, log, state⟩ =
        (Engine.performAll (noted (.halting stop) host) s calls
          ⟨.start f, log, (state, .empty)⟩).map (fun r => (r.1, r.2.plain)) ∧
      ∀ r m, Engine.performAll (noted (.halting stop) host) s calls
          ⟨.start f, log, (state, .empty)⟩ = some (r, m) →
        ∀ notes ∈ m.chronicle.present :: m.chronicle.closed, PulledOnce notes := by
  refine ⟨funext fun n => (exec_eq_levels host n).symm, fun stop => ⟨?_, fun r m hrun => ?_⟩⟩
  · exact Engine.erases_performAll (fun n s t => erases_noted stop host n s t) calls
      ⟨.start f, log, (state, .empty)⟩
  · have hensures := Engine.ensures_performAll (J := fun _ => True)
      (sparing_noted stop host) hg calls
    obtain ⟨hsane, -⟩ := hensures _ _ _ hrun Chronicle.sane_empty ⟨trivial, .start f⟩
    exact List.forall_mem_cons.2 ⟨hsane.present, hsane.closed⟩

/-- A node of a generated kind and one that reads it in two slots, in a loop of control. -/
def taggedLoop : Graph Definition :=
  [.addNode (.action .tagged), .addNode (.action Library.concat.kind), .connect ⟨0, 2⟩ ⟨0, 4⟩,
    .connect ⟨0, 2⟩ ⟨0, 7⟩, .connect ⟨0, 1⟩ ⟨0, 3⟩, .connect ⟨0, 5⟩ ⟨0, 0⟩].foldl
    Edit.perform (.empty 0 .standard)

theorem reachable_taggedLoop : Reachable Definition.Tame taggedLoop := by
  have htagged : Definition.tagged.Tame :=
    .generated (s := .tagged) rfl (by decide) (reachable_taggedInner.mono fun _ h => h.tame)
  refine .foldl (fun e he k hk => ?_) (.blank 0 .standard)
  simp only [List.mem_cons, List.not_mem_nil, or_false] at he
  rcases he with rfl | rfl | rfl | rfl | rfl | rfl
  case inl =>
    obtain rfl := Option.some.inj hk
    exact htagged
  case inr.inl =>
    obtain rfl := Option.some.inj hk
    exact standard_concat.tame
  all_goals simp [Edit.offers] at hk

/-- The joined text is read, and then control goes round the loop until it is broken off. Both nodes
are pulled for the read and only pushed after it. -/
theorem pulled_at_most_once_taggedLoop : ∃ r m,
    Engine.performAll (noted (.halting (some (.cycle ⟨1⟩))) nullHost)
        (.top taggedLoop .empty ⟨32, true⟩ .standard) [(12, .read ⟨0, 6⟩), (7, .runNode ⟨1⟩)]
        ⟨.start .empty, [], ((), .empty)⟩ = some (r, m) ∧
      m.chronicle.present.reverse =
        [.begun .pull ⟨2⟩, .begun .pull ⟨1⟩, .done ⟨1⟩, .done ⟨2⟩,
          .begun .push ⟨1⟩, .done ⟨1⟩, .begun .push ⟨2⟩, .done ⟨2⟩, .begun .push ⟨1⟩] ∧
      ∀ notes ∈ m.chronicle.present :: m.chronicle.closed, PulledOnce notes := by
  have hrun : ((Engine.performAll (noted (.halting (some (.cycle ⟨1⟩))) nullHost)
      (.top taggedLoop .empty ⟨32, true⟩ .standard) [(12, .read ⟨0, 6⟩), (7, .runNode ⟨1⟩)]
      ⟨.start .empty, [], ((), .empty)⟩).map fun r => r.2.chronicle.present.reverse) =
      some [.begun .pull ⟨2⟩, .begun .pull ⟨1⟩, .done ⟨1⟩, .done ⟨2⟩,
        .begun .push ⟨1⟩, .done ⟨1⟩, .begun .push ⟨2⟩, .done ⟨2⟩, .begun .push ⟨1⟩] := by
    decide +kernel
  obtain ⟨⟨r, m⟩, hr, hnotes⟩ := Option.map_eq_some_iff.1 hrun
  have hpulled := (pulled_at_most_once (s := .top taggedLoop .empty ⟨32, true⟩ .standard)
    reachable_taggedLoop nullHost [(12, .read ⟨0, 6⟩), (7, .runNode ⟨1⟩)] .empty [] ()).2
  exact ⟨r, m, hr, hnotes, (hpulled _).2 r m hr⟩

end EffectGraph
