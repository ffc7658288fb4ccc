import EffectGraph.Proofs.Conforming

/-!
# Type soundness

What holds of the memory when a run has ended says nothing of the moments in between, nor of runs
that do not end. A supervised run (`supervised`) looks at the memory of the present flow before and
after every task, nested ones and those in flows over inner graphs included, and hands over to
another engine as soon as a test fails. Since all memoized values conform at all these moments, a
supervisor that lets conforming memories pass never interferes (`supervised_eq`). The main result is
that the interpreter is type sound (`type_sound`).
-/

namespace EffectGraph

open EffectGraph.Graph

variable {σ α β : Type}

/-! ## Steps that agree -/

/-- Two steps that do the same in every flow whose scopes have a property. -/
def AgreeOn (I : Scopes → Prop) (x y : Exec σ α) : Prop := ∀ m, I m.memory.scopes → y m = x m

namespace AgreeOn

variable {I J : Scopes → Prop} {Q : α → Prop} {x y : Exec σ α} {f g : α → Exec σ β}

theorem refl (x : Exec σ α) : AgreeOn I x x := fun _ _ => rfl

theorem bind (hxy : AgreeOn I x y) (hx : Upholds I x Q) (hfg : ∀ a, Q a → AgreeOn I (f a) (g a)) :
    AgreeOn I (x >>= f) (y >>= g) := by
  intro m hm
  show Exec.bind y g m = Exec.bind x f m
  unfold Exec.bind
  rw [hxy m hm]
  cases hr : x m with
  | none => rfl
  | some r =>
    obtain ⟨r, m'⟩ := r
    obtain ⟨hm', hQ⟩ := hx m r m' hr hm
    cases r with
    | error e => rfl
    | ok a => exact hfg a (hQ a rfl) m' hm'

theorem after (hx : Upholds I x Q) (hfg : ∀ a, Q a → AgreeOn I (f a) (g a)) :
    AgreeOn I (x >>= f) (x >>= g) := bind (refl x) hx hfg

theorem attempt (h : AgreeOn I x y) : AgreeOn I (Exec.attempt x) (Exec.attempt y) := by
  intro m hm
  unfold Exec.attempt
  rw [h m hm]

theorem running {n : NodeId} (h : AgreeOn I x y) (hx : Upholds I x Q) :
    AgreeOn I (Exec.running n x) (Exec.running n y) := by
  refine after (.modifyMemory fun _ hm => hm) fun _ _ => ?_
  exact bind h.attempt hx.attempt fun _ _ => refl _

theorem within {memory : Memory} (hmemory : I memory.scopes) (h : AgreeOn I x y) :
    AgreeOn J (Exec.within memory x) (Exec.within memory y) := by
  intro m _
  unfold Exec.within
  rw [h { m with memory := memory } hmemory]

end AgreeOn

variable {s : Setting}

namespace Engine

/-! ## Engines that agree -/

variable {engine engine' : Engine σ}
  (he : ∀ s : Setting, s.Regular → ∀ t,
    Upholds (ConformingScopes s.graph) (engine s t) (t.Meets s.graph.Conforms))
  (ha : ∀ s : Setting, s.Regular → ∀ t,
    AgreeOn (ConformingScopes s.graph) (engine s t) (engine' s t))

include he ha

section Flow

variable (h : s.Regular)

include h

theorem agree_read (p : PortId) :
    AgreeOn (ConformingScopes s.graph) (engine.read s p) (engine'.read s p) := by
  refine AgreeOn.after (Upholds.peek p) fun o _ => ?_
  cases o with
  | some v => exact .refl _
  | none =>
    refine AgreeOn.after (.ofGraph (Q := fun _ => True) fun _ _ => trivial) fun port _ => ?_
    split
    · split
      next source _ => exact .bind (ha s h _) (he s h (.read source)) fun _ _ => .refl _
      next => exact .refl _
    · refine AgreeOn.after (.inspect (Q := fun _ => True) fun _ _ => trivial) fun running _ => ?_
      split
      · exact .refl _
      · exact .bind (ha s h _) (he s h (.invoke port.node)) fun _ _ => .refl _
    · exact .refl _

theorem agree_readAll (ps : List PortId) :
    AgreeOn (ConformingScopes s.graph) (engine.readAll s ps) (engine'.readAll s ps) := by
  induction ps with
  | nil => exact .refl _
  | cons p ps ih =>
    refine AgreeOn.bind (ha s h _) (he s h (.read p)) fun v _ => ?_
    exact .bind ih (upholds_readAll (he s h) ps) fun _ _ => .refl _

theorem agree_argument (n : NodeId) (d : PortDecl) :
    AgreeOn (ConformingScopes s.graph) (engine.argument s n d) (engine'.argument s n d) := by
  unfold argument
  split
  · exact .bind (agree_readAll he ha h _) (upholds_readAll (he s h) _) fun _ _ => .refl _
  · exact .after (.ofGraph (Q := fun _ => True) fun _ _ => trivial) fun p _ => ha s h (.read p)

theorem agree_bindParams (node : Node Definition) (ps : List MethodParam)
    (args : Table String Value) :
    AgreeOn (ConformingScopes s.graph) (engine.bindParams s node ps args)
      (engine'.bindParams s node ps args) := by
  induction ps generalizing args with
  | nil => exact .refl _
  | cons p ps ih =>
    cases p with
    | input d =>
      exact .bind (agree_argument he ha h node.id d) (upholds_argument (he s h) node.id d)
        fun v _ => ih _
    | const d => exact ih _
    | out d => exact ih _
    | branch d => exact ih _
    | ambient name context => exact ih _

theorem agree_follow (p : PortId) :
    AgreeOn (ConformingScopes s.graph) (engine.follow s p) (engine'.follow s p) := by
  refine AgreeOn.after (.ofGraph (Q := fun _ => True) fun _ _ => trivial) fun port _ => ?_
  refine AgreeOn.bind (ha s h _) (he s h (.invoke port.node)) fun exit _ => ?_
  split
  next next _ => exact ha s h (.follow next)
  next => exact .refl _

omit he in
theorem agree_run (p : PortId) :
    AgreeOn (ConformingScopes s.graph) (engine.run s p) (engine'.run s p) := by
  refine AgreeOn.after (.ofGraph (Q := fun _ => True) fun _ _ => trivial) fun port _ => ?_
  split
  · exact ha s h (.follow p)
  · exact .refl _

omit he in
theorem agree_runNode (n : NodeId) :
    AgreeOn (ConformingScopes s.graph) (engine.runNode s n) (engine'.runNode s n) := by
  unfold runNode
  split
  · exact agree_run ha h _
  · exact .refl _

omit he in
theorem agree_answer (host : Host σ) (q : Request) :
    AgreeOn (ConformingScopes s.graph) (engine.answer s host q) (engine'.answer s host q) := by
  cases q with
  | read p => exact (ha s h (.read p)).attempt
  | run p => exact (agree_run ha h p).attempt
  | runNode n => exact (agree_runNode ha h n).attempt
  | invoke n => exact (ha s h (.invoke n)).attempt
  | _ => exact .refl _

theorem agree_runProgram (host : Host σ) {α : Type} {x : Program α} (hx : x.Unwriting) :
    AgreeOn (ConformingScopes s.graph) (engine.runProgram s host x)
      (engine'.runProgram s host x) := by
  induction hx with
  | pure a => exact .refl _
  | ask hq _ ih =>
    exact .bind (agree_answer ha h host _)
      (upholds_answer (he s h) (fun _ h => h.push) (fun _ h => h.pop) host hq) fun a _ => ih a

theorem agree_invokeMethod (host : Host σ) (node : Node Definition) (define : String) {m : Method}
    (hbody : ∀ c, (m.body c).Unwriting) :
    AgreeOn (ConformingScopes s.graph) (engine.invokeMethod s host node define m)
      (engine'.invokeMethod s host node define m) := by
  refine AgreeOn.bind (agree_bindParams he ha h node _ _)
    (upholds_bindParams (he s h) node _ _) fun args _ => ?_
  exact .bind (agree_runProgram he ha h host (hbody _))
    (conforming_runProgram he h host (hbody _)) fun _ _ => .refl _

theorem agree_bindInputs (n : NodeId) {inner : Graph Definition} {entry : NodeId}
    (ds : List PortDecl) (f : Frame) :
    AgreeOn (ConformingScopes s.graph) (engine.bindInputs s n inner entry ds f)
      (engine'.bindInputs s n inner entry ds f) := by
  induction ds generalizing f with
  | nil => exact .refl _
  | cons d ds ih =>
    refine AgreeOn.bind (agree_argument he ha h n d) (upholds_argument (he s h) n d) fun v _ => ?_
    exact .after (.ofGraph (Q := fun _ => True) fun _ _ => trivial) fun r _ => ih _

end Flow

theorem agree_followEntry {J : Scopes → Prop} {child : Setting} (h : child.Regular)
    (entry : NodeId) {memory : Memory} (hmemory : ConformingScopes child.graph memory.scopes) :
    AgreeOn J (engine.followEntry child entry memory) (engine'.followEntry child entry memory) := by
  unfold followEntry
  split
  · exact .refl _
  next start _ =>
    exact .bind (.within hmemory (ha child h _)) (.within hmemory (he child h (.follow start)))
      fun _ _ => .refl _

theorem agree_deliver (h : s.Regular) {child : Setting} (hchild : child.Regular)
    (n result : NodeId) (ds : List PortDecl) {memory : Memory}
    (hmemory : ConformingScopes child.graph memory.scopes) :
    AgreeOn (ConformingScopes s.graph) (engine.deliver s child n result ds memory)
      (engine'.deliver s child n result ds memory) := by
  induction ds generalizing memory with
  | nil => exact .refl _
  | cons d ds ih =>
    refine AgreeOn.after (.ofGraph (Q := fun _ => True) fun _ _ => trivial) fun p _ => ?_
    refine AgreeOn.bind (.within hmemory (ha child hchild _))
      (.within hmemory (he child hchild (.read p))) fun r hr => ?_
    refine AgreeOn.after (upholds_publish h.discipline fun q port _ hport =>
      conforms_coerce h.hook hport r.1) fun _ _ => ih hr.2

theorem agree_invokeGenerated (h : s.Regular) (node : Node Definition) (d : Definition)
    {inner : Graph Definition} (hinner : Reachable Definition.Made inner) :
    AgreeOn (ConformingScopes s.graph) (engine.invokeGenerated s node d inner)
      (engine'.invokeGenerated s node d inner) := by
  unfold invokeGenerated
  split
  · exact .refl _
  · split
    · exact .refl _
    · exact .refl _
    next entry result _ _ =>
      have hchild := h.child hinner node.id
      have hempty : ∀ p v, (Table.empty : Frame).get? p = some v → inner.Conforms p v :=
        fun p v hv => by simp at hv
      refine AgreeOn.bind (agree_bindInputs he ha h node.id _ _)
        (conforming_bindInputs he h node.id _ hempty) fun inputs hinputs => ?_
      refine AgreeOn.after (.ofGraph fun frame hframe =>
        (supplies_conforms h.hook inner entry).bindConsts node _ hinputs hframe)
        fun frame hframe => ?_
      refine AgreeOn.bind (agree_followEntry he ha hchild entry (.base hframe))
        (upholds_followEntry (he _ hchild) entry (.base hframe)) fun memory hmemory => ?_
      exact .bind (agree_deliver he ha h hchild node.id result _ hmemory)
        (conforming_deliver he h hchild node.id result _ hmemory) fun _ _ => .refl _

/-! ### Tasks -/

theorem agree_invoke (host : Host σ) (h : s.Regular) (n : NodeId) :
    AgreeOn (ConformingScopes s.graph) (engine.invoke s host n) (engine'.invoke s host n) := by
  refine AgreeOn.after (.ofGraph (Q := fun node => s.graph.node? n = some node) fun _ hnode =>
    getNode_eq_ok.1 hnode) fun node hnode => ?_
  refine AgreeOn.after .emit fun _ _ => ?_
  split
  · exact .refl _
  · exact .refl _
  next d hkind =>
    have hbehaves := (h.made (node?_mem hnode).1 hkind).behaves
    unfold Definition.Behaves at hbehaves
    split
    next m hm =>
      rw [hm] at hbehaves
      obtain ⟨decl, d', -, -, -, hbody⟩ := hbehaves
      exact (agree_invokeMethod he ha h host node d.name hbody).running
        (conforming_invokeMethod he h host node d.name hbody)
    next inner hinner =>
      rw [hinner] at hbehaves
      exact (agree_invokeGenerated he ha h node d hbehaves).running
        (conforming_invokeGenerated he h node d hbehaves)

theorem agree_step (host : Host σ) (h : s.Regular) (t : Task) :
    AgreeOn (ConformingScopes s.graph) (step engine host s t) (step engine' host s t) := by
  cases t with
  | read p => exact agree_read he ha h p
  | invoke n => exact agree_invoke he ha host h n
  | follow p => exact agree_follow he ha h p

end Engine

/-! ## Supervision -/

/-- A look at the memory of a flow, which the memory may pass or fail. -/
abbrev Test := Setting → Scopes → Bool

/-- Carries out a task with a look at the memory before and after it. Another engine takes over if
the memory fails the test. -/
def watch (test : Test) (alarm engine : Engine σ) : Engine σ := fun s t m =>
  if test s m.memory.scopes then
    match engine s t m with
    | none => none
    | some (r, m') => if test s m'.memory.scopes then some (r, m') else alarm s t m'
  else alarm s t m

/-- The interpreter with a look at the memory before and after every task. -/
def supervised (test : Test) (alarm base : Engine σ) (host : Host σ) : Nat → Engine σ
  | 0 => watch test alarm base
  | n + 1 => watch test alarm (Engine.step (supervised test alarm base host n) host)

/-- A supervisor does not interfere with an engine that keeps what passes the test. -/
theorem agree_watch {test : Test} {I : Scopes → Prop}
    (htest : ∀ scopes, I scopes → test s scopes = true) (alarm : Engine σ)
    {engine engine' : Engine σ}
    {t : Task} {P : t.Result → Prop} (hx : Upholds I (engine s t) P)
    (ha : AgreeOn I (engine s t) (engine' s t)) :
    AgreeOn I (engine s t) (watch test alarm engine' s t) := by
  intro m hm
  unfold watch
  rw [if_pos (htest _ hm), ha m hm]
  cases hr : engine s t m with
  | none => rfl
  | some r =>
    obtain ⟨r, m'⟩ := r
    have hm' := (hx m r m' hr hm).1
    simp only [if_pos (htest _ hm')]

/-- At every level and in every flow a supervised run is the run itself, if conforming memories pass
the test. -/
theorem supervised_eq {test : Test}
    (htest : ∀ s scopes, ConformingScopes s.graph scopes → test s scopes = true) (alarm : Engine σ)
    {base : Engine σ} (hbase : base.Conforming) (host : Host σ) (n : Nat) (s : Setting)
    (h : s.Regular) (t : Task) :
    AgreeOn (ConformingScopes s.graph) (levels base host n s t)
      (supervised test alarm base host n s t) := by
  induction n generalizing s t with
  | zero => exact agree_watch (htest s) alarm (hbase s h t) (.refl _)
  | succ n ih =>
    have hlevel := hbase.levels host n
    exact agree_watch (htest s) alarm (Engine.conforming_step hlevel host h t)
      (Engine.agree_step hlevel ih host h t)

/-! ## Type soundness -/

/-- The flows that runs of a flow open for generated kinds, one inside the other. -/
inductive Setting.Opens (s : Setting) : Setting → Prop
  | self : Opens s s
  | child {s' : Setting} {node : Node Definition} {d : Definition} {inner : Graph Definition}
    (hnode : node ∈ s'.graph.nodes) (hkind : node.kind = .action d)
    (hinner : d.behaviour = .generated inner) (h : Opens s s') : Opens s (s'.child inner node.id)

theorem Setting.Regular.opens (h : s.Regular) {s' : Setting} (ho : s.Opens s') : s'.Regular := by
  induction ho with
  | self => exact h
  | child hnode hkind hinner _ ih =>
    have hbehaves := (ih.made hnode hkind).behaves
    rw [Definition.Behaves, hinner] at hbehaves
    exact ih.child hbehaves _

theorem Visited.conforming (h : s.Regular) {host : Host σ} {m : Machine σ} (hm : Visited s host m) :
    ConformingScopes s.graph m.memory.scopes := by
  induction hm with
  | fresh log state => exact .empty
  | request n hq hr _ ih =>
    exact (Engine.upholds_answer (conforming_exec host n s h) (fun _ h => h.push) (fun _ h => h.pop)
      host hq _ _ _ hr ih).1

/-- The parameters of a method have different names, and each input is declared. -/
theorem Definition.Behaves.method {d : Definition} (h : d.Behaves) {m : Method}
    (hm : d.behaviour = .method m) : d.signature.Addressable ∧ (m.params.map (·.name)).Nodup ∧
      ∀ q, .input q ∈ m.params → q ∈ d.signature.inputs := by
  rw [Definition.Behaves, hm] at h
  obtain ⟨decl, d', hdefine, hsignature, hbehaviour, -⟩ := h
  have haddressable := define_addressable hdefine
  obtain ⟨body, -, hcheck, rfl⟩ := define_eq_ok.1 hdefine
  obtain rfl := Behaviour.method.inj hbehaviour
  refine ⟨hsignature ▸ haddressable, (checkParams_eq_ok.1 hcheck).1, fun q hq => ?_⟩
  rw [← hsignature]
  exact List.mem_filterMap.2 ⟨_, hq, rfl⟩

/-- The arguments that a method node binds belong to their declared types. -/
theorem Engine.Conforming.arguments {engine : Engine σ} (he : engine.Conforming) (h : s.Regular)
    {node : Node Definition} (hnode : node ∈ s.graph.nodes) {d : Definition}
    (hkind : node.kind = .action d) {method : Method} (hmethod : d.behaviour = .method method) :
    Upholds (ConformingScopes s.graph) (engine.bindParams s node method.params .empty) fun args =>
      (∀ q, .input q ∈ method.params → ∃ v, args.get? q.name = some v ∧ q.Takes v) ∧
      ∀ q, .const q ∈ method.params →
        ∃ v, args.get? q.name = some v ∧ v.belongsTo q.type = true := by
  obtain ⟨haddressable, hnames, hdeclared⟩ := (h.made hnode hkind).behaves.method hmethod
  refine (Engine.upholds_bindParams (he s h) node method.params .empty).mono fun args hargs => ?_
  refine ⟨fun q hq => ?_, fun q hq => ?_⟩
  · obtain ⟨v, hv, hargument⟩ := hargs.get?_of_mem hnames hq rfl
    exact ⟨v, hv, hargument.takes h.reachable.valid hnode hkind haddressable (hdeclared q hq)⟩
  · obtain ⟨v, hv, rfl⟩ := hargs.get?_of_mem hnames hq rfl
    exact ⟨_, hv, Value.convert_belongsTo h.hook _ _⟩

/-- The interpreter is type sound. Over a graph of kinds whose bodies do not memoize values of their
own, under a hook whose direct conversions conform and in a flow that memoizes no values but those
of the interpreter: all memoized values belong to the types of their ports, in every memory that
the flow comes to and, in every flow it opens, before and after every task; every value that is read
belongs to the type of the port; and the arguments of a method node belong to their declared types,
those of a group element by element. A run that does not end is covered by any engine in the place
of its deepest tasks. -/
theorem type_sound (hg : Reachable Definition.Made s.graph) (hhook : s.hook.Conforming)
    (host : Host σ) :
    (∀ m, Visited s host m → ∀ f ∈ m.memory.scopes.top :: m.memory.scopes.outer,
      ∀ p v, f.get? p = some v → ∀ port, s.graph.port? p = some port →
        v.belongsTo port.port.decl.type = true) ∧
    (∀ m, Visited s host m → ∀ n p v m',
      Engine.answer (exec host n) s host (.read p) m = some (.ok (.ok v), m') →
      ∀ port, s.graph.port? p = some port → v.belongsTo port.port.decl.type = true) ∧
    ∀ s', s.Opens s' → ∀ base : Engine σ, base.Conforming → ∀ n m,
      ConformingScopes s'.graph m.memory.scopes →
      (∀ test : Test, (∀ u scopes, ConformingScopes u.graph scopes → test u scopes = true) →
        ∀ alarm t, supervised test alarm base host n s' t m = levels base host n s' t m) ∧
      ∀ node ∈ s'.graph.nodes, ∀ d, node.kind = .action d → ∀ method,
        d.behaviour = .method method → ∀ args m',
        Engine.bindParams (levels base host n) s' node method.params .empty m =
          some (.ok args, m') →
        (∀ q, .input q ∈ method.params → ∃ v, args.get? q.name = some v ∧ q.Takes v) ∧
        ∀ q, .const q ∈ method.params →
          ∃ v, args.get? q.name = some v ∧ v.belongsTo q.type = true := by
  have h : s.Regular := ⟨hg, hhook⟩
  refine ⟨fun m hm f hf p v hv => hm.conforming h f hf p v hv, fun m hm n p v m' hr => ?_,
    fun s' ho base hbase n m hm => ⟨fun test htest alarm t => ?_, ?_⟩⟩
  · have hread := conforming_exec host n s h (.read p)
    exact (hread.attempt m _ m' hr (hm.conforming h)).2 _ rfl v rfl
  · exact supervised_eq htest alarm hbase host n s' (h.opens ho) t m hm
  · intro node hnode d hkind method hmethod args m' hargs
    have hlevel := hbase.levels host n
    exact (hlevel.arguments (h.opens ho) hnode hkind hmethod m _ m' hargs hm).2 args rfl

/-! ## Standard kinds -/

theorem Program.Quiet.unwriting {x : Program α} (h : x.Quiet) : x.Unwriting := by
  induction h with
  | pure a => exact .pure a
  | log _ ih => exact .ask (by simp) fun _ => ih

/-- The standard kinds memoize no values of their own. -/
theorem Definition.Standard.made {d : Definition} (h : d.Standard) : d.Made := by
  obtain ⟨m, hm, hd⟩ := h
  exact .method hd fun body hbody c => (Library.quiet_of_mem hm hbody c).unwriting

/-- A sum of which the first integer is given as a numeral. -/
def numeralSum : Graph Definition :=
  [.addNode (.action Library.integerOperation.kind),
    .setDefault ⟨1⟩ ⟨"values", some 0⟩ (.string "7")].foldl Edit.perform (.empty 0 .standard)

theorem reachable_numeralSum : Reachable Definition.Made numeralSum := by
  refine .foldl (fun e he k hk => ?_) (.blank 0 .standard)
  have hstandard : Library.integerOperation.kind.Standard :=
    ⟨Library.integerOperation, by simp [Library.declarations], rfl⟩
  rcases List.mem_pair.1 he with rfl | rfl
  · obtain rfl := Option.some.inj hk
    exact hstandard.made
  · simp [Edit.offers] at hk

def numeralFlow : Setting := .top numeralSum .empty ⟨32, true⟩ .standard

/-- The numeral is read as an integer, and so is the sum that is memoized. -/
theorem type_sound_numeralFlow : ∃ r m, r = .int 7 ∧ r.belongsTo .int = true ∧
    Engine.answer (exec nullHost 5) numeralFlow nullHost (.read ⟨0, 1⟩) ⟨.start .empty, [], ()⟩ =
      some (.ok (.ok r), ⟨.start .empty, [], ()⟩) ∧
    Visited numeralFlow nullHost m ∧ m.memory.scopes.top.get? ⟨0, 3⟩ = some r := by
  have hsound := type_sound (s := numeralFlow) reachable_numeralSum
    ConversionHook.conforming_standard nullHost
  have hfresh : Visited numeralFlow nullHost ⟨.start .empty, [], ()⟩ := .fresh [] ()
  have hread : Engine.answer (exec nullHost 5) numeralFlow nullHost (.read ⟨0, 1⟩)
      ⟨.start .empty, [], ()⟩ = some (.ok (.ok (.int 7)), ⟨.start .empty, [], ()⟩) := rfl
  have hrun : ((Engine.answer (exec nullHost 5) numeralFlow nullHost (.read ⟨0, 3⟩)
      ⟨.start .empty, [], ()⟩).map fun r => r.2.memory.scopes.top.get? ⟨0, 3⟩) =
      some (some (.int 7)) := by
    decide +kernel
  obtain ⟨r, hanswer, hget⟩ := Option.map_eq_some_iff.1 hrun
  have hm : Visited numeralFlow nullHost r.2 := .request 5 (by simp) hanswer hfresh
  exact ⟨.int 7, r.2, rfl, hsound.2.1 _ hfresh 5 _ _ _ hread _ rfl, hread, hm, hget⟩

end EffectGraph
