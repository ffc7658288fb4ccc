import EffectGraph.Proofs.Memo

/-!
# Values belong to the types of their ports

Values of any kind come into a flow: through constants and defaults, as results of bodies, packed
into arrays, from flows over inner graphs. All of them are converted before they are memoized or
handed on, and a conversion ends in a value of the target type if the direct conversions of the hook
do (`Value.convert_belongsTo`). So what is memoized belongs to the type of its port, in flows over
inner graphs too, unless a host or a body memoizes values of its own (`Engine.Conforming.levels`).
-/

namespace EffectGraph

open EffectGraph.Graph

/-! ## Conversion -/

/-- The direct conversions end in values of the types asked for. -/
def ConversionHook.Conforming (hook : ConversionHook) : Prop :=
  ∀ v t w, hook.convert? v t = some w → w.belongsTo t = true

/-- The standard conversions end in values of the types asked for. -/
theorem ConversionHook.conforming_standard : ConversionHook.standard.Conforming := by
  intro v t w h
  have h : standardValue? v t = some w := h
  unfold standardValue? at h
  split at h <;> simp only [Option.map_eq_some_iff, Option.some.injEq, reduceCtorEq] at h
  case h_5 | h_6 =>
    obtain ⟨_, -, rfl⟩ := h
    rfl
  all_goals
    subst h
    rfl

/-- Without direct conversions there is nothing to ask. -/
theorem ConversionHook.conforming_structural : ConversionHook.structural.Conforming :=
  fun _ _ _ h => nomatch h

namespace Value

variable {hook : ConversionHook}

theorem belongsTo_of_convertDirectly? (hhook : hook.Conforming) {t : ValueType} {v w : Value}
    (h : v.convertDirectly? hook t = some w) : w.belongsTo t = true := by
  unfold convertDirectly? at h
  split at h
  next hv =>
    obtain rfl := Option.some.inj h
    exact hv
  next => exact hhook v t w h

/-- What a value is converted to directly, or else in some other way that leads into the type. -/
theorem belongsTo_getD (hhook : hook.Conforming) {t : ValueType} {v w : Value}
    (h : w.belongsTo t = true) :
    ((v.convertDirectly? hook t).getD w).belongsTo t = true := by
  cases hd : v.convertDirectly? hook t with
  | none => exact h
  | some u => exact belongsTo_of_convertDirectly? hhook hd

mutual

theorem convertScalar_belongsTo (hhook : hook.Conforming) (t : ValueType) :
    ∀ v : Value, (convertScalar hook t v).belongsTo t = true
  | .array items => by
    rw [convertScalar]
    exact belongsTo_getD hhook (convertFirst_belongsTo hhook t items)
  | .null | .bool _ | .int _ | .float _ | .string _
  | .card _ | .buff _ | .player _ | .foreign _ => by
    rw [convertScalar]
    · exact belongsTo_getD hhook t.default_belongsTo
    · simp

theorem convertFirst_belongsTo (hhook : hook.Conforming) (t : ValueType) :
    ∀ items : List Value, (convertFirst hook t items).belongsTo t = true
  | [] => by
    rw [convertFirst]
    exact t.default_belongsTo
  | first :: _ => by
    rw [convertFirst]
    exact convertScalar_belongsTo hhook t first

end

/-- A conversion ends in a value of the target type. -/
theorem convert_belongsTo (hhook : hook.Conforming) (t : ValueType) (v : Value) :
    (v.convert hook t).belongsTo t = true := by
  induction t generalizing v with
  | array e ih =>
    cases v with
    | array items =>
      rw [convert]
      refine belongsTo_getD hhook ?_
      rw [belongsTo, List.all_eq_true]
      intro w hw
      obtain ⟨u, -, rfl⟩ := List.mem_map.1 hw
      exact ih u
    | null =>
      rw [convert]
      exact belongsTo_getD hhook (by simp [belongsTo])
    | _ =>
      rw [convert]
      · exact belongsTo_getD hhook (by simp [belongsTo, ih])
      all_goals simp
  | _ =>
    rw [convert]
    · exact convertScalar_belongsTo hhook _ v
    · simp

end Value

/-! ## Kinds and graphs -/

/-- A program that does not memoize values of its own. -/
inductive Program.Unwriting {α : Type} : Program α → Prop
  | pure (a : α) : Unwriting (.pure a)
  | ask {q : Request} {next : q.Answer → Program α} (hq : ∀ p v, q ≠ .write p v)
    (hnext : ∀ a, Unwriting (next a)) : Unwriting (.ask q next)

/-- The definitions that can be had with bodies that do not memoize values of their own, inside
generated kinds as well. -/
inductive Definition.Made : Definition → Prop
  | method {m : MethodDecl} {d : Definition} (h : m.define = .ok d)
    (hbody : ∀ body, m.body = some body → ∀ c, (body c).Unwriting) : Made d
  | generated {s : Signature} {g : Graph Definition} {d : Definition}
    (h : Definition.generated s g = .ok d) (hg : Reachable Made g) : Made d
  | obsoleteNames {d : Definition} (names : List String) (h : Made d) :
    Made (d.withObsoleteNames names)
  | obsoleteMessage {d : Definition} (message : Option String) (h : Made d) :
    Made (d.withObsoleteMessage message)

/-- What is known of the behaviour of a definition. -/
def Definition.Behaves (d : Definition) : Prop :=
  match d.behaviour with
  | .method m => ∃ decl d', MethodDecl.define decl = .ok d' ∧ d'.signature = d.signature ∧
      d'.behaviour = .method m ∧ ∀ c, (m.body c).Unwriting
  | .generated inner => Reachable Definition.Made inner

theorem Definition.Made.behaves : ∀ {d : Definition}, d.Made → d.Behaves
  | d, .method h hbody => by
    obtain ⟨body, hsome, -, hd⟩ := define_eq_ok.1 h
    subst hd
    exact ⟨_, _, h, rfl, rfl, hbody body hsome⟩
  | _, .generated (s := s) (g := g) h hg => by
    obtain ⟨inner, hinner, rfl, -⟩ := generated_eq_ok h
    exact (hg.setSignature hinner :)
  | _, .obsoleteNames _ h => (Made.behaves h :)
  | _, .obsoleteMessage _ h => (Made.behaves h :)

/-! ## Flows -/

/-- The value belongs to the type of the port, if the id denotes one. -/
def Graph.Conforms (g : Graph Definition) (p : PortId) (v : Value) : Prop :=
  ∀ port, g.port? p = some port → v.belongsTo port.port.decl.type = true

/-- A flow over a graph of kinds that can be had, under a hook whose direct conversions conform. -/
structure Setting.Regular (s : Setting) : Prop where
  reachable : Reachable Definition.Made s.graph
  hook : s.hook.Conforming

variable {σ : Type} {s : Setting}

theorem Setting.Regular.made (h : s.Regular) {node : Node Definition} (hnode : node ∈ s.graph.nodes)
    {d : Definition} (hkind : node.kind = .action d) : d.Made :=
  (h.reachable.invariant.2 node hnode).1 d hkind

theorem Setting.Regular.child (h : s.Regular) {inner : Graph Definition}
    (hinner : Reachable Definition.Made inner) (n : NodeId) : (s.child inner n).Regular :=
  ⟨hinner, h.hook⟩

/-- All memoized values belong to the types of their ports. -/
abbrev ConformingScopes (g : Graph Definition) : Scopes → Prop := ScopesHold g.Conforms

theorem conforms_coerce (h : s.hook.Conforming) {g : Graph Definition} {p : PortId}
    {port : PlacedPort}
    (hport : g.port? p = some port) (v : Value) : g.Conforms p (s.coerce port v) := by
  intro port' hport'
  obtain rfl := Option.some.inj (hport.symm.trans hport')
  exact Value.convert_belongsTo h _ v

theorem discipline_conforming (hg : s.graph.Valid []) (hhook : s.hook.Conforming) :
    Discipline s (ConformingScopes s.graph) s.graph.Conforms where
  found hI hv := hI.find? hv
  kept hI hv _ := hI.set hv
  pulled hport _ _ _ := conforms_coerce hhook hport _
  unconnected hport _ _ := conforms_coerce hhook hport _
  entry {_ node q} _ hnode _ hq _ _ := by
    have hmem := output_mem_allPorts hnode hq
    intro port hport
    obtain rfl := Option.some.inj ((hg.wellFormed.port?_portId hmem).symm.trans hport)
    exact q.decl.type.default_belongsTo

theorem Setting.Regular.discipline (h : s.Regular) :
    Discipline s (ConformingScopes s.graph) s.graph.Conforms :=
  discipline_conforming h.reachable.valid h.hook

namespace Engine

/-! ### Runs that keep a property -/

theorem entryPort_eq_ok {inner : Graph Definition} {entry : NodeId} {name : String}
    {r : PortId × PlacedPort} : entryPort inner entry name = .ok r ↔
      inner.output? entry name = some r.1 ∧ inner.port? r.1 = some r.2 := by
  simp only [entryPort, bind_eq_ok, getOutput_eq_ok, getPort_eq_ok, Except.ok.injEq]
  constructor
  · rintro ⟨p, hp, port, hport, rfl⟩
    exact ⟨hp, hport⟩
  · rintro ⟨hp, hport⟩
    exact ⟨r.1, hp, r.2, hport, rfl⟩

section Keeping

variable {engine : Engine σ} {I : Scopes → Prop} {P : PortId → Value → Prop}
  (he : ∀ t, Upholds I (engine s t) (t.Meets P))

include he in
/-- A program that memoizes no values of its own keeps what tasks keep. -/
theorem upholds_unwriting (hpush : ∀ scopes, I scopes → I scopes.push)
    (hpop : ∀ scopes, I scopes → I scopes.pop.1) (host : Host σ) {α : Type} {x : Program α}
    (hx : x.Unwriting) :
    Upholds I (engine.runProgram s host x) fun _ => True := by
  induction hx with
  | pure a => exact .pure trivial
  | ask hq _ ih => exact Upholds.bind (upholds_answer he hpush hpop host hq) fun a _ => ih a

/-- What is bound to an output of Entry of an inner graph has a property there, whatever it is. -/
def Supplies (s : Setting) (inner : Graph Definition) (entry : NodeId) (F : PortId → Value → Prop) :
    Prop :=
  ∀ name r v, entryPort inner entry name = .ok r → F r.1 (s.coerce r.2 v)

variable {inner : Graph Definition} {entry : NodeId} {F : PortId → Value → Prop}

theorem Supplies.insert (hF : Supplies s inner entry F) {f : Frame}
    (hf : ∀ p v, f.get? p = some v → F p v) {name : String} {r : PortId × PlacedPort}
    (hr : entryPort inner entry name = .ok r) (v : Value) :
    ∀ q w, (f.insert r.1 (s.coerce r.2 v)).get? q = some w → F q w := by
  intro q w hw
  rw [Table.get?_insert] at hw
  split at hw
  next hq =>
    obtain rfl := Option.some.inj hw
    exact hq ▸ hF name r v hr
  next => exact hf q w hw

include he in
theorem upholds_bindInputs (hF : Supplies s inner entry F) (n : NodeId) (ds : List PortDecl)
    {f : Frame} (hf : ∀ p v, f.get? p = some v → F p v) :
    Upholds I (engine.bindInputs s n inner entry ds f) fun f =>
      ∀ p v, f.get? p = some v → F p v := by
  induction ds generalizing f with
  | nil => exact .pure hf
  | cons d ds ih =>
    refine Upholds.bind (upholds_argument he n d) fun v _ => ?_
    exact Upholds.bind (.ofGraph fun _ hr => hr) fun r hr => ih (hF.insert hf hr v)

theorem Supplies.bindConsts (hF : Supplies s inner entry F) (node : Node Definition)
    (ds : List PortDecl) {f f' : Frame} (hf : ∀ p v, f.get? p = some v → F p v)
    (hb : Engine.bindConsts s node inner entry ds f = .ok f') :
    ∀ p v, f'.get? p = some v → F p v := by
  induction ds generalizing f with
  | nil =>
    obtain rfl := Except.ok.inj hb
    exact hf
  | cons d ds ih =>
    obtain ⟨r, hr, hrest⟩ := bind_eq_ok.1 hb
    exact ih (hF.insert hf hr _) hrest

variable (hD : Discipline s I P) (hpublish : ∀ n name p port v, s.graph.output? n name = some p →
    s.graph.port? p = some port → P p (s.coerce port v))
  {J : Scopes → Prop} {R : PortId → Value → Prop}

include hD hpublish

theorem upholds_deliver {child : Setting} (hchild : ∀ t, Upholds J (engine child t) (t.Meets R))
    (n result : NodeId) (ds : List PortDecl) {memory : Memory} (hmemory : J memory.scopes) :
    Upholds I (engine.deliver s child n result ds memory) fun _ => True := by
  induction ds generalizing memory with
  | nil => exact .pure trivial
  | cons d ds ih =>
    refine Upholds.bind (.ofGraph (Q := fun _ => True) fun _ _ => trivial) fun p _ => ?_
    refine Upholds.bind (.within hmemory (hchild (.read p))) fun r hr => ?_
    refine Upholds.bind (upholds_publish hD fun q port hq hport => ?_) fun _ _ => ih hr.2
    exact hpublish n d.name q port r.1 hq hport

include he in
/-- A generated node keeps the property of its own flow while the flow it opens keeps one that holds
of what is bound for it. -/
theorem upholds_invokeGenerated (node : Node Definition) (d : Definition) {inner : Graph Definition}
    {F : PortId → Value → Prop} (hF : ∀ entry, Supplies s inner entry F)
    (hstart : ∀ f : Frame, (∀ p v, f.get? p = some v → F p v) → J (.base f))
    (hchild : ∀ t, Upholds J (engine (s.child inner node.id) t) (t.Meets R)) :
    Upholds I (engine.invokeGenerated s node d inner) fun _ => True := by
  unfold invokeGenerated
  split
  · exact .fail
  · split
    · exact .fail
    · exact .fail
    next entry result _ _ =>
      have hempty : ∀ p v, (Table.empty : Frame).get? p = some v → F p v :=
        fun p v hv => by simp at hv
      refine Upholds.bind (upholds_bindInputs he (hF entry) node.id _ hempty)
        fun inputs hinputs => ?_
      refine Upholds.bind (.ofGraph fun frame hframe =>
        (hF entry).bindConsts node _ hinputs hframe) fun frame hframe => ?_
      refine Upholds.bind (upholds_followEntry hchild entry (hstart _ hframe))
        fun memory hmemory => ?_
      exact Upholds.bind (upholds_deliver hD hpublish hchild node.id result _ hmemory)
        fun _ _ => .pure trivial

end Keeping

/-! ### Runs that conform -/

theorem supplies_conforms (h : s.hook.Conforming) (inner : Graph Definition) (entry : NodeId) :
    Supplies s inner entry inner.Conforms :=
  fun _ _ v hr => conforms_coerce h (entryPort_eq_ok.1 hr).2 v

variable {engine : Engine σ}
  (he : ∀ s : Setting, s.Regular → ∀ t,
    Upholds (ConformingScopes s.graph) (engine s t) (t.Meets s.graph.Conforms))

include he

theorem conforming_runProgram (h : s.Regular) (host : Host σ) {α : Type} {x : Program α}
    (hx : x.Unwriting) :
    Upholds (ConformingScopes s.graph) (engine.runProgram s host x) fun _ => True :=
  upholds_unwriting (he s h) (fun _ h => h.push) (fun _ h => h.pop) host hx

theorem conforming_invokeMethod (h : s.Regular) (host : Host σ) (node : Node Definition)
    (define : String) {m : Method} (hbody : ∀ c, (m.body c).Unwriting) :
    Upholds (ConformingScopes s.graph) (engine.invokeMethod s host node define m)
      fun _ => True := by
  refine upholds_invokeMethod h.discipline (he s h) fun args _ => ?_
  refine (conforming_runProgram he h host (hbody _)).mono fun r _ o _ e _ p port _ hport => ?_
  exact conforms_coerce h.hook hport e.2

theorem conforming_bindInputs (h : s.Regular) (n : NodeId) {inner : Graph Definition}
    {entry : NodeId} (ds : List PortDecl) {f : Frame}
    (hf : ∀ p v, f.get? p = some v → inner.Conforms p v) :
    Upholds (ConformingScopes s.graph) (engine.bindInputs s n inner entry ds f) fun f =>
      ∀ p v, f.get? p = some v → inner.Conforms p v :=
  upholds_bindInputs (he s h) (supplies_conforms h.hook inner entry) n ds hf

theorem conforming_deliver (h : s.Regular) {child : Setting} (hchild : child.Regular)
    (n result : NodeId) (ds : List PortDecl) {memory : Memory}
    (hmemory : ConformingScopes child.graph memory.scopes) :
    Upholds (ConformingScopes s.graph) (engine.deliver s child n result ds memory)
      fun _ => True :=
  upholds_deliver h.discipline (fun _ _ _ _ v _ hport => conforms_coerce h.hook hport v)
    (he child hchild) n result ds hmemory

theorem conforming_invokeGenerated (h : s.Regular) (node : Node Definition) (d : Definition)
    {inner : Graph Definition} (hinner : Reachable Definition.Made inner) :
    Upholds (ConformingScopes s.graph) (engine.invokeGenerated s node d inner) fun _ => True :=
  upholds_invokeGenerated (he s h) h.discipline
    (fun _ _ _ _ v _ hport => conforms_coerce h.hook hport v) node d
    (supplies_conforms h.hook inner) (fun _ hf => .base hf) (he _ (h.child hinner node.id))

/-! ### Tasks -/

theorem conforming_step (host : Host σ) (h : s.Regular) (t : Task) :
    Upholds (ConformingScopes s.graph) (Engine.step engine host s t)
      (t.Meets s.graph.Conforms) := by
  have hD := h.discipline
  cases t with
  | read p => exact upholds_read hD (he s h) p
  | follow p => exact upholds_follow (he s h) p
  | invoke n =>
    refine upholds_invoke hD n fun node d hnode hkind => ?_
    have hbehaves := (h.made (node?_mem hnode).1 hkind).behaves
    unfold Definition.Behaves at hbehaves
    split
    next m hm =>
      rw [hm] at hbehaves
      obtain ⟨decl, d', -, -, -, hbody⟩ := hbehaves
      exact conforming_invokeMethod he h host node d.name hbody
    next inner hinner =>
      rw [hinner] at hbehaves
      exact conforming_invokeGenerated he h node d hbehaves

end Engine

/-- The interpreter with its deepest tasks carried out by a given engine. -/
def levels (base : Engine σ) (host : Host σ) : Nat → Engine σ
  | 0 => base
  | n + 1 => Engine.step (levels base host n) host

theorem exec_eq_levels (host : Host σ) (n : Nat) :
    exec host n = levels (fun _ _ => .exhausted) host n := by
  induction n with
  | zero => rfl
  | succ n ih =>
    show Engine.step (exec host n) host = _
    rw [ih]
    rfl

/-- An engine that memoizes conforming values only and has conforming values read. -/
def Engine.Conforming (engine : Engine σ) : Prop := ∀ s : Setting, s.Regular → ∀ t,
  Upholds (ConformingScopes s.graph) (engine s t) (t.Meets s.graph.Conforms)

/-- What the deepest tasks keep is kept at every level and in every flow. -/
theorem Engine.Conforming.levels {base : Engine σ} (hbase : base.Conforming) (host : Host σ)
    (n : Nat) : (levels base host n).Conforming := by
  induction n with
  | zero => exact hbase
  | succ n ih => exact fun s h t => Engine.conforming_step ih host h t

theorem conforming_exec (host : Host σ) (n : Nat) : (exec host n).Conforming := by
  rw [exec_eq_levels]
  exact Engine.Conforming.levels (fun _ _ _ => .exhausted) host n

/-! ## Arguments -/

/-- The value belongs to the type of a declared input; for a variadic group it is an array whose
elements belong to it. -/
def PortDecl.Takes (d : PortDecl) (v : Value) : Prop :=
  if d.isVariadic then ∃ vs, v = .array vs ∧ ∀ w ∈ vs, w.belongsTo d.type = true
  else v.belongsTo d.type = true

theorem exists_of_forall₂_mem {α β : Type} {R : α → β → Prop} {as : List α} {bs : List β}
    (h : List.Forall₂ R as bs) {b : β} (hb : b ∈ bs) : ∃ a ∈ as, R a b := by
  induction h with
  | nil => simp at hb
  | @cons a b' as bs hab _ ih =>
    rcases List.mem_cons.1 hb with rfl | hb
    · exact ⟨a, .head _, hab⟩
    · obtain ⟨c, hc, hcb⟩ := ih hb
      exact ⟨c, .tail _ hc, hcb⟩

theorem Signature.Addressable.decl_inj {s : Signature} (h : s.Addressable) {d d' : PortDecl}
    (hd : d ∈ .control enterName :: s.inputs) (hd' : d' ∈ .control enterName :: s.inputs)
    (hname : d.name = d'.name) : d = d' := by
  have hnames : ((.control enterName :: s.inputs).map PortDecl.name).Nodup := h.inputs
  exact List.inj_on_of_nodup_map hnames hd hd' hname

/-- An input of a node is the control input or one that the kind declares. -/
theorem Graph.Shaped.decl_mem {g : Graph Definition} {node : Node Definition} (h : g.Shaped node)
    {k : Definition} (hkind : node.kind = .action k) {p : Port} (hp : p ∈ node.inputs) :
    p.decl ∈ .control enterName :: k.signature.inputs := by
  obtain ⟨w, hw, -⟩ := h.inputs
  have hspec : p.spec ∈ g.inputShape node w := hw ▸ List.mem_map_of_mem hp
  simp only [inputShape, hkind] at hspec
  rcases List.mem_cons.1 hspec with hs | hs
  · have hdecl : p.decl = .control enterName := congrArg PortSpec.decl hs
    exact hdecl ▸ .head _
  · obtain ⟨d, hd, hs⟩ := List.mem_flatMap.1 hs
    have hdecl : p.decl = d := (mem_slotSpecs hs).1
    exact hdecl ▸ .tail _ hd

theorem Graph.Shaped.decl_eq {g : Graph Definition} {node : Node Definition} (h : g.Shaped node)
    {k : Definition} (hkind : node.kind = .action k) (hk : k.signature.Addressable) {p : Port}
    (hp : p ∈ node.inputs) {d : PortDecl} (hd : d ∈ k.signature.inputs)
    (hname : p.decl.name = d.name) : p.decl = d :=
  hk.decl_inj (h.decl_mem hkind hp) (.tail _ hd) hname

theorem Graph.mem_inputs_of_variadicSlots {g : Graph Definition} {n : NodeId}
    {node : Node Definition} (hn : g.node? n = some node) {name : String} {x : PortId}
    (hx : x ∈ g.variadicSlots n name) :
    ∃ p ∈ node.inputs, p.decl.name = name ∧ x = g.portId p.index := by
  simp only [variadicSlots, hn] at hx
  obtain ⟨p, hp, rfl⟩ := List.mem_map.1 hx
  obtain ⟨hp, htest⟩ := List.mem_filter.1 hp
  exact ⟨p, hp, by simp_all, rfl⟩

theorem Graph.mem_inputs_of_input? {g : Graph Definition} {n : NodeId} {node : Node Definition}
    (hn : g.node? n = some node) {name : String} {slot : Option Nat} {x : PortId}
    (hx : g.input? n name slot = some x) :
    ∃ p ∈ node.inputs, p.decl.name = name ∧ x = g.portId p.index := by
  simp only [input?, hn, Option.bind_some] at hx
  obtain ⟨p, hp, rfl⟩ := Option.map_eq_some_iff.1 hx
  have htest := List.find?_some hp
  exact ⟨p, List.mem_of_find?_eq_some hp, by simp_all, rfl⟩

theorem Setting.Argument.takes (hg : s.graph.Valid []) {node : Node Definition}
    (hnode : node ∈ s.graph.nodes) {k : Definition} (hkind : node.kind = .action k)
    (hk : k.signature.Addressable) {d : PortDecl} (hd : d ∈ k.signature.inputs) {v : Value}
    (hv : s.Argument s.graph.Conforms node.id d v) : d.Takes v := by
  have hfound := node?_of_mem hg.ascending hnode
  -- A port of the node by the name of the input is of the declared type.
  have hport : ∀ p ∈ node.inputs, p.decl.name = d.name → ∀ w,
      s.graph.Conforms (s.graph.portId p.index) w → w.belongsTo d.type = true := by
    intro p hp hname w hw
    have hdecl := (hg.shaped node hnode List.not_mem_nil).decl_eq hkind hk hp hd hname
    have hbelongs := hw _ (hg.wellFormed.port?_portId (input_mem_allPorts hnode hp))
    rwa [hdecl] at hbelongs
  unfold Setting.Argument at hv
  unfold PortDecl.Takes
  split at hv
  next hvariadic =>
    obtain ⟨vs, rfl, hvs⟩ := hv
    rw [if_pos hvariadic]
    refine ⟨vs, rfl, fun w hw => ?_⟩
    obtain ⟨q, hq, hqw⟩ := exists_of_forall₂_mem hvs hw
    obtain ⟨p, hp, hname, rfl⟩ := mem_inputs_of_variadicSlots hfound hq
    exact hport p hp hname w hqw
  next hvariadic =>
    obtain ⟨q, hq, hqv⟩ := hv
    rw [if_neg hvariadic]
    obtain ⟨p, hp, hname, rfl⟩ := mem_inputs_of_input? hfound hq
    exact hport p hp hname v hqv

/-- The value may be the argument for a parameter of a node. Outputs have no arguments. -/
def Setting.Binds (s : Setting) (P : PortId → Value → Prop) (node : Node Definition) :
    MethodParam → Value → Prop
  | .input d, v => s.Argument P node.id d v
  | .const d, v => v = (Engine.constant node d.name).convert s.hook d.type
  | .ambient _ context, v => v = s.environment.resolve context
  | .out _, _ | .branch _, _ => False

section Arguments

variable {P : PortId → Value → Prop} {node : Node Definition} {p : MethodParam}
  {ps : List MethodParam} {args out : Table String Value}

/-- The arguments begin with that of the first parameter, under its name. -/
theorem Setting.Arguments.step (h : s.Arguments P node (p :: ps) args out) :
    ∃ args', s.Arguments P node ps args' out ∧
      (∀ name, name ≠ p.name → args'.get? name = args.get? name) ∧
      (p.output? = none → ∃ v, args'.get? p.name = some v ∧ s.Binds P node p v) := by
  have hother : ∀ (n : String) (v : Value) (name : String), name ≠ n →
      (args.insert n v).get? name = args.get? name := fun n v name hne => by simp [hne]
  have hself : ∀ (n : String) (v : Value), (args.insert n v).get? n = some v := by simp
  cases p with
  | input d =>
    obtain ⟨v, hv, hrest⟩ := h
    exact ⟨_, hrest, hother d.name v, fun _ => ⟨v, hself _ v, hv⟩⟩
  | const d => exact ⟨_, h, hother d.name _, fun _ => ⟨_, hself _ _, rfl⟩⟩
  | ambient name context => exact ⟨_, h, hother name _, fun _ => ⟨_, hself _ _, rfl⟩⟩
  | out d => exact ⟨_, h, fun _ _ => rfl, fun hd => by simp [MethodParam.output?] at hd⟩
  | branch d => exact ⟨_, h, fun _ _ => rfl, fun hd => by simp [MethodParam.output?] at hd⟩

theorem Setting.Arguments.get?_of_not_mem (h : s.Arguments P node ps args out) {name : String}
    (hname : name ∉ ps.map (·.name)) : out.get? name = args.get? name := by
  induction ps generalizing args with
  | nil =>
    obtain rfl := h
    rfl
  | cons p ps ih =>
    obtain ⟨hne, hname⟩ := not_or.1 (mt List.mem_cons.2 hname)
    obtain ⟨args', hrest, hother, -⟩ := h.step
    exact (ih hrest hname).trans (hother name hne)

/-- Parameters of different names have their arguments under their names. -/
theorem Setting.Arguments.get?_of_mem (h : s.Arguments P node ps args out)
    (hnames : (ps.map (·.name)).Nodup) (hp : p ∈ ps) (houtput : p.output? = none) :
    ∃ v, out.get? p.name = some v ∧ s.Binds P node p v := by
  induction ps generalizing args with
  | nil => simp at hp
  | cons q qs ih =>
    obtain ⟨hhead, htail⟩ := List.nodup_cons.1 (List.map_cons ▸ hnames)
    obtain ⟨args', hrest, -, hbound⟩ := h.step
    rcases List.mem_cons.1 hp with rfl | hp
    · -- The other parameters leave the entry of this one alone.
      obtain ⟨v, hget, hv⟩ := hbound houtput
      exact ⟨v, (hrest.get?_of_not_mem hhead).trans hget, hv⟩
    · exact ih hrest htail hp

end Arguments

end EffectGraph
