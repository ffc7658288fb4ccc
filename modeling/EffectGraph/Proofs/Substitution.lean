import EffectGraph.Proofs.Memo
import EffectGraph.Proofs.Ownership

/-!
# A generated kind means its inner graph

A node of a generated kind runs the inner graph in a flow of its own, in the memory of which its
arguments stand for the outputs of Entry. Over an inner graph of standard kinds this flow memoizes
plain values only, with the arguments given for the outputs of Entry, so that each output of the
node has the plain value of an input of Return (`invoke_generated`): the memory of the outer flow
enters through the arguments alone.
-/

namespace EffectGraph

open EffectGraph.Graph

variable {σ α β : Type}

/-! ## Steps that succeed -/

namespace Exec

variable {m m' : Machine σ}

theorem bind_eq_ok {x : Exec σ α} {f : α → Exec σ β} {b : β} :
    (x >>= f) m = some (.ok b, m') ↔
      ∃ a m₁, x m = some (.ok a, m₁) ∧ f a m₁ = some (.ok b, m') := by
  show Exec.bind x f m = _ ↔ _
  unfold Exec.bind
  split
  next h => simp [h]
  next h => simp [h]
  next a m₁ h => simp [h]

theorem pure_eq_ok {a b : α} :
    (Pure.pure a : Exec σ α) m = some (.ok b, m') ↔ a = b ∧ m = m' := by
  show some (Except.ok a, m) = _ ↔ _
  simp

theorem ofGraph_eq_ok {r : Except GraphError α} {a : α} :
    ofGraph r m = some (.ok a, m') ↔ r = .ok a ∧ m = m' := by
  cases r <;> simp [ofGraph, ofExcept, Except.mapError]

theorem within_eq_ok {memory : Memory} {x : Exec σ α} {r : α × Memory} :
    within memory x m = some (.ok r, m') ↔
      ∃ m₁, x { m with memory := memory } = some (.ok r.1, m₁) ∧ m₁.memory = r.2 ∧
        { m₁ with memory := m.memory } = m' := by
  unfold within
  split
  next h => simp [h]
  next h => simp [h]
  next a m₁ h =>
    simp only [h, Option.some.injEq, Prod.mk.injEq, Except.ok.injEq]
    constructor
    · rintro ⟨rfl, rfl⟩
      exact ⟨m₁, ⟨rfl, rfl⟩, rfl, rfl⟩
    · rintro ⟨m₂, ⟨hr, rfl⟩, hmem, rfl⟩
      exact ⟨Prod.ext hr hmem, rfl⟩

/-- A step with a node noted as running is the step itself, but for the note. -/
theorem running_eq {n : NodeId} {x : Exec σ α} :
    running n x m =
      (x ⟨⟨m.memory.scopes, n :: m.memory.running⟩, m.log, m.host⟩).map fun r =>
        (r.1, ⟨⟨r.2.memory.scopes, r.2.memory.running.tail⟩, r.2.log, r.2.host⟩) := by
  unfold running
  show Exec.bind _ _ m = _
  simp only [Exec.bind, modifyMemory]
  show Exec.bind _ _ _ = _
  simp only [Exec.bind, attempt]
  cases x ⟨⟨m.memory.scopes, n :: m.memory.running⟩, m.log, m.host⟩ <;> rfl

theorem running_eq_ok {n : NodeId} {x : Exec σ α} {a : α} :
    running n x m = some (.ok a, m') ↔
      ∃ m₁, x ⟨⟨m.memory.scopes, n :: m.memory.running⟩, m.log, m.host⟩ = some (.ok a, m₁) ∧
        ⟨⟨m₁.memory.scopes, m₁.memory.running.tail⟩, m₁.log, m₁.host⟩ = m' := by
  rw [running_eq]
  cases x ⟨⟨m.memory.scopes, n :: m.memory.running⟩, m.log, m.host⟩ with
  | none => simp
  | some r =>
    obtain ⟨r, m₁⟩ := r
    simp [and_assoc]

end Exec

/-! ## The outputs of Entry -/

/-- The ports of a signature are values, no name is that of an implied control port, and the outputs
have different names. -/
structure Signature.Plain (s : Signature) : Prop where
  values : ∀ d ∈ s.inputs ++ s.consts ++ s.outputs,
    d.isControl = false ∧ d.name ≠ enterName ∧ d.name ≠ exitName
  distinct : (s.outputs.map (·.name)).Nodup

/-- The inner graph of a generated kind, with the Entry node that stands for its inputs and
constants. -/
structure Inner (d : Signature) (inner : Graph Definition) (e : Node Definition) : Prop where
  valid : inner.Valid []
  signature : inner.signature = some d
  entry_mem : e ∈ inner.nodes
  entry_kind : e.kind = .entry
  plain : d.Plain
  names : ((d.inputs ++ d.consts).map (·.name)).Nodup

@[simp] theorem PortDecl.packed_name (d : PortDecl) : d.packed.name = d.name := by
  unfold packed
  split <;> rfl

@[simp] theorem PortDecl.packed_isControl (d : PortDecl) : d.packed.isControl = d.isControl := by
  unfold packed
  split <;> rfl

namespace Inner

variable {d : Signature} {inner : Graph Definition} {e : Node Definition}

theorem outputs (h : Inner d inner e) :
    e.outputs.map (·.decl) = .control exitName :: (d.inputs.map (·.packed) ++ d.consts) := by
  have hspecs := (h.valid.shaped e h.entry_mem List.not_mem_nil).outputs
  simp only [wantedOutputs, h.entry_kind, h.signature, Option.elim_some] at hspecs
  have hdecls := congrArg (List.map PortSpec.decl) hspecs
  simpa [Function.comp_def, PortSpec.control, PortSpec.single, Port.spec] using hdecls

theorem output_inj (h : Inner d inner e) {q q' : Port} (hq : q ∈ e.outputs) (hq' : q' ∈ e.outputs)
    (hname : q.decl.name = q'.decl.name) : q = q' := by
  have hnames : (e.outputs.map (·.decl.name)).Nodup := by
    have hmap : e.outputs.map (·.decl.name) =
        exitName :: (d.inputs ++ d.consts).map (·.name) := by
      have := congrArg (List.map PortDecl.name) h.outputs
      simpa [Function.comp_def, PortDecl.control] using this
    rw [hmap, List.nodup_cons]
    refine ⟨fun hexit => ?_, h.names⟩
    obtain ⟨c, hc, hcn⟩ := List.mem_map.1 hexit
    exact (h.plain.values c (List.mem_append_left _ hc)).2.2 hcn
  exact List.inj_on_of_nodup_map hnames hq hq' hname

/-- An output of Entry that is not its exit stands for an input or a constant. -/
theorem decl_of_output (h : Inner d inner e) {q : Port} (hq : q ∈ e.outputs)
    (hname : q.decl.name ≠ exitName) :
    q.decl.isControl = false ∧ q.decl ∈ d.inputs.map (·.packed) ++ d.consts := by
  have hmem : q.decl ∈ e.outputs.map (·.decl) := List.mem_map_of_mem hq
  rw [h.outputs] at hmem
  rcases List.mem_cons.1 hmem with hdecl | hmem
  · exact absurd (congrArg PortDecl.name hdecl) hname
  · refine ⟨?_, hmem⟩
    rcases List.mem_append.1 hmem with hi | hc
    · obtain ⟨c, hc, hcd⟩ := List.mem_map.1 hi
      rw [← hcd, PortDecl.packed_isControl]
      exact (h.plain.values c (by simp [hc])).1
    · exact (h.plain.values _ (by simp [hc])).1

theorem entryPort_eq_ok (h : Inner d inner e) {name : String} (hname : name ≠ exitName)
    {r : PortId × PlacedPort} (hr : Engine.entryPort inner e.id name = .ok r) :
    ∃ q ∈ e.outputs, q.decl.name = name ∧ q.decl.isControl = false ∧
      r = (inner.portId q.index, ⟨e.id, .output, q⟩) := by
  simp only [Engine.entryPort, bind_eq_ok, getOutput_eq_ok, getPort_eq_ok, Except.ok.injEq] at hr
  obtain ⟨p, hp, port, hport, rfl⟩ := hr
  simp only [output?, node?_of_mem h.valid.ascending h.entry_mem, Option.bind_some] at hp
  obtain ⟨q, hq, rfl⟩ := Option.map_eq_some_iff.1 hp
  have hmem := List.mem_of_find?_eq_some hq
  have hqname : q.decl.name = name := by simpa using List.find?_some hq
  have hplaced := h.valid.wellFormed.port?_portId (output_mem_allPorts h.entry_mem hmem)
  obtain rfl := Option.some.inj (hport.symm.trans hplaced)
  exact ⟨q, hmem, hqname, (h.decl_of_output hmem (hqname ▸ hname)).1, rfl⟩

/-! ## Bindings -/

variable {s : Setting}

theorem givenAt_portId (h : Inner d inner e) (hs : s.graph = inner) {q : Port} (hq : q ∈ e.outputs)
    (hvalue : q.decl.isControl = false) (t : Table String Value) :
    s.givenAt t (inner.portId q.index) =
      (t.get? q.decl.name).map (s.coerce ⟨e.id, .output, q⟩) := by
  have hport := h.valid.wellFormed.port?_portId (output_mem_allPorts h.entry_mem hq)
  have hnode := node?_of_mem h.valid.ascending h.entry_mem
  subst hs
  simp [Setting.givenAt, hport, hnode, h.entry_kind, PlacedPort.role, hvalue, PortRole.of]

/-- A value given under another name changes what is given at one port alone. -/
theorem givenAt_insert (h : Inner d inner e) (hs : s.graph = inner) {q : Port} (hq : q ∈ e.outputs)
    (hvalue : q.decl.isControl = false) (t : Table String Value) (v : Value) (p : PortId) :
    s.givenAt (t.insert q.decl.name v) p =
      if p = inner.portId q.index then some (s.coerce ⟨e.id, .output, q⟩ v)
      else s.givenAt t p := by
  split
  next hp =>
    rw [hp, h.givenAt_portId hs hq hvalue]
    simp
  next hp =>
    -- Another port that something can be given for has another name.
    have hother : ∀ port node, s.graph.port? p = some port → s.graph.node? port.node = some node →
        node.kind = .entry → port.role = .valueOutput → port.port.decl.name ≠ q.decl.name := by
      intro port node hport hnode hkind hrole hname
      subst hs
      obtain ⟨hid, k, hk, hside⟩ := h.valid.wellFormed.toConsistent.listed p port hport
      obtain rfl := Option.some.inj (hnode.symm.trans hk)
      obtain rfl := h.valid.loneEntry _ (node?_mem hnode).1 _ h.entry_mem hkind h.entry_kind
      rcases hside with ⟨hdir, -⟩ | ⟨-, hmem⟩
      · cases hc : port.port.decl.isControl <;>
          simp [PlacedPort.role, hdir, hc, PortRole.of] at hrole
      · exact hp (h.output_inj hmem hq hname ▸ hid)
    refine Option.ext fun w => ?_
    simp only [Setting.givenAt_eq_some]
    constructor
    · rintro ⟨port, node, u, hport, hnode, hkind, hrole, hu, hw⟩
      rw [Table.get?_insert, if_neg (hother port node hport hnode hkind hrole)] at hu
      exact ⟨port, node, u, hport, hnode, hkind, hrole, hu, hw⟩
    · rintro ⟨port, node, u, hport, hnode, hkind, hrole, hu, hw⟩
      refine ⟨port, node, u, hport, hnode, hkind, hrole, ?_, hw⟩
      rw [Table.get?_insert, if_neg (hother port node hport hnode hkind hrole)]
      exact hu

/-- A frame holds what is given for the outputs of Entry. -/
def Binds (s : Setting) (t : Table String Value) (f : Frame) : Prop :=
  ∀ p, f.get? p = s.givenAt t p

theorem binds_empty : Binds s .empty .empty := fun p => (Setting.givenAt_empty p).symm

theorem binds_insert (h : Inner d inner e) (hs : s.graph = inner) {t : Table String Value}
    {f : Frame} (hf : Binds s t f) {q : Port} (hq : q ∈ e.outputs)
    (hvalue : q.decl.isControl = false) {v w : Value}
    (hv : s.coerce ⟨e.id, .output, q⟩ w = s.coerce ⟨e.id, .output, q⟩ v) :
    Binds s (t.insert q.decl.name v)
      (f.insert (inner.portId q.index) (s.coerce ⟨e.id, .output, q⟩ w)) := by
  intro p
  rw [Table.get?_insert, h.givenAt_insert hs hq hvalue, hv, hf p]

end Inner

/-- The arguments of a node of a generated kind with its constants, those that are not set in some
given stead. -/
def substitution (node : Node Definition) (unset : PortDecl → Value) :
    List PortDecl → Table String Value → Table String Value
  | [], t => t
  | d :: ds, t =>
    substitution node unset ds (t.insert d.name ((node.consts.get? d.name).getD (unset d)))

namespace Engine

variable {engine : Engine σ} {s child : Setting} {d : Signature} {inner : Graph Definition}
  {e node : Node Definition} {m m' : Machine σ}

/-- The inputs of a generated node are pulled like the inputs of a method. -/
theorem bindInputs_eq_ok (h : Inner d inner e) {ds : List PortDecl}
    (hds : ∀ c ∈ ds, c.name ≠ exitName) {t : Table String Value} {f f' : Frame}
    (hf : Inner.Binds (s.child inner node.id) t f)
    (hb : engine.bindInputs s node.id inner e.id ds f m = some (.ok f', m')) :
    ∃ t', engine.bindParams s node (ds.map .input) t m = some (.ok t', m') ∧
      Inner.Binds (s.child inner node.id) t' f' := by
  induction ds generalizing t f m with
  | nil =>
    obtain ⟨rfl, rfl⟩ := Exec.pure_eq_ok.1 hb
    exact ⟨t, Exec.pure_eq_ok.2 ⟨rfl, rfl⟩, hf⟩
  | cons c ds ih =>
    obtain ⟨v, m₁, hv, hb⟩ := Exec.bind_eq_ok.1 hb
    obtain ⟨r, m₂, hr, hb⟩ := Exec.bind_eq_ok.1 hb
    obtain ⟨hentry, rfl⟩ := Exec.ofGraph_eq_ok.1 hr
    obtain ⟨q, hq, hname, hvalue, rfl⟩ := h.entryPort_eq_ok (hds c (.head _)) hentry
    have hbinds := h.binds_insert rfl hf hq hvalue (v := v) (w := v) rfl
    rw [hname] at hbinds
    obtain ⟨t', ht', hbinds'⟩ := ih (fun c hc => hds c (.tail _ hc)) hbinds hb
    exact ⟨t', Exec.bind_eq_ok.2 ⟨v, m₁, hv, ht'⟩, hbinds'⟩

/-- The constants of a generated node are bound as they are stored. -/
theorem bindConsts_eq_ok (h : Inner d inner e) {unset : PortDecl → Value}
    (hunset : ∀ c ∈ d.consts, node.consts.get? c.name = none →
      (unset c).convert s.hook c.type = Value.null.convert s.hook c.type)
    {ds : List PortDecl} (hds : ∀ c ∈ ds, c ∈ d.consts) {t : Table String Value} {f f' : Frame}
    (hf : Inner.Binds (s.child inner node.id) t f)
    (hb : bindConsts s node inner e.id ds f = .ok f') :
    Inner.Binds (s.child inner node.id) (substitution node unset ds t) f' := by
  induction ds generalizing t f with
  | nil =>
    obtain rfl := Except.ok.inj hb
    exact hf
  | cons c ds ih =>
    obtain ⟨r, hr, hb⟩ := bind_eq_ok.1 hb
    have hc := hds c (.head _)
    have hexit := (h.plain.values c (by simp [hc])).2.2
    obtain ⟨q, hq, hname, hvalue, rfl⟩ := h.entryPort_eq_ok hexit hr
    have hdecl : q.decl = c := by
      have hmem := (h.decl_of_output hq (hname ▸ hexit)).2
      have hnames : ((d.inputs.map (·.packed) ++ d.consts).map (·.name)).Nodup := by
        simpa [Function.comp_def] using h.names
      exact List.inj_on_of_nodup_map hnames hmem (List.mem_append_right _ hc) hname
    refine ih (fun c hc => hds c (.tail _ hc)) (f := _) ?_ hb
    have hcoerce : s.coerce ⟨e.id, .output, q⟩ (constant node c.name) =
        s.coerce ⟨e.id, .output, q⟩ ((node.consts.get? c.name).getD (unset c)) := by
      simp only [Setting.coerce, hdecl, constant]
      cases hget : node.consts.get? c.name with
      | some v => rfl
      | none => exact (hunset c hc hget).symm
    have hbinds := h.binds_insert rfl hf hq hvalue hcoerce
    rw [hname] at hbinds
    exact hbinds

/-! ## Results -/

theorem publish_eq_ok {n : NodeId} {name : String} {v : Value} :
    publish s n name v m = some (.ok (), m') ↔ ∃ p port, s.graph.output? n name = some p ∧
      s.graph.port? p = some port ∧
      ⟨⟨m.memory.scopes.set p (s.coerce port v), m.memory.running⟩, m.log, m.host⟩ = m' := by
  simp only [publish, Exec.bind_eq_ok, Exec.ofGraph_eq_ok, getOutput_eq_ok, getPort_eq_ok]
  constructor
  · rintro ⟨p, m₁, ⟨hp, rfl⟩, port, m₂, ⟨hport, rfl⟩, hm⟩
    exact ⟨p, port, hp, hport, (Prod.mk.inj (Option.some.inj hm)).2⟩
  · rintro ⟨p, port, hp, hport, rfl⟩
    exact ⟨p, m, ⟨hp, rfl⟩, port, m, ⟨hport, rfl⟩, rfl⟩

/-- What is delivered has been read from the inner flow, and stays memoized: the outputs have
different names and so different ports. -/
theorem deliver_eq_ok (hg : s.graph.Valid []) (hnode : node ∈ s.graph.nodes) {I : Scopes → Prop}
    {P : PortId → Value → Prop} (he : ∀ t, Upholds I (engine child t) (t.Meets P)) {result : NodeId}
    {ds : List PortDecl} (hnames : (ds.map (·.name)).Nodup) {memory : Memory}
    (hI : I memory.scopes)
    (hrun : engine.deliver s child node.id result ds memory m = some (.ok (), m')) :
    (∀ o ∈ ds, ∃ p port q v, s.graph.output? node.id o.name = some p ∧
      s.graph.port? p = some port ∧ child.graph.input? result o.name none = some q ∧ P q v ∧
      m'.memory.scopes.top.get? p = some (s.coerce port v)) ∧
    ∀ p, (∀ o ∈ ds, s.graph.output? node.id o.name ≠ some p) →
      m'.memory.scopes.top.get? p = m.memory.scopes.top.get? p := by
  induction ds generalizing memory m with
  | nil =>
    obtain ⟨-, rfl⟩ := Exec.pure_eq_ok.1 hrun
    exact ⟨by simp, fun _ _ => rfl⟩
  | cons c ds ih =>
    obtain ⟨hhead, htail⟩ := List.nodup_cons.1 (List.map_cons ▸ hnames)
    obtain ⟨q, m₁, hinput, hrun⟩ := Exec.bind_eq_ok.1 hrun
    obtain ⟨hq, rfl⟩ := Exec.ofGraph_eq_ok.1 hinput
    obtain ⟨⟨v, memory'⟩, m₂, hread, hrun⟩ := Exec.bind_eq_ok.1 hrun
    obtain ⟨m₃, hvalue, hmemory', rfl⟩ := Exec.within_eq_ok.1 hread
    obtain ⟨_, m₄, hpublish, hrun⟩ := Exec.bind_eq_ok.1 hrun
    obtain ⟨p, port, hp, hport, rfl⟩ := publish_eq_ok.1 hpublish
    obtain ⟨hI', hP⟩ := he (.read q) _ _ _ hvalue hI
    have hI' : I memory'.scopes := (show m₃.memory = memory' from hmemory') ▸ hI'
    obtain ⟨hlater, hother⟩ := ih htail hI' hrun
    -- The port of this output is not that of a later one.
    have hfree : ∀ o ∈ ds, s.graph.output? node.id o.name ≠ some p := by
      intro o ho hop
      obtain ⟨k, -, hname, hk⟩ := mem_outputs_of_output? hg hnode hp hport
      obtain ⟨k', -, hname', hk'⟩ := mem_outputs_of_output? hg hnode hop hport
      obtain rfl : k = k' := congrArg PlacedPort.port (hk.symm.trans hk')
      exact hhead (List.mem_map.2 ⟨o, ho, hname'.symm.trans hname⟩)
    refine ⟨fun o ho => ?_, fun p' hp' => ?_⟩
    · rcases List.mem_cons.1 ho with rfl | ho
      · refine ⟨p, port, q, v, hp, hport, getInput_eq_ok.1 hq, hP v rfl, ?_⟩
        rw [hother p hfree]
        simp [Scopes.set]
      · exact hlater o ho
    · rw [hother p' fun o ho => hp' o (.tail _ ho)]
      have hne : p' ≠ p := fun he => hp' c (.head _) (he ▸ hp)
      simp [Scopes.set, hne]

end Engine

/-! ## The inner flow -/

theorem Scopes.find?_set (scopes : Scopes) (p q : PortId) (v : Value) :
    (scopes.set p v).find? q = if q = p then some v else scopes.find? q := by
  simp only [find?, set, findIn?, Table.get?_insert]
  split <;> simp

/-- The scopes hold plain values, and a value wherever one is given. -/
def FilledScopes (s : Setting) (t : Table String Value) (scopes : Scopes) : Prop :=
  ScopesHold (s.PlainWith t) scopes ∧ ∀ p, scopes.find? p = none → s.givenAt t p = none

variable {s : Setting} {t : Table String Value}

theorem filledScopes_base {f : Frame} (hf : Inner.Binds s t f) : FilledScopes s t (.base f) := by
  refine ⟨.base fun p v hv => ⟨1, ?_⟩, fun p hp => ?_⟩
  · rw [hf p] at hv
    simp [Setting.plainWith, hv]
  · rw [← hf p]
    simpa [Scopes.find?, Scopes.base, Scopes.findIn?] using hp

theorem discipline_filled (hg : s.graph.Valid []) :
    Discipline s (FilledScopes s t) (s.PlainWith t) := by
  refine discipline_plain hg (fun hI hv => hI.1.find? hv) (fun hI hv => ⟨hI.1.set hv, ?_⟩)
    fun hI hnone => hI.2 _ hnone
  intro p hp
  rw [Scopes.find?_set] at hp
  split at hp
  · simp at hp
  · exact hI.2 p hp

/-! ## Invocations -/

section Invocation

variable {node : Node Definition} {d : Definition} {inner : Graph Definition} {host : Host σ}
  {k : Nat} {m m' : Machine σ} {exit : Option PortId} {unset : PortDecl → Value}

/-- The outputs of a node have the plain values that the inputs of Return have in the inner graph
with its arguments in the stead of the outputs of Entry. -/
def Setting.Delivers (s : Setting) (node : Node Definition) (outputs : List PortDecl)
    (inner : Graph Definition) (result : NodeId) (bound : Table String Value) (scopes : Scopes) :
    Prop :=
  ∀ o ∈ outputs, ∃ p port q v, s.graph.output? node.id o.name = some p ∧
    s.graph.port? p = some port ∧ inner.input? result o.name none = some q ∧
    (s.child inner node.id).PlainWith bound q v ∧ scopes.find? p = some (s.coerce port v)

/-- A generated node fails at once or finds Entry and Return. -/
theorem invokeGenerated_cases {engine : Engine σ} {r : Except FlowError (Option PortId)}
    (hrun : engine.invokeGenerated s node d inner m = some (r, m')) :
    (∃ e, r = .error e ∧ m = m') ∨
    ∃ entry result, inner.entryNode? = some entry ∧ inner.resultNode? = some result ∧
      (do
        let inputs ← engine.bindInputs s node.id inner entry d.signature.inputs .empty
        let frame ← Exec.ofGraph (Engine.bindConsts s node inner entry d.signature.consts inputs)
        let memory ← engine.followEntry (s.child inner node.id) entry (.start frame)
        engine.deliver s (s.child inner node.id) node.id result d.signature.outputs memory
        return s.graph.output? node.id exitName) m = some (r, m') := by
  have hfail : ∀ {e : FlowError}, Exec.fail e m = some (r, m') → ∃ e, r = .error e ∧ m = m' :=
    fun h => ⟨_, ((Prod.mk.inj (Option.some.inj h)).imp Eq.symm id)⟩
  unfold Engine.invokeGenerated at hrun
  by_cases hdepth : s.options.maxCallDepth < s.depth + 1
  · rw [if_pos hdepth] at hrun
    exact .inl (hfail hrun)
  · rw [if_neg hdepth] at hrun
    cases hentry : inner.entryNode? with
    | none =>
      rw [hentry] at hrun
      exact .inl (hfail hrun)
    | some entry =>
      cases hresult : inner.resultNode? with
      | none =>
        rw [hentry, hresult] at hrun
        exact .inl (hfail hrun)
      | some result =>
        rw [hentry, hresult] at hrun
        exact .inr ⟨entry, result, rfl, rfl, hrun⟩

/-- A generated node that succeeds finds Entry and Return. -/
theorem invokeGenerated_opens {engine : Engine σ}
    (hrun : engine.invokeGenerated s node d inner m = some (.ok exit, m')) :
    ∃ entry result, inner.entryNode? = some entry ∧ inner.resultNode? = some result ∧
      (do
        let inputs ← engine.bindInputs s node.id inner entry d.signature.inputs .empty
        let frame ← Exec.ofGraph (Engine.bindConsts s node inner entry d.signature.consts inputs)
        let memory ← engine.followEntry (s.child inner node.id) entry (.start frame)
        engine.deliver s (s.child inner node.id) node.id result d.signature.outputs memory
        return s.graph.output? node.id exitName) m = some (.ok exit, m') :=
  (invokeGenerated_cases hrun).resolve_left fun ⟨_, he, _⟩ => nomatch he

theorem invokeGenerated_eq_ok (hg : s.graph.Valid []) (hnode : node ∈ s.graph.nodes)
    (hinner : Reachable Definition.Standard inner) (hsignature : inner.signature = some d.signature)
    (hplain : d.signature.Plain)
    (hnames : ((d.signature.inputs ++ d.signature.consts).map (·.name)).Nodup)
    (hunset : ∀ c ∈ d.signature.consts, node.consts.get? c.name = none →
      (unset c).convert s.hook c.type = Value.null.convert s.hook c.type)
    (hrun : (exec host k).invokeGenerated s node d inner m = some (.ok exit, m')) :
    ∃ result args m₁, inner.resultNode? = some result ∧
      (exec host k).bindParams s node (d.signature.inputs.map .input) .empty m =
        some (.ok args, m₁) ∧
      s.Delivers node d.signature.outputs inner result
        (substitution node unset d.signature.consts args) m'.memory.scopes := by
  obtain ⟨entry, result, hentry, hresult, hrun⟩ := invokeGenerated_opens hrun
  · obtain ⟨e, he, rfl, hkind⟩ := mem_of_entryNode? hentry
    have hin : Inner d.signature inner e := ⟨hinner.valid, hsignature, he, hkind, hplain, hnames⟩
    have hchild : (s.child inner node.id).graph.Valid [] := hinner.valid
    have hkinds : ∀ n ∈ (s.child inner node.id).graph.nodes, ∀ d, n.kind = .action d →
        ∃ m, d.Transparent m := by
      intro n hn d hd
      obtain ⟨decl, hdecl, hdefine⟩ := (hinner.invariant.2 n hn).1 d hd
      exact Library.transparent hdecl hdefine
    obtain ⟨f, m₁, hinputs, hrun⟩ := Exec.bind_eq_ok.1 hrun
    obtain ⟨f', m₂, hframe, hrun⟩ := Exec.bind_eq_ok.1 hrun
    obtain ⟨hconsts, rfl⟩ := Exec.ofGraph_eq_ok.1 hframe
    obtain ⟨memory, m₂, hfollow, hrun⟩ := Exec.bind_eq_ok.1 hrun
    obtain ⟨u, m₃, hdeliver, hrun⟩ := Exec.bind_eq_ok.1 hrun
    obtain ⟨-, rfl⟩ := Exec.pure_eq_ok.1 hrun
    -- The arguments are bound to the outputs of Entry.
    obtain ⟨args, hargs, hbinds⟩ := Engine.bindInputs_eq_ok hin
      (fun c hc => (hplain.values c (by simp [hc])).2.2) Inner.binds_empty hinputs
    have hbinds' := Engine.bindConsts_eq_ok hin hunset (fun c hc => hc) hbinds hconsts
    -- The inner flow memoizes plain values, when control is followed and when outputs are read.
    have hD := discipline_filled (t := substitution node unset d.signature.consts args) hchild
    have hexec := upholds_plain_exec hchild hkinds hD host k
    have hstart := filledScopes_base hbinds'
    have hmemory := (Engine.upholds_followEntry (J := fun _ => True) hexec e.id hstart _ _ _ hfollow
      trivial).2 memory rfl
    have hdelivered := (Engine.deliver_eq_ok hg hnode hexec hplain.distinct hmemory hdeliver).1
    refine ⟨result, args, m₁, hresult, hargs, fun o ho => ?_⟩
    obtain ⟨p, port, q, v, hp, hport, hq, hv, hget⟩ := hdelivered o ho
    exact ⟨p, port, q, v, hp, hport, hq, hv, by simp [Scopes.find?, Scopes.findIn?, hget]⟩

/-- The machine in which a node is carried out: it is logged and noted as running. -/
def Machine.entering (m : Machine σ) (n : NodeId) (define : String) : Machine σ :=
  ⟨⟨m.memory.scopes, n :: m.memory.running⟩, .nodeInvoked n define :: m.log, m.host⟩

theorem exec_invoke_eq_ok (hg : s.graph.Valid []) (hnode : node ∈ s.graph.nodes)
    (hkind : node.kind = .action d) (hbehaviour : d.behaviour = .generated inner)
    (hrun : exec host (k + 1) s (.invoke node.id) m = some (.ok exit, m')) :
    ∃ m₁, (exec host k).invokeGenerated s node d inner (m.entering node.id d.name) =
      some (.ok exit, m₁) ∧ m'.memory.scopes = m₁.memory.scopes := by
  change Engine.invoke (exec host k) s host node.id m = _ at hrun
  obtain ⟨node', m₁, hfound, hrun⟩ := Exec.bind_eq_ok.1 hrun
  obtain ⟨hnode', rfl⟩ := Exec.ofGraph_eq_ok.1 hfound
  have hsame := getNode_eq_ok.1 hnode'
  rw [node?_of_mem hg.ascending hnode] at hsame
  obtain rfl := Option.some.inj hsame
  obtain ⟨_, m₂, hemit, hrun⟩ := Exec.bind_eq_ok.1 hrun
  obtain ⟨-, rfl⟩ := Prod.mk.inj (Option.some.inj hemit)
  obtain ⟨m₃, hinside, rfl⟩ := Exec.running_eq_ok.1 hrun
  simp only [hkind, hbehaviour] at hinside
  exact ⟨m₃, hinside, rfl⟩

/-- The behaviour of a generated kind over a graph of standard kinds. -/
theorem inner_of_generated {g : Graph Definition} (hg : Reachable Definition.Standard g)
    (hd : (Definition.generated d.signature g).map (·.behaviour) = .ok d.behaviour) :
    ∃ inner, d.behaviour = .generated inner ∧ Reachable Definition.Standard inner ∧
      inner.signature = some d.signature ∧
      ((d.signature.inputs ++ d.signature.consts).map (·.name)).Nodup := by
  obtain ⟨d', hd', hbehaviour⟩ := map_eq_ok.1 hd
  obtain ⟨inner, hinner, rfl, hnames⟩ := generated_eq_ok hd'
  exact ⟨inner, hbehaviour.symm, hg.setSignature hinner, setSignature_signature hinner, hnames⟩

/-- A generated kind means its inner graph with the arguments substituted. Whenever a node of a kind
that is generated from a graph of standard kinds is invoked with success, in whatever flow and
memory, each of its outputs is memoized with the plain value that the input of Return has in the
inner graph when the outputs of Entry are given the values of the node: those of its inputs as they
are pulled in the outer flow, and its constants as they are stored. A constant that is not set is
null, which the hook may convert. -/
theorem invoke_generated {K : Definition → Prop} (hg : Reachable K s.graph)
    (hnode : node ∈ s.graph.nodes) (hkind : node.kind = .action d) {g : Graph Definition}
    (hinner : Reachable Definition.Standard g)
    (hd : (Definition.generated d.signature g).map (·.behaviour) = .ok d.behaviour)
    (hplain : d.signature.Plain)
    (hrun : exec host (k + 1) s (.invoke node.id) m = some (.ok exit, m')) :
    ∃ inner result args m₁, d.behaviour = .generated inner ∧ inner.resultNode? = some result ∧
      (exec host k).bindParams s node (d.signature.inputs.map .input) .empty
        (m.entering node.id d.name) = some (.ok args, m₁) ∧
      s.Delivers node d.signature.outputs inner result
        (substitution node (fun _ => .null) d.signature.consts args) m'.memory.scopes := by
  obtain ⟨inner, hbehaviour, hreach, hsignature, hnames⟩ := inner_of_generated hinner hd
  obtain ⟨m₁, hrun, hscopes⟩ := exec_invoke_eq_ok hg.valid hnode hkind hbehaviour hrun
  obtain ⟨result, args, m₂, hresult, hargs, hdelivers⟩ :=
    invokeGenerated_eq_ok hg.valid hnode hreach
    hsignature hplain hnames (fun _ _ _ => rfl) hrun
  exact ⟨inner, result, args, m₂, hbehaviour, hresult, hargs, hscopes ▸ hdelivers⟩

/-- Where no constant that is not set is converted by the hook, constants that are not set have the
defaults of their types. -/
theorem invoke_generated_of_unset {K : Definition → Prop} (hg : Reachable K s.graph)
    (hnode : node ∈ s.graph.nodes) (hkind : node.kind = .action d) {g : Graph Definition}
    (hinner : Reachable Definition.Standard g)
    (hd : (Definition.generated d.signature g).map (·.behaviour) = .ok d.behaviour)
    (hplain : d.signature.Plain)
    (hnull : ∀ c ∈ d.signature.consts, node.consts.get? c.name = none →
      Value.null.convert s.hook c.type = c.type.default)
    (hrun : exec host (k + 1) s (.invoke node.id) m = some (.ok exit, m')) :
    ∃ inner result args m₁, d.behaviour = .generated inner ∧ inner.resultNode? = some result ∧
      (exec host k).bindParams s node (d.signature.inputs.map .input) .empty
        (m.entering node.id d.name) = some (.ok args, m₁) ∧
      s.Delivers node d.signature.outputs inner result
        (substitution node (·.type.default) d.signature.consts args) m'.memory.scopes := by
  obtain ⟨inner, hbehaviour, hreach, hsignature, hnames⟩ := inner_of_generated hinner hd
  obtain ⟨m₁, hrun, hscopes⟩ := exec_invoke_eq_ok hg.valid hnode hkind hbehaviour hrun
  have hunset : ∀ c ∈ d.signature.consts, node.consts.get? c.name = none →
      c.type.default.convert s.hook c.type = Value.null.convert s.hook c.type := by
    intro c hc hget
    rw [Value.convert_default, hnull c hc hget]
  obtain ⟨result, args, m₂, hresult, hargs, hdelivers⟩ :=
    invokeGenerated_eq_ok hg.valid hnode hreach
    hsignature hplain hnames hunset hrun
  exact ⟨inner, result, args, m₂, hbehaviour, hresult, hargs, hscopes ▸ hdelivers⟩

end Invocation

/-! ## A constant that is not set -/

/-- A hook that spells null out. -/
def ConversionHook.spelling : ConversionHook where
  convert?
    | .null, .string => some (.string "nil")
    | _, _ => none
  canConvert _ _ := false

/-- A kind that hands a constant on. -/
def Signature.tagged : Signature :=
  ⟨"Tagged", [], [.value "tag" .string], [.value "text" .string]⟩

/-- Its inner graph, in which the constant passes through `Concat`. -/
def taggedInner : Graph Definition :=
  [.setSignature .tagged, .addNode (.action Library.concat.kind), .connect ⟨1, 1⟩ ⟨1, 5⟩,
    .connect ⟨1, 7⟩ ⟨1, 3⟩].foldl Edit.perform (.empty 1 .standard)

def Definition.tagged : Definition where
  signature := .tagged
  obsoleteNames := []
  obsoleteMessage := none
  behaviour := .generated ((Edit.setSignature .tagged).perform taggedInner)

/-- A node of the kind under a hook. -/
def taggedFlow (hook : ConversionHook) : Setting :=
  .top (Edit.perform (.empty 0 hook) (.addNode (.action .tagged))) .empty ⟨32, true⟩ hook

theorem standard_concat : Library.concat.kind.Standard :=
  ⟨Library.concat, by simp [Library.declarations], rfl⟩

theorem reachable_taggedInner : Reachable Definition.Standard taggedInner := by
  refine .foldl (fun e he k hk => ?_) (.blank 1 .standard)
  simp only [List.mem_cons, List.not_mem_nil, or_false] at he
  rcases he with rfl | rfl | rfl | rfl
  case inr.inl =>
    obtain rfl := Option.some.inj hk
    exact standard_concat
  all_goals simp [Edit.offers] at hk

theorem reachable_taggedFlow (hook : ConversionHook) :
    Reachable (fun _ => True) (taggedFlow hook).graph := by
  show Reachable _ (Edit.perform (.empty 0 hook) (.addNode (.action .tagged)))
  exact .edited _ (fun _ _ => trivial) (.blank 0 hook)

/-- The node of the kind. -/
def taggedNode : Node Definition :=
  { Node.fresh ⟨1⟩ (.action .tagged) with
    inputs := [⟨0, .control enterName, none⟩]
    outputs := [⟨1, .control exitName, none⟩, ⟨2, .value "text" .string, none⟩] }

/-- The inner graph in a flow that a node opens. -/
def taggedChild (hook : ConversionHook) : Setting :=
  (taggedFlow hook).child ((Edit.setSignature .tagged).perform taggedInner) ⟨1⟩

/-- Under a hook that spells null out a constant that is not set does not have the default of its
type. -/
theorem invoke_tagged_spelling : ∃ r, exec nullHost 12 (taggedFlow .spelling) (.invoke ⟨1⟩)
      ⟨.start .empty, [], ()⟩ = some r ∧
    r.2.memory.scopes.find? ⟨0, 2⟩ = some (.string "nil") ∧
    taggedNode.consts.get? "tag" = none ∧
    (taggedChild .spelling).PlainWith
      (substitution taggedNode (·.type.default) [.value "tag" .string] .empty) ⟨1, 3⟩
      (.string "") := by
  have hrun : ((exec nullHost 12 (taggedFlow .spelling) (.invoke ⟨1⟩) ⟨.start .empty, [], ()⟩).map
      fun r => r.2.memory.scopes.find? ⟨0, 2⟩) = some (some (.string "nil")) := by
    decide +kernel
  have hplain : (taggedChild .spelling).plainWith
      (substitution taggedNode (·.type.default) [.value "tag" .string] .empty) 8 ⟨1, 3⟩ =
      some (.string "") := by
    decide +kernel
  obtain ⟨r, hr, hget⟩ := Option.map_eq_some_iff.1 hrun
  exact ⟨r, hr, hget, rfl, 8, hplain⟩

/-- Under the standard conversions it is the empty text. -/
theorem invoke_tagged_standard : ∃ m, m.memory.scopes.find? ⟨0, 2⟩ = some (.string "") ∧
    exec nullHost 12 (taggedFlow .standard) (.invoke ⟨1⟩) ⟨.start .empty, [], ()⟩ =
      some (.ok (some ⟨0, 1⟩), m) ∧
    ∃ inner result args, (taggedFlow .standard).Delivers taggedNode [.value "text" .string] inner
      result (substitution taggedNode (·.type.default) [.value "tag" .string] args)
      m.memory.scopes := by
  have hrun : ((exec nullHost 12 (taggedFlow .standard) (.invoke ⟨1⟩) ⟨.start .empty, [], ()⟩).map
      fun r => (r.1.toOption, r.2.memory.scopes.find? ⟨0, 2⟩)) =
      some (some (some ⟨0, 1⟩), some (.string "")) := by
    decide +kernel
  obtain ⟨⟨r, m⟩, hr, hget⟩ := Option.map_eq_some_iff.1 hrun
  obtain ⟨hexit, hget⟩ := Prod.mk.inj hget
  obtain rfl : r = .ok (some ⟨0, 1⟩) := by
    cases r with
    | error e => simp [Except.toOption] at hexit
    | ok a => simpa [Except.toOption] using hexit
  have hplain : Definition.tagged.signature.Plain := ⟨by decide, by decide⟩
  have hnode : taggedNode ∈ (taggedFlow .standard).graph.nodes := List.mem_singleton.2 rfl
  obtain ⟨inner, result, args, -, -, -, -, hdelivers⟩ := invoke_generated_of_unset
    (reachable_taggedFlow .standard) hnode rfl reachable_taggedInner rfl hplain (by decide) hr
  exact ⟨m, hget, hr, inner, result, args, hdelivers⟩

end EffectGraph
