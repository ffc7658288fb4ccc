import EffectGraph.Proofs.Lockstep
import EffectGraph.Proofs.Padding
import EffectGraph.Proofs.Substitution
import EffectGraph.Proofs.Twins

/-!
# Flows over twins run in lockstep

Two memories tally (`Tallies`) if they hold the same for ports at the same place and nothing for
inputs. Flows over twins whose action nodes are of standard kinds keep their memories so: at every
level a task over one graph and the like task over the other are in lockstep (`inStep_exec`). The
one difference is the number of slots that a group shows. A slot that only one of the twins shows is
read without a trace, and its value does not show in what a body computes.
-/

namespace EffectGraph

open EffectGraph.Graph

variable {σ : Type}

/-- The setting with another graph in the stead of its own. -/
def Setting.over (s : Setting) (r : Graph Definition) : Setting := { s with graph := r }

/-! ## Memories -/

/-- Two memories that hold the same for ports at the same place, and nothing for inputs. -/
structure Tallies (g r : Graph Definition) (mem mem' : Memory) : Prop where
  running : mem'.running = mem.running
  memoized : ∀ {a b}, TwinPorts g r a b →
    mem'.scopes.find? (r.portId b.port.index) = mem.scopes.find? (g.portId a.port.index)
  inputs : ∀ a ∈ g.allPorts, a.direction = .input →
    mem.scopes.find? (g.portId a.port.index) = none
  inputs' : ∀ b ∈ r.allPorts, b.direction = .input →
    mem'.scopes.find? (r.portId b.port.index) = none

namespace Tallies

variable {g r : Graph Definition} {mem mem' : Memory} {a b : PlacedPort}

theorem start : Tallies g r (.start .empty) (.start .empty) :=
  ⟨rfl, fun _ => rfl, fun _ _ _ => rfl, fun _ _ _ => rfl⟩

theorem symm (h : Tallies g r mem mem') : Tallies r g mem' mem :=
  ⟨h.running.symm, fun hab => (h.memoized hab.symm).symm, h.inputs', h.inputs⟩

theorem idle (h : Tallies g r mem mem') {t : ValueType} {p : PortId} (hp : g.Idle t p) :
    mem.scopes.find? p = none := by
  obtain ⟨a, ha, hrole, -, rfl, -⟩ := hp
  exact h.inputs a ha ((PlacedPort.role_eq_iff .input false).1 hrole).1

theorem of_running (h : Tallies g r mem mem') {ns : List NodeId} :
    Tallies g r { mem with running := ns } { mem' with running := ns } :=
  ⟨rfl, h.memoized, h.inputs, h.inputs'⟩

/-- A value may be memoized for outputs at the same place. -/
theorem set (h : Tallies g r mem mem') (ht : Twin g r) (hab : TwinPorts g r a b)
    (hout : a.direction = .output) (v : Value) :
    Tallies g r { mem with scopes := mem.scopes.set (g.portId a.port.index) v }
      { mem' with scopes := mem'.scopes.set (r.portId b.port.index) v } := by
  -- An id of one graph denotes one port.
  have hid : ∀ {g : Graph Definition} {p q : PlacedPort}, g.Valid [] → p ∈ g.allPorts →
      q ∈ g.allPorts → g.portId p.port.index = g.portId q.port.index → p = q :=
    fun hg hp hq he => hg.wellFormed.port_inj hp hq (congrArg PortId.index he)
  have hnot : ∀ {g : Graph Definition} {p q : PlacedPort}, g.Valid [] → p ∈ g.allPorts →
      q ∈ g.allPorts → q.direction = .output → p.direction = .input →
      g.portId p.port.index ≠ g.portId q.port.index := by
    intro g p q hg hp hq hqd hpd he
    rw [hid hg hp hq he, hqd] at hpd
    exact Direction.noConfusion hpd
  refine ⟨h.running, fun {a₁ b₁} h₁ => ?_, fun p hp hpd => ?_, fun p hp hpd => ?_⟩
  · rw [Scopes.find?_set, Scopes.find?_set, h.memoized h₁]
    by_cases he : g.portId a₁.port.index = g.portId a.port.index
    · obtain rfl := hid ht.original h₁.left hab.left he
      rw [ht.ports_unique h₁ hab]
      simp
    · have hne : r.portId b₁.port.index ≠ r.portId b.port.index := by
        intro he'
        obtain rfl := hid ht.valid h₁.right hab.right he'
        exact he (by rw [ht.symm.ports_unique h₁.symm hab.symm])
      rw [if_neg he, if_neg hne]
  · rw [Scopes.find?_set, if_neg (hnot ht.original hp hab.left hout hpd)]
    exact h.inputs p hp hpd
  · rw [Scopes.find?_set, if_neg (hnot ht.valid hp hab.right (hab.direction.trans hout) hpd)]
    exact h.inputs' p hp hpd

end Tallies

/-! ## Engines -/

/-- An idle input is read without a trace. -/
def Engine.ReadsIdle (engine : Engine σ) (s : Setting) : Prop :=
  ∀ t p, s.graph.Idle t p → ∀ m : Machine σ, m.memory.scopes.find? p = none →
    engine s (.read p) m = some (.ok t.default, m)

/-- An engine that carries out like tasks over two graphs in lockstep. -/
structure Engine.InStep (engine : Engine σ) (s : Setting) (r : Graph Definition) : Prop where
  read : ∀ {p q}, Corresponds s.graph r (·.port.decl.isControl = false) p q →
    Lockstep (Tallies s.graph r) Eq (engine s (.read p)) (engine (s.over r) (.read q))
  invoke : ∀ n, Lockstep (Tallies s.graph r)
    (Option.Rel (Corresponds s.graph r (·.role = .controlOutput)))
    (engine s (.invoke n)) (engine (s.over r) (.invoke n))
  follow : ∀ {p q}, Corresponds s.graph r (·.role = .controlInput) p q →
    Lockstep (Tallies s.graph r) Eq (engine s (.follow p)) (engine (s.over r) (.follow q))
  idle : (∀ u t, engine u t = .exhausted) ∨ engine.ReadsIdle s ∧ engine.ReadsIdle (s.over r)

variable {s : Setting} {r : Graph Definition} {engine : Engine σ}

theorem Twin.lockstep_getPort {g : Graph Definition} {T : Memory → Memory → Prop} (ht : Twin g r)
    {a b : PlacedPort} (hab : TwinPorts g r a b) :
    Lockstep (σ := σ) T (fun a' b' => a' = a ∧ b' = b)
      (.ofGraph (g.getPort (g.portId a.port.index)))
      (.ofGraph (r.getPort (r.portId b.port.index))) := by
  have hleft := getPort_eq_ok.2 (ht.original.wellFormed.port?_portId hab.left)
  have hright := getPort_eq_ok.2 (ht.valid.wellFormed.port?_portId hab.right)
  exact .ofGraph (.inr ⟨a, b, hleft, hright, rfl, rfl⟩)

/-- Ports at the same place hold the same value or none. -/
theorem TwinPorts.lockstep_peek {g : Graph Definition} {a b : PlacedPort}
    (hab : TwinPorts g r a b) :
    Lockstep (σ := σ) (Tallies g r) Eq (Exec.peek (g.portId a.port.index))
      (Exec.peek (r.portId b.port.index)) :=
  .inspect fun _ _ hmem => (hmem.memoized hab).symm

theorem TwinPorts.coerce {a b : PlacedPort} (hab : TwinPorts s.graph r a b) (v : Value) :
    (s.over r).coerce b v = s.coerce a v := by
  simp [Setting.coerce, Setting.over, hab.decl]

theorem Twin.kindName {g : Graph Definition} (ht : Twin g r) (n : NodeId) :
    (r.node? n).map (·.kind.name) = (g.node? n).map (·.kind.name) := by
  have hnode := ht.node? n
  generalize g.node? n = o, r.node? n = o' at hnode
  cases hnode with
  | none => rfl
  | some hmk => exact congrArg (some ·.kind.name) hmk.2

/-- Inputs at the same place have the same values while they are not connected. -/
theorem Twin.unconnected (ht : Twin s.graph r) {a b : PlacedPort} (hab : TwinPorts s.graph r a b) :
    (s.over r).unconnected b = s.unconnected a := by
  have hnode := ht.node? a.node
  have hdefaults : ((r.node? b.node).bind fun n => n.defaults.get? b.port.key) =
      (s.graph.node? a.node).bind fun n => n.defaults.get? a.port.key := by
    rw [hab.node, hab.key]
    generalize s.graph.node? a.node = o, r.node? a.node = o' at hnode
    cases hnode with
    | none => rfl
    | some hmk => exact congrArg (·.defaults.get? a.port.key) hmk.2
  show (((r.node? b.node).bind _).getD _) = _
  rw [hdefaults, hab.decl]
  rfl

namespace Engine

/-! ### Control -/

section Control

variable (ht : Twin s.graph r) (he : engine.InStep s r)

include ht he

theorem lockstep_follow {p q : PortId} (hpq : Corresponds s.graph r (·.role = .controlInput) p q) :
    Lockstep (Tallies s.graph r) Eq (engine.follow s p) (engine.follow (s.over r) q) := by
  obtain ⟨a, b, hab, -, rfl, rfl⟩ := hpq
  refine (ht.lockstep_getPort hab).bind ?_
  rintro a b ⟨rfl, rfl⟩
  rw [hab.node]
  refine Lockstep.bind (he.invoke a.node) fun exit exit' hexit => ?_
  have hnext : Option.Rel (Corresponds s.graph r (·.role = .controlInput))
      (exit.bind s.graph.nextControl?) (exit'.bind r.nextControl?) := by
    cases hexit with
    | none => exact .none
    | some hpq => exact ht.nextControl? hpq
  have hgraph : (s.over r).graph = r := rfl
  rw [hgraph]
  generalize exit.bind s.graph.nextControl? = o, exit'.bind r.nextControl? = o' at hnext
  cases hnext with
  | none => exact .pure rfl
  | some hpq => exact he.follow hpq

theorem lockstep_run {p q : PortId} (hpq : Corresponds s.graph r (·.role = .controlInput) p q) :
    Lockstep (Tallies s.graph r) Eq (engine.run s p) (engine.run (s.over r) q) := by
  obtain ⟨a, b, hab, hrole, rfl, rfl⟩ := hpq
  refine (ht.lockstep_getPort hab).bind ?_
  rintro a b ⟨rfl, rfl⟩
  rw [if_pos hrole, if_pos (hab.role.trans hrole)]
  exact he.follow ⟨a, b, hab, hrole, rfl, rfl⟩

theorem lockstep_runNode (n : NodeId) :
    Lockstep (Tallies s.graph r) Eq (engine.runNode s n) (engine.runNode (s.over r) n) := by
  have henter := ht.input? n enterName
  have hgraph : (s.over r).graph = r := rfl
  unfold runNode controlInput?
  rw [hgraph]
  generalize s.graph.input? n enterName none = o, r.input? n enterName none = o' at henter
  cases henter with
  | none => exact .fail _
  | some hpq =>
    obtain ⟨a, b, hab, ⟨-, hside, hname⟩, rfl, rfl⟩ := hpq
    refine lockstep_run ht he ⟨a, b, hab, ?_, rfl, rfl⟩
    -- The input of this name is the control input that every action node has.
    obtain ⟨m, hm, hnode, -⟩ := exists_of_input hab.left hside
    obtain ⟨k, hkind, -⟩ := ht.addressable m hm
    have hdecl := ht.decl_of_name hm hkind (.head _) hab.left hside hnode hname
    exact (PlacedPort.role_eq_iff .input true).2 ⟨hside, congrArg PortDecl.isControl hdecl⟩

end Control

/-! ### Values -/

section Values

variable (ht : Twin s.graph r) (he : engine.InStep s r)

include ht he

/-- An input that holds no value is read alike: what is connected to it is at the same place, and
its value without a connection is the same. -/
theorem lockstep_readInput {a b : PlacedPort} (hab : TwinPorts s.graph r a b)
    (hrole : a.role = .valueInput) :
    Lockstep (Tallies s.graph r) Eq
      (match s.graph.valueSource? (s.graph.portId a.port.index) with
        | some source => engine s (.read source) >>= fun v => return s.coerce a v
        | none => return s.coerce a (s.unconnected a))
      (match r.valueSource? (r.portId b.port.index) with
        | some source => engine (s.over r) (.read source) >>= fun v => return (s.over r).coerce b v
        | none => return (s.over r).coerce b ((s.over r).unconnected b)) := by
  have hsource := ht.valueSource? ⟨a, b, hab, hrole, rfl, rfl⟩
  generalize s.graph.valueSource? (s.graph.portId a.port.index) = o,
    r.valueSource? (r.portId b.port.index) = o' at hsource
  cases hsource with
  | none =>
    refine .pure ?_
    rw [hab.coerce, ht.unconnected hab]
  | some hpq =>
    have hvalues := hpq.mono fun _ hc => ((PlacedPort.role_eq_iff .output false).1 hc).2
    refine (he.read hvalues).bind fun v v' hv => .pure ?_
    rw [hab.coerce, hv]

/-- An output that holds no value is read alike: its node is invoked, and the output is looked at
again. -/
theorem lockstep_readOutput {a b : PlacedPort} (hab : TwinPorts s.graph r a b) :
    Lockstep (Tallies s.graph r) Eq
      (engine s (.invoke a.node) >>= fun _ => Exec.peek (s.graph.portId a.port.index) >>= fun
        | some v => return v
        | none => Exec.emit (.outputEmpty a.node
            (((s.graph.node? a.node).map (·.kind.name)).getD "") a.port.key) >>= fun _ => .fail
              (.emptyOutput a.node (((s.graph.node? a.node).map (·.kind.name)).getD "")
                a.port.decl.name))
      (engine (s.over r) (.invoke a.node) >>= fun _ => Exec.peek (r.portId b.port.index) >>= fun
        | some v => return v
        | none => Exec.emit (.outputEmpty a.node
            (((r.node? a.node).map (·.kind.name)).getD "") a.port.key) >>= fun _ => .fail
              (.emptyOutput a.node (((r.node? a.node).map (·.kind.name)).getD "")
                a.port.decl.name)) := by
  rw [ht.kindName]
  refine (he.invoke a.node).bind fun _ _ _ => hab.lockstep_peek.bind fun o o' ho => ?_
  subst ho
  cases o with
  | some v => exact .pure rfl
  | none => exact (Lockstep.emit _).bind fun _ _ _ => .fail _

theorem lockstep_read {p q : PortId}
    (hpq : Corresponds s.graph r (·.port.decl.isControl = false) p q) :
    Lockstep (Tallies s.graph r) Eq (engine.read s p) (engine.read (s.over r) q) := by
  obtain ⟨a, b, hab, hvalue, rfl, rfl⟩ := hpq
  refine hab.lockstep_peek.bind fun o o' ho => ?_
  subst ho
  cases o with
  | some v => exact .pure rfl
  | none =>
    refine (ht.lockstep_getPort hab).bind ?_
    rintro a b ⟨rfl, rfl⟩
    cases hside : a.direction with
    | input =>
      have hrole : a.role = .valueInput :=
        (PlacedPort.role_eq_iff .input false).2 ⟨hside, hvalue⟩
      simp only [hab.role, hrole]
      exact lockstep_readInput ht he hab hrole
    | output =>
      have hrole : a.role = .valueOutput :=
        (PlacedPort.role_eq_iff .output false).2 ⟨hside, hvalue⟩
      rw [hab.node]
      simp only [hab.role, hrole, hab.key, hab.decl]
      have hrunning : Lockstep (σ := σ) (Tallies s.graph r) Eq (.inspect (·.running))
          (.inspect (·.running)) := .inspect fun _ _ hmem => hmem.running.symm
      refine hrunning.bind fun ns ns' hns => ?_
      subst hns
      by_cases hcycle : ns.contains a.node = true
      · rw [if_pos hcycle, if_pos hcycle]
        exact .fail _
      · rw [if_neg hcycle, if_neg hcycle]
        exact lockstep_readOutput ht he hab

omit ht he in
theorem ReadsIdle.readAll (hidle : engine.ReadsIdle s) {t : ValueType} {ps : List PortId}
    (hps : ∀ p ∈ ps, s.graph.Idle t p) {m : Machine σ}
    (hm : ∀ p ∈ ps, m.memory.scopes.find? p = none) :
    engine.readAll s ps m = some (.ok (.replicate ps.length t.default), m) := by
  induction ps with
  | nil => rfl
  | cons p ps ih =>
    have hread := hidle t p (hps p (.head _)) m (hm p (.head _))
    have hrest := ih (fun q hq => hps q (.tail _ hq)) fun q hq => hm q (.tail _ hq)
    show Exec.bind _ _ m = _
    unfold Exec.bind
    rw [hread]
    show Exec.bind _ _ m = _
    unfold Exec.bind
    rw [hrest]
    rfl

omit ht in
/-- The slots of a group are read alike, up to idle slots at the end. -/
theorem lockstep_readAll {t : ValueType} {ps qs : List PortId} (h : Aligned s.graph r t ps qs)
    (hidle : engine.ReadsIdle s ∧ engine.ReadsIdle (s.over r)) :
    Lockstep (Tallies s.graph r) (Padded t.default) (engine.readAll s ps)
      (engine.readAll (s.over r) qs) := by
  induction ps generalizing qs with
  | nil =>
    intro m m' hm
    -- What the other graph shows beyond is idle.
    have hqs : ∀ q ∈ qs, r.Idle t q := fun q hq => h.symm.idle hq
    rw [hidle.2.readAll hqs fun q hq => hm.memory.symm.idle (hqs q hq)]
    exact .ok ⟨qs.length, 0, by simp⟩ hm
  | cons p ps ih =>
    cases qs with
    | nil =>
      intro m m' hm
      have hps : ∀ q ∈ p :: ps, s.graph.Idle t q := fun q hq => h.idle hq
      rw [hidle.1.readAll hps fun q hq => hm.memory.idle (hps q hq)]
      exact .ok ⟨0, (p :: ps).length, by simp⟩ hm
    | cons q qs =>
      have hhead := h 0
      cases hhead with
      | both hpq =>
        refine (he.read hpq).bind fun v w hvw => ?_
        subst hvw
        exact (ih fun i => h (i + 1)).bind fun vs ws hpad => .pure hpad.cons

end Values

/-! ### Arguments -/

section Arguments

variable (ht : Twin s.graph r) (he : engine.InStep s r) {node node' : Node Definition}
  (hnode : node ∈ s.graph.nodes) (hcore : node'.core = node.core) {d : Definition}
  (hkind : node.kind = .action d)

include ht he hnode hkind

/-- The array of a group is the same up to defaults at the end. -/
theorem lockstep_group {c : PortDecl} (hc : c ∈ d.signature.inputs)
    (hvariadic : c.isVariadic = true) (hvalue : c.isControl = false) :
    Lockstep (Tallies s.graph r)
      (fun v v' => ∃ vs vs', v = .array vs ∧ v' = .array vs' ∧ Padded c.type.default vs vs')
      (engine.argument s node.id c) (engine.argument (s.over r) node.id c) := by
  obtain ⟨hps, hqs, haligned⟩ := ht.slots hnode hkind hc hvalue hvariadic
  have hread : Lockstep (Tallies s.graph r) (Padded c.type.default)
      (engine.readAll s (s.graph.variadicSlots node.id c.name))
      (engine.readAll (s.over r) (r.variadicSlots node.id c.name)) := by
    rcases he.idle with hexhausted | hidle
    · -- Both groups show a slot, for which the allowance does not suffice.
      obtain ⟨p, ps, hp⟩ := List.exists_cons_of_ne_nil hps
      obtain ⟨q, qs, hq⟩ := List.exists_cons_of_ne_nil hqs
      rw [hp, hq]
      intro m m' hm
      show EndsAlike _ _ (Exec.bind _ _ m) (Exec.bind _ _ m')
      unfold Exec.bind
      rw [hexhausted, hexhausted]
      exact .unended
    · exact lockstep_readAll he haligned hidle
  unfold argument
  rw [if_pos hvariadic, if_pos hvariadic]
  exact hread.bind fun vs vs' hpad => .pure ⟨vs, vs', rfl, rfl, hpad⟩

theorem lockstep_single {c : PortDecl} (hc : c ∈ d.signature.inputs)
    (hvariadic : c.isVariadic = false) (hvalue : c.isControl = false) :
    Lockstep (Tallies s.graph r) Eq (engine.argument s node.id c)
      (engine.argument (s.over r) node.id c) := by
  unfold argument
  simp only [hvariadic, Bool.false_eq_true, if_false]
  refine (Lockstep.getInput (ht.input? node.id c.name)).bind fun p q hpq => ?_
  obtain ⟨a, b, hab, ⟨hplace, hside, hname⟩, rfl, rfl⟩ := hpq
  have hdecl := ht.decl_of_name hnode hkind (.tail _ hc) hab.left hside hplace hname
  exact he.read ⟨a, b, hab, (congrArg PortDecl.isControl hdecl).trans hvalue, rfl, rfl⟩

include hcore

theorem lockstep_bindParams {ps : List MethodParam}
    (hps : ∀ c, .input c ∈ ps → c ∈ d.signature.inputs ∧ c.isControl = false)
    {args args' : Table String Value} (hargs : ArgsAlike d.signature.inputs args args') :
    Lockstep (Tallies s.graph r) (ArgsAlike d.signature.inputs)
      (engine.bindParams s node ps args) (engine.bindParams (s.over r) node' ps args') := by
  have hid : node'.id = node.id := (congrArg Node.id hcore :)
  have hconsts : node'.consts = node.consts := (congrArg Node.consts hcore :)
  induction ps generalizing args args' with
  | nil => exact .pure hargs
  | cons p ps ih =>
    have hrest : ∀ {args args'}, ArgsAlike d.signature.inputs args args' →
        Lockstep (Tallies s.graph r) (ArgsAlike d.signature.inputs)
          (engine.bindParams s node ps args) (engine.bindParams (s.over r) node' ps args') :=
      fun hargs => ih (fun c hc => hps c (.tail _ hc)) hargs
    cases p with
    | input c =>
      obtain ⟨hc, hvalue⟩ := hps c (.head _)
      rw [bindParams, bindParams, hid]
      cases hvariadic : c.isVariadic with
      | true =>
        refine (lockstep_group ht he hnode hkind hc hvariadic hvalue).bind ?_
        rintro _ _ ⟨vs, vs', rfl, rfl, hpad⟩
        exact hrest (hargs.insert_array hc hvariadic hpad)
      | false =>
        refine (lockstep_single ht he hnode hkind hc hvariadic hvalue).bind fun v v' hv => ?_
        subst hv
        exact hrest (hargs.insert c.name v)
    | const c =>
      rw [bindParams, bindParams, constant, constant, hconsts]
      exact hrest (hargs.insert _ _)
    | ambient name context => exact hrest (hargs.insert _ _)
    | out c => exact hrest hargs
    | branch c => exact hrest hargs

end Arguments

/-! ### Outputs -/

section Outputs

variable (ht : Twin s.graph r) {n : NodeId}

include ht

theorem lockstep_publish (name : String) (v : Value) :
    Lockstep (σ := σ) (Tallies s.graph r) Eq (publish s n name v)
      (publish (s.over r) n name v) := by
  refine (Lockstep.getOutput (ht.output? n name)).bind fun p q hpq => ?_
  obtain ⟨a, b, hab, hside, rfl, rfl⟩ := hpq
  refine (ht.lockstep_getPort hab).bind ?_
  rintro a b ⟨rfl, rfl⟩
  rw [hab.coerce]
  exact .memoize fun _ _ hmem => hmem.set ht hab hside _

theorem lockstep_publishAll (outs : List (String × Value)) :
    Lockstep (σ := σ) (Tallies s.graph r) Eq (publishAll s n outs)
      (publishAll (s.over r) n outs) := by
  induction outs with
  | nil => exact .pure rfl
  | cons e es ih => exact (lockstep_publish ht e.1 e.2).bind fun _ _ _ => ih

/-- The control outputs to follow after a body are at the same place. -/
theorem lockstep_branchOf (o : Outcome) :
    Lockstep (σ := σ) (Tallies s.graph r)
      (Option.Rel (Corresponds s.graph r (·.role = .controlOutput)))
      (.ofGraph (branchOf s n o)) (.ofGraph (branchOf (s.over r) n o)) := by
  refine .ofGraph ?_
  have houtput := ht.output? n (o.branch.getD exitName)
  simp only [branchOf, Setting.over]
  generalize s.graph.output? n (o.branch.getD exitName) = p,
    r.output? n (o.branch.getD exitName) = q
    at houtput ⊢
  cases houtput with
  | none => exact .inl ⟨_, rfl, rfl⟩
  | some hpq =>
    obtain ⟨a, b, hab, hside, rfl, rfl⟩ := hpq
    have hleft := getPort_eq_ok.2 (ht.original.wellFormed.port?_portId hab.left)
    have hright := getPort_eq_ok.2 (ht.valid.wellFormed.port?_portId hab.right)
    simp only [hleft, hright, bind, Except.bind, hab.decl]
    cases hcontrol : a.port.decl.isControl with
    | false => exact .inl ⟨_, rfl, rfl⟩
    | true =>
      have hrole : a.role = .controlOutput :=
        (PlacedPort.role_eq_iff .output true).2 ⟨hside, hcontrol⟩
      exact .inr ⟨_, _, rfl, rfl, .some ⟨a, b, hab, hrole, rfl, rfl⟩⟩

omit ht in
theorem lockstep_blame {α β : Type} {R : α → β → Prop} (define : String) (e : BodyError) :
    Lockstep (σ := σ) (Tallies s.graph r) R (blame s n define e) (blame (s.over r) n define e) := by
  have hover : (blame (s.over r) n define e : Exec σ β) = blame s n define e := by cases e <;> rfl
  rw [hover]
  cases e with
  | flow e => exact .fail e
  | action e =>
    simp only [blame]
    by_cases hlog : s.options.logNodeErrors = true
    · simp only [if_pos hlog]
      exact (Lockstep.emit _).bind fun _ _ _ => .fail _
    · simp only [if_neg hlog]
      exact .fail _

omit ht in
theorem lockstep_runProgram (host : Host σ) {α : Type} {x : Program α} (hx : x.Quiet) :
    Lockstep (Tallies s.graph r) Eq (engine.runProgram s host x)
      (engine.runProgram (s.over r) host x) := by
  induction hx with
  | pure a => exact .pure rfl
  | log _ ih => exact (Lockstep.emit _).bind fun _ _ _ => ih

end Outputs

/-! ### Nodes -/

section Nodes

variable (ht : Twin s.graph r) (he : engine.InStep s r)

include ht he

theorem lockstep_invokeMethod (host : Host σ) {node node' : Node Definition}
    (hnode : node ∈ s.graph.nodes) (hcore : node'.core = node.core) {d : Definition}
    (hkind : node.kind = .action d) {decl : MethodDecl} (hdecl : decl ∈ Library.declarations)
    (hd : decl.define = .ok d) {method : Method} (hmethod : d.behaviour = .method method)
    (define : String) :
    Lockstep (Tallies s.graph r) (Option.Rel (Corresponds s.graph r (·.role = .controlOutput)))
      (engine.invokeMethod s host node define method)
      (engine.invokeMethod (s.over r) host node' define method) := by
  have hid : node'.id = node.id := (congrArg Node.id hcore :)
  obtain ⟨body, hbody, -, rfl⟩ := define_eq_ok.1 hd
  obtain rfl := Behaviour.method.inj hmethod
  have hinputs : ∀ c, .input c ∈ decl.params → c ∈ decl.signature.inputs ∧ c.isControl = false :=
    fun c hc => ⟨List.mem_filterMap.2 ⟨_, hc, rfl⟩, Library.isControl_of_mem decl hdecl _ hc c rfl⟩
  refine (lockstep_bindParams ht he hnode hcore hkind hinputs (.refl _)).bind
    fun args args' hargs => ?_
  have hsame := Library.body_congr (n := node.id) (e := s.environment) hdecl hbody hargs
  rw [hid]
  show Lockstep _ _ (engine.runProgram s host (body ⟨node.id, args, s.environment⟩) >>= _)
    (engine.runProgram (s.over r) host (body ⟨node.id, args', s.environment⟩) >>= _)
  rw [← hsame]
  refine (lockstep_runProgram host (Library.quiet_of_mem hdecl hbody _)).bind fun o o' ho => ?_
  subst ho
  cases o with
  | error e => exact lockstep_blame define e
  | ok o =>
    refine (lockstep_publishAll ht _).bind fun _ _ _ => ?_
    exact lockstep_branchOf ht o

/-- A node is run alike in flows over twins. -/
theorem lockstep_invoke (host : Host σ)
    (hkinds : ∀ m ∈ s.graph.nodes, ∀ d, m.kind = .action d → d.Standard) (n : NodeId) :
    Lockstep (Tallies s.graph r) (Option.Rel (Corresponds s.graph r (·.role = .controlOutput)))
      (engine.invoke s host n) (engine.invoke (s.over r) host n) := by
  refine (Lockstep.getNode (ht.node? n)).bind fun node node' ⟨hnode, hcore⟩ => ?_
  have hkind : node'.kind = node.kind := (congrArg Node.kind hcore :)
  obtain ⟨d, haction, -⟩ := ht.addressable node hnode
  obtain ⟨decl, hdecl, hd⟩ := hkinds node hnode d haction
  obtain ⟨method, hmethod⟩ := Library.transparent hdecl hd
  rw [hkind, haction]
  refine (Lockstep.emit _).bind fun _ _ _ => ?_
  refine .running n ?_ (fun _ _ hmem => ?_) fun _ _ hmem => ?_
  · simp only [hmethod.behaviour]
    exact lockstep_invokeMethod ht he host hnode hcore haction hdecl hd hmethod.behaviour _
  · rw [hmem.running]
    exact hmem.of_running
  · rw [hmem.running]
    exact hmem.of_running

end Nodes

/-! ### Tasks -/

/-- An idle input is read without a trace, whatever carries out nested tasks. -/
theorem readsIdle_step (engine : Engine σ) (host : Host σ) {s : Setting}
    (hg : s.graph.WellFormed) : (Engine.step engine host).ReadsIdle s := by
  rintro t p ⟨a, ha, hrole, rfl, rfl, hsource, hdefault⟩ m hm
  have hvalue : s.coerce a (s.unconnected a) = a.port.decl.type.default := by
    have hnone : ((s.graph.node? a.node).bind fun n => n.defaults.get? a.port.key) = none := by
      cases hn : s.graph.node? a.node with
      | none => rfl
      | some n => exact hdefault n hn
    rw [Setting.unconnected, hnone, Option.getD_none]
    exact Value.convert_default s.hook _
  show engine.read s _ m = _
  unfold read
  show Exec.bind _ _ m = _
  simp only [Exec.bind, Exec.peek, Exec.inspect, hm]
  show Exec.bind _ _ m = _
  have hport := getPort_eq_ok.2 (hg.port?_portId ha)
  simp only [Exec.bind, Exec.ofGraph, hport, Except.mapError, Exec.ofExcept, hrole, hsource, hvalue]
  rfl

/-- Tasks over twins are carried out alike at every level. -/
theorem inStep_exec (ht : Twin s.graph r)
    (hkinds : ∀ m ∈ s.graph.nodes, ∀ d, m.kind = .action d → d.Standard) (host : Host σ) (n : Nat) :
    (exec host n).InStep s r := by
  induction n with
  | zero =>
    exact ⟨fun _ => .exhausted, fun _ => .exhausted, fun _ => .exhausted, .inl fun _ _ => rfl⟩
  | succ n ih =>
    exact ⟨fun hpq => lockstep_read ht ih hpq, fun m => lockstep_invoke ht ih host hkinds m,
      fun hpq => lockstep_follow ht ih hpq,
      .inr ⟨readsIdle_step _ host ht.original.wellFormed,
        readsIdle_step _ host ht.valid.wellFormed⟩⟩

end Engine

end EffectGraph
