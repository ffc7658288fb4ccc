import EffectGraph.Proofs.Exact
import EffectGraph.Proofs.Failures
import EffectGraph.Proofs.Memoizing
import EffectGraph.Proofs.Supervision

/-!
# Groups arrive as arrays

The arguments for the inputs of a node are pulled in the order of its signature
(`Engine.bindParams_input`, `Engine.bindInputs_input`), and the argument for a variadic group is an
array with one element for each slot. As no slot is memoized (`Graph.OutputsOnly`), the read of a
slot has the value of what the slot is connected to, or else the default
(`Setting.SlotValue.of_read`). The slots are listed by index from zero without gaps, so an induction
along the list reads each in its place (`Setting.Packs.of_readAll`). A body is given the array
itself. An inner graph has it from the output of Entry, to which it is converted once more. That
output has the array type of the group, so the array is bound as it is, if the direct conversions
end in the types asked for (`Engine.get?_of_bound`), but not otherwise
(`group_twice_converted_or_outdated`).
-/

namespace EffectGraph

open EffectGraph.Graph

variable {σ : Type}

/-! ## Pulling inputs -/

/-- The arguments for several declared inputs of a node are had one after another. -/
inductive Engine.Pulls (engine : Engine σ) (s : Setting) (n : NodeId) :
    List PortDecl → Machine σ → Machine σ → Prop
  | nil {m : Machine σ} : Pulls engine s n [] m m
  | cons {d : PortDecl} {ds : List PortDecl} {v : Value} {m m₁ m₂ : Machine σ}
    (hv : engine.argument s n d m = some (.ok v, m₁)) (h : Pulls engine s n ds m₁ m₂) :
    Pulls engine s n (d :: ds) m m₂

/-- Pulling keeps that only values of outputs are memoized. -/
theorem Engine.Pulls.outputsOnly {s : Setting} (hs : s.graph.Unwriting) {host : Host σ} {k : Nat}
    {n : NodeId} {ds : List PortDecl} {m m' : Machine σ} (h : (exec host k).Pulls s n ds m m')
    (hm : s.graph.OutputsOnly m.memory.scopes) : s.graph.OutputsOnly m'.memory.scopes := by
  induction h with
  | nil => exact hm
  | cons hv _ ih =>
    exact ih (Engine.upholds_argument (outputsOnly_exec hs host k) n _ _ _ _ hv hm).1

/-- The value of a slot of a group when the inputs of the node are pulled: that of the output that
it is connected to, or else its default, converted to the type of the group; or the default of the
type. -/
inductive Setting.SlotValue (s : Setting) (host : Host σ) (node : Node Definition) (c : PortDecl)
    (i : Nat) (m : Machine σ) : Value → Machine σ → Prop
  | connected {p x : PortId} {v : Value} {m' : Machine σ} (k : Nat)
    (hp : s.graph.input? node.id c.name (some i) = some p) (hx : s.graph.valueSource? p = some x)
    (hread : exec host k s (.read x) m = some (.ok v, m'))
    (hmemo : m'.memory.scopes.find? x = some v) :
    SlotValue s host node c i m (v.convert s.hook c.type) m'
  | defaulted {p : PortId} {v : Value} (hp : s.graph.input? node.id c.name (some i) = some p)
    (hx : s.graph.valueSource? p = none) (hv : node.defaults.get? ⟨c.name, some i⟩ = some v) :
    SlotValue s host node c i m (v.convert s.hook c.type) m
  | empty {p : PortId} (hp : s.graph.input? node.id c.name (some i) = some p)
    (hx : s.graph.valueSource? p = none) (hv : node.defaults.get? ⟨c.name, some i⟩ = none) :
    SlotValue s host node c i m c.type.default m

/-- The slots of a group from a place on, up to the last one, have their values in turn. -/
inductive Setting.Packs (s : Setting) (host : Host σ) (node : Node Definition) (c : PortDecl) :
    Nat → Machine σ → List Value → Machine σ → Prop
  | done {i : Nat} {m : Machine σ} (h : s.graph.input? node.id c.name (some i) = none) :
    Packs s host node c i m [] m
  | slot {i : Nat} {v : Value} {vs : List Value} {m m₁ m₂ : Machine σ}
    (hv : s.SlotValue host node c i m v m₁) (h : Packs s host node c (i + 1) m₁ vs m₂) :
    Packs s host node c i m (v :: vs) m₂

/-- An invocation of a node comes as far as its body, or as the inner graph of its kind, which is
given values by name: the arguments of the method, or what the outputs of Entry have. -/
inductive Setting.Reaches (s : Setting) (host : Host σ) (k : Nat) (node : Node Definition)
    (d : Definition) (m : Machine σ) : (String → Option Value) → Machine σ → Prop
  | body {b : Method} {args : Table String Value} {m' : Machine σ} (hb : d.behaviour = .method b)
    (hargs : (exec host k).bindParams s node b.params .empty (m.entering node.id d.name) =
      some (.ok args, m')) : Reaches s host k node d m args.get? m'
  | inner {inner : Graph Definition} {entry result : NodeId} {f frame : Frame} {m' : Machine σ}
    (hinner : d.behaviour = .generated inner) (hdepth : s.depth + 1 ≤ s.options.maxCallDepth)
    (hentry : inner.entryNode? = some entry) (hresult : inner.resultNode? = some result)
    (hinputs : (exec host k).bindInputs s node.id inner entry d.signature.inputs .empty
      (m.entering node.id d.name) = some (.ok f, m'))
    (hconsts : Engine.bindConsts s node inner entry d.signature.consts f = .ok frame) :
    Reaches s host k node d m (fun name => (inner.output? entry name).bind frame.get?) m'

/-- The body of an invocation is run on values by name, or the inner graph is followed from Entry,
whose outputs have the values; and this comes to an end. -/
inductive Setting.Performs (s : Setting) (host : Host σ) (k : Nat) (node : Node Definition)
    (d : Definition) : (String → Option Value) → Machine σ → Prop
  | body {b : Method} {args : Table String Value} {m : Machine σ} (hb : d.behaviour = .method b)
    (hrun : ∃ r, (exec host k).runProgram s host (b.body ⟨node.id, args, s.environment⟩) m =
      some r) : Performs s host k node d args.get? m
  | inner {inner : Graph Definition} {entry : NodeId} {frame : Frame} {m : Machine σ}
    (hinner : d.behaviour = .generated inner) (hentry : inner.entryNode? = some entry)
    (hrun : ∃ r, (exec host k).followEntry (s.child inner node.id) entry (.start frame) m =
      some r) : Performs s host k node d (fun name => (inner.output? entry name).bind frame.get?) m

variable {s : Setting} {host : Host σ} {k : Nat} {node : Node Definition} {d : Definition}
  {c : PortDecl} {m m' : Machine σ}

/-! ## Invocations -/

/-- An invocation that has reached the body or the inner graph goes on with it. -/
theorem Setting.Reaches.performs {given : String → Option Value} {m₁ m₂ : Machine σ}
    (hreaches : s.Reaches host k node d m given m₁) (hkind : node.kind = .action d)
    {r : Except FlowError (Option PortId)}
    (h : (exec host k).behave s host node.id node (m.entering node.id d.name) = some (r, m₂)) :
    s.Performs host k node d given m₁ := by
  simp only [Engine.behave, hkind] at h
  cases hreaches with
  | body hb hargs =>
    simp only [hb] at h
    rw [Engine.invokeMethod, Exec.bind_of_eq_ok hargs] at h
    exact .body hb (Exec.exists_of_bind h)
  | inner hinner hdepth hentry hresult hinputs hconsts =>
    simp only [hinner] at h
    rw [Engine.invokeGenerated, if_neg (Nat.not_lt_of_le hdepth), hentry, hresult] at h
    simp only [Exec.bind_of_eq_ok hinputs, hconsts, Exec.ofGraph_ok_bind] at h
    exact .inner hinner hentry (Exec.exists_of_bind h)

/-- An invocation that succeeds has reached the body or the inner graph. -/
theorem Setting.Reaches.of_behave (hkind : node.kind = .action d) {exit : Option PortId}
    (hbehave : (exec host k).behave s host node.id node (m.entering node.id d.name) =
      some (.ok exit, m')) : ∃ given m₁, s.Reaches host k node d m given m₁ := by
  simp only [Engine.behave, hkind] at hbehave
  cases hbehaviour : d.behaviour with
  | method b =>
    simp only [hbehaviour] at hbehave
    obtain ⟨args, m₂, hargs, -⟩ := Exec.bind_eq_ok.1 hbehave
    exact ⟨_, m₂, .body hbehaviour hargs⟩
  | generated inner =>
    simp only [hbehaviour] at hbehave
    have hdepth : s.depth + 1 ≤ s.options.maxCallDepth := by
      by_contra hdeep
      rw [Engine.invokeGenerated, if_pos (Nat.lt_of_not_le hdeep)] at hbehave
      simp [Exec.fail] at hbehave
    obtain ⟨entry, result, hentry, hresult, hbehave⟩ := invokeGenerated_opens hbehave
    obtain ⟨f, m₂, hinputs, hbehave⟩ := Exec.bind_eq_ok.1 hbehave
    obtain ⟨frame, m₃, hconsts, -⟩ := Exec.bind_eq_ok.1 hbehave
    exact ⟨_, m₂, .inner hbehaviour hdepth hentry hresult hinputs (Exec.ofGraph_eq_ok.1 hconsts).1⟩

namespace Engine

variable {engine : Engine σ}

/-! ## Arguments of methods -/

theorem pulls_of_bindParams {ps : List MethodParam} {args out : Table String Value}
    (h : engine.bindParams s node ps args m = some (.ok out, m')) :
    engine.Pulls s node.id (ps.filterMap (·.input?)) m m' ∧
      ∀ name, name ∉ ps.map (·.name) → out.get? name = args.get? name := by
  induction ps generalizing args m with
  | nil =>
    obtain ⟨rfl, rfl⟩ := Exec.pure_eq_ok.1 h
    exact ⟨.nil, fun _ _ => rfl⟩
  | cons p ps ih =>
    -- Other parameters than inputs are bound without a step.
    have hother : ∀ args', engine.bindParams s node ps args' m = some (.ok out, m') →
        p.input? = none → (∀ name, name ≠ p.name → args'.get? name = args.get? name) →
        engine.Pulls s node.id ((p :: ps).filterMap (·.input?)) m m' ∧
          ∀ name, name ∉ (p :: ps).map (·.name) → out.get? name = args.get? name := by
      intro args' hrest hinput hget
      obtain ⟨hpulls, hkept⟩ := ih hrest
      rw [List.filterMap_cons_none hinput]
      refine ⟨hpulls, fun name hname => ?_⟩
      obtain ⟨hne, hname⟩ := not_or.1 (mt List.mem_cons.2 hname)
      exact (hkept name hname).trans (hget name hne)
    cases p with
    | input e =>
      obtain ⟨v, m₁, hv, hrest⟩ := Exec.bind_eq_ok.1 h
      obtain ⟨hpulls, hkept⟩ := ih hrest
      refine ⟨.cons hv hpulls, fun name hname => ?_⟩
      obtain ⟨hne, hname⟩ := not_or.1 (mt List.mem_cons.2 hname)
      exact (hkept name hname).trans (by simp [show name ≠ e.name from hne])
    | const e => exact hother _ h rfl fun name hne => by simp [show name ≠ e.name from hne]
    | ambient n context => exact hother _ h rfl fun name hne => by simp [show name ≠ n from hne]
    | out e => exact hother _ h rfl fun _ _ => rfl
    | branch e => exact hother _ h rfl fun _ _ => rfl

/-- The argument for an input of a method is pulled after those before it and before the others. -/
theorem bindParams_input {ps : List MethodParam} (hnames : (ps.map (·.name)).Nodup)
    (hc : .input c ∈ ps) {args out : Table String Value}
    (h : engine.bindParams s node ps args m = some (.ok out, m')) :
    ∃ before after m₁ m₂ v, ps.filterMap (·.input?) = before ++ c :: after ∧
      engine.Pulls s node.id before m m₁ ∧ engine.argument s node.id c m₁ = some (.ok v, m₂) ∧
      engine.Pulls s node.id after m₂ m' ∧ out.get? c.name = some v := by
  induction ps generalizing args m with
  | nil => simp at hc
  | cons p ps ih =>
    obtain ⟨hhead, htail⟩ := List.nodup_cons.1 (List.map_cons ▸ hnames)
    rcases List.mem_cons.1 hc with rfl | hmem
    · obtain ⟨v, m₁, hv, hrest⟩ := Exec.bind_eq_ok.1 h
      obtain ⟨hpulls, hkept⟩ := pulls_of_bindParams hrest
      exact ⟨[], _, m, m₁, v, rfl, .nil, hv, hpulls, (hkept c.name hhead).trans (by simp)⟩
    · cases p with
      | input e =>
        obtain ⟨w, m₀, hw, hrest⟩ := Exec.bind_eq_ok.1 h
        obtain ⟨before, after, m₁, m₂, v, hsplit, hbefore, hrest⟩ := ih htail hmem hrest
        exact ⟨e :: before, after, m₁, m₂, v, congrArg (e :: ·) hsplit, .cons hw hbefore, hrest⟩
      | const | ambient | out | branch => exact ih htail hmem h

/-! ## What is bound to Entry -/

theorem pulls_of_bindInputs {inner : Graph Definition} {entry : NodeId} {ds : List PortDecl}
    {f f' : Frame} (h : engine.bindInputs s node.id inner entry ds f m = some (.ok f', m')) :
    engine.Pulls s node.id ds m m' ∧
      ∀ p, (∀ e ∈ ds, inner.output? entry e.name ≠ some p) → f'.get? p = f.get? p := by
  induction ds generalizing f m with
  | nil =>
    obtain ⟨rfl, rfl⟩ := Exec.pure_eq_ok.1 h
    exact ⟨.nil, fun _ _ => rfl⟩
  | cons e ds ih =>
    obtain ⟨v, m₁, hv, h⟩ := Exec.bind_eq_ok.1 h
    obtain ⟨r, m₂, hentry, hrest⟩ := Exec.bind_eq_ok.1 h
    obtain ⟨hr, rfl⟩ := Exec.ofGraph_eq_ok.1 hentry
    obtain ⟨hpulls, hkept⟩ := ih hrest
    refine ⟨.cons hv hpulls, fun p hp => ?_⟩
    rw [hkept p fun e' he' => hp e' (.tail _ he'), Table.get?_insert, if_neg]
    rintro rfl
    exact hp e (.head _) (entryPort_eq_ok.1 hr).1

theorem bindConsts_keeps {inner : Graph Definition} {entry : NodeId} {ds : List PortDecl}
    {f f' : Frame} (h : bindConsts s node inner entry ds f = .ok f') {p : PortId}
    (hp : ∀ e ∈ ds, inner.output? entry e.name ≠ some p) : f'.get? p = f.get? p := by
  induction ds generalizing f with
  | nil =>
    obtain rfl := Except.ok.inj h
    rfl
  | cons e ds ih =>
    obtain ⟨r, hr, h⟩ := bind_eq_ok.1 h
    rw [ih h fun e' he' => hp e' (.tail _ he'), Table.get?_insert, if_neg]
    rintro rfl
    exact hp e (.head _) (entryPort_eq_ok.1 hr).1

/-- The argument for an input of a generated node is pulled like that for an input of a method, and
bound to the output of Entry by the name. -/
theorem bindInputs_input {inner : Graph Definition} (hinner : inner.WellFormed) {entry : NodeId}
    {ds : List PortDecl} (hnames : (ds.map (·.name)).Nodup) (hc : c ∈ ds) {f f' : Frame}
    (h : engine.bindInputs s node.id inner entry ds f m = some (.ok f', m')) :
    ∃ before after m₁ m₂ v r, ds = before ++ c :: after ∧ engine.Pulls s node.id before m m₁ ∧
      engine.argument s node.id c m₁ = some (.ok v, m₂) ∧ engine.Pulls s node.id after m₂ m' ∧
      entryPort inner entry c.name = .ok r ∧ f'.get? r.1 = some (s.coerce r.2 v) := by
  induction ds generalizing f m with
  | nil => simp at hc
  | cons e ds ih =>
    obtain ⟨hhead, htail⟩ := List.nodup_cons.1 (List.map_cons ▸ hnames)
    obtain ⟨v, m₁, hv, h⟩ := Exec.bind_eq_ok.1 h
    obtain ⟨r, m₂, hentry, hrest⟩ := Exec.bind_eq_ok.1 h
    obtain ⟨hr, rfl⟩ := Exec.ofGraph_eq_ok.1 hentry
    rcases List.mem_cons.1 hc with rfl | hmem
    · obtain ⟨hpulls, hkept⟩ := pulls_of_bindInputs hrest
      refine ⟨[], ds, m, m₁, v, r, rfl, .nil, hv, hpulls, hr, ?_⟩
      rw [hkept r.1 fun e he hfound => ?_]
      · simp
      · have hname := hinner.output?_name_inj hfound (entryPort_eq_ok.1 hr).1
        exact hhead (hname ▸ List.mem_map_of_mem he)
    · obtain ⟨before, after, m₁', m₂', w, r', hsplit, hbefore, hafter⟩ := ih htail hmem hrest
      have hsplit' : e :: ds = (e :: before) ++ c :: after := congrArg (e :: ·) hsplit
      exact ⟨e :: before, after, m₁', m₂', w, r', hsplit', .cons hv hbefore, hafter⟩

end Engine

/-! ## Slots -/

section Group

variable (hg : s.graph.Valid []) (hs : s.graph.Unwriting) (hnode : node ∈ s.graph.nodes)
  (hkind : node.kind = .action d) (hdistinct : d.signature.Distinct)
  (hc : c ∈ d.signature.inputs) (hvariadic : c.isVariadic = true) (hvalue : c.isControl = false)

include hg hnode hkind hdistinct hc hvariadic hvalue

/-- A slot of the group is a value input of the node with the declaration of the group. -/
theorem Graph.Valid.exists_slot {i : Nat} {p : PortId}
    (hp : s.graph.input? node.id c.name (some i) = some p) :
    ∃ q ∈ node.inputs, q.decl = c ∧ q.slot = some i ∧ p = s.graph.portId q.index ∧
      s.graph.port? p = some ⟨node.id, .input, q⟩ ∧
      (PlacedPort.mk node.id .input q).role = .valueInput := by
  obtain ⟨a, ha, hside, hid, hkey, rfl⟩ := input?_eq_some hp
  obtain ⟨m, hm, hidm, hq⟩ := exists_of_input ha hside
  obtain rfl := hg.ascending.id_inj hm hnode (hidm.symm.trans hid)
  obtain ⟨hname, hslot⟩ := SlotKey.mk.inj hkey
  have hdistinct' : m.Distinct := by
    intro k hk
    obtain rfl : d = k := by simpa [hkind] using hk
    exact hdistinct
  have hdecl := (hg.shaped m hm List.not_mem_nil).formed.decl_of_slot hdistinct'
    ⟨d, hkind, hc, hvariadic⟩ hq hname (by simp [hslot])
  exact ⟨a.port, hq, hdecl, hslot, rfl, hg.wellFormed.port?_portId (input_mem_allPorts hm hq),
    (PlacedPort.role_eq_iff .input false).2 ⟨rfl, hdecl ▸ hvalue⟩⟩

/-- In a memory with values of outputs only the read of a slot has the value of the slot. -/
theorem Setting.SlotValue.of_read {i : Nat} {p : PortId} {v : Value}
    (hp : s.graph.input? node.id c.name (some i) = some p)
    (hm : s.graph.OutputsOnly m.memory.scopes)
    (h : exec host k s (.read p) m = some (.ok v, m')) : s.SlotValue host node c i m v m' := by
  obtain ⟨q, hq, rfl, hslot, rfl, hport, hrole⟩ :=
    hg.exists_slot hnode hkind hdistinct hc hvariadic hvalue hp
  have hmemo := hm.find?_input hg.wellFormed (input_mem_allPorts hnode hq) rfl
  obtain ⟨j, rfl, h⟩ := exec_eq_some h
  rcases Engine.read_input_eq_ok hport hrole hmemo h with
    ⟨x, w, hx, hread, rfl⟩ | ⟨hx, rfl, rfl⟩
  · obtain ⟨i, rfl, hstep⟩ := exec_eq_some hread
    obtain ⟨n, hn, r, hr, hvalue', rfl⟩ := hg.source_of_input hport hrole hx
    have hsource := hg.wellFormed.port?_portId (output_mem_allPorts hn hr)
    have houtput : (PlacedPort.mk n.id .output r).role = .valueOutput :=
      (PlacedPort.role_eq_iff .output false).2 ⟨rfl, hvalue'⟩
    exact .connected (i + 1) hp hx hread (Engine.read_output_eq_ok hsource houtput hstep)
  · have hkey : q.key = ⟨q.decl.name, some i⟩ := by rw [Port.key, hslot]
    rw [Setting.coerce, Setting.unconnected, node?_of_mem hg.ascending hnode, Option.bind_some,
      hkey]
    cases hdefault : node.defaults.get? ⟨q.decl.name, some i⟩ with
    | some w => exact .defaulted hp hx hdefault
    | none =>
      rw [Option.getD_none, Value.convert_default]
      exact .empty hp hx hdefault

include hs

/-- The slots of a group are read in turn. -/
theorem Setting.Packs.of_readAll {ps : List PortId} {i : Nat} {vs : List Value}
    (hps : ∀ j, ps[j]? = s.graph.input? node.id c.name (some (i + j)))
    (hm : s.graph.OutputsOnly m.memory.scopes)
    (h : (exec host k).readAll s ps m = some (.ok vs, m')) :
    s.Packs host node c i m vs m' ∧ vs.length = ps.length := by
  induction ps generalizing i m vs with
  | nil =>
    obtain ⟨rfl, rfl⟩ := Exec.pure_eq_ok.1 h
    exact ⟨.done (hps 0).symm, rfl⟩
  | cons p ps ih =>
    obtain ⟨v, m₁, hread, h⟩ := Exec.bind_eq_ok.1 h
    obtain ⟨ws, m₂, hrest, h⟩ := Exec.bind_eq_ok.1 h
    obtain ⟨rfl, rfl⟩ := Exec.pure_eq_ok.1 h
    have hv := SlotValue.of_read hg hnode hkind hdistinct hc hvariadic hvalue (hps 0).symm hm hread
    have hm₁ := (outputsOnly_exec hs host k (.read p) m _ m₁ hread hm).1
    have hps' : ∀ j, ps[j]? = s.graph.input? node.id c.name (some (i + 1 + j)) := fun j => by
      rw [Nat.add_right_comm, Nat.add_assoc, ← hps]
      rfl
    obtain ⟨hpacks, hlength⟩ := ih hps' hm₁ hrest
    exact ⟨.slot hv hpacks, congrArg (· + 1) hlength⟩

end Group

/-- What is packed belongs to the type of the group if the direct conversions end in the types asked
for. -/
theorem Setting.Packs.belongsTo (hhook : s.hook.Conforming) {i : Nat} {vs : List Value}
    (h : s.Packs host node c i m vs m') : ∀ v ∈ vs, v.belongsTo c.type = true := by
  induction h with
  | done => simp
  | slot hv _ ih =>
    refine List.forall_mem_cons.2 ⟨?_, ih⟩
    cases hv with
    | connected | defaulted => exact Value.convert_belongsTo hhook _ _
    | empty => exact c.type.default_belongsTo

/-! ## Inner graphs -/

theorem Definition.Built.generated_names {d : Definition} (h : d.Built) {inner : Graph Definition}
    (hinner : d.behaviour = .generated inner) : inner.signature = some d.signature ∧
      ((d.signature.inputs ++ d.signature.consts).map (·.name)).Nodup := by
  induction h with
  | method h =>
    obtain ⟨body, -, -, rfl⟩ := define_eq_ok.1 h
    exact nomatch hinner
  | generated h =>
    obtain ⟨g, hg, rfl, hnames⟩ := generated_eq_ok h
    obtain rfl := Behaviour.generated.inj hinner
    exact ⟨setSignature_signature hg, hnames⟩
  | obsoleteNames _ _ ih => exact ih hinner
  | obsoleteMessage _ _ ih => exact ih hinner

section Inner

variable {inner : Graph Definition} (hinner : inner.Valid []) {sig : Signature}
  (hsignature : inner.signature = some sig)
  (hnames : ((sig.inputs ++ sig.consts).map (·.name)).Nodup) (hc : c ∈ sig.inputs)
  (hexit : c.name ≠ exitName) {entry : NodeId} (hentry : inner.entryNode? = some entry)

include hinner hsignature hnames hc hexit hentry

/-- Under the name of a declared input the Entry of an inner graph has the output for it. -/
theorem Engine.decl_of_entryPort {r : PortId × PlacedPort}
    (hr : Engine.entryPort inner entry c.name = .ok r) : r.2.port.decl = c.packed := by
  obtain ⟨x, port⟩ := r
  obtain ⟨hp, hport⟩ := Engine.entryPort_eq_ok.1 hr
  obtain ⟨e, he, rfl, hkind⟩ := mem_of_entryNode? hentry
  obtain ⟨t, ht, hside, hid, hname, rfl⟩ := output?_eq_some hp
  obtain rfl := Option.some.inj ((hinner.wellFormed.port?_portId ht).symm.trans hport)
  obtain ⟨m, hm, hidm, hq⟩ := exists_of_output ht hside
  obtain rfl := hinner.ascending.id_inj hm he (hidm.symm.trans hid)
  have hspec : t.port.spec ∈ inner.wantedOutputs m :=
    (hinner.shaped m hm List.not_mem_nil).outputs ▸ List.mem_map_of_mem hq
  simp only [wantedOutputs, hkind, hsignature, Option.elim_some] at hspec
  rcases List.mem_cons.1 hspec with hcontrol | hspec
  · have hdecl : t.port.decl = .control exitName := congrArg PortSpec.decl hcontrol
    exact absurd (hname.symm.trans (congrArg PortDecl.name hdecl)) hexit
  · obtain ⟨e', he', hspec⟩ := List.mem_map.1 hspec
    obtain rfl : e' = t.port.decl := congrArg PortSpec.decl hspec
    have hnames' : ((sig.inputs.map (·.packed) ++ sig.consts).map (·.name)).Nodup := by
      simpa [Function.comp_def] using hnames
    have hpacked : c.packed ∈ sig.inputs.map (·.packed) ++ sig.consts :=
      List.mem_append_left _ (List.mem_map_of_mem hc)
    exact List.inj_on_of_nodup_map hnames' he' hpacked (hname.trans c.packed_name.symm)

/-- An array of values of the type of a group is bound to Entry as it is, and the other inputs and
the constants leave it there. -/
theorem Engine.get?_of_bound (hvariadic : c.isVariadic = true)
    {f frame : Frame} (hconsts : Engine.bindConsts s node inner entry sig.consts f = .ok frame)
    {r : PortId × PlacedPort} (hr : Engine.entryPort inner entry c.name = .ok r) {vs : List Value}
    (hvs : ∀ v ∈ vs, v.belongsTo c.type = true)
    (hf : f.get? r.1 = some (s.coerce r.2 (.array vs))) :
    (inner.output? entry c.name).bind frame.get? = some (.array vs) := by
  have hp := (Engine.entryPort_eq_ok.1 hr).1
  have hother : ∀ e ∈ sig.consts, inner.output? entry e.name ≠ some r.1 := by
    intro e he hfound
    have hname := hinner.wellFormed.output?_name_inj hp hfound
    rw [List.map_append] at hnames
    exact (List.nodup_append.1 hnames).2.2 _ (List.mem_map_of_mem hc) _ (List.mem_map_of_mem he)
      hname
  have hdecl := Engine.decl_of_entryPort hinner hsignature hnames hc hexit hentry hr
  have htype : r.2.port.decl.type = .array c.type := by
    rw [hdecl, PortDecl.packed, if_pos hvariadic]
  have hbelongs : (Value.array vs).belongsTo (.array c.type) = true := by
    rw [Value.belongsTo, List.all_eq_true]
    exact hvs
  rw [hp, Option.bind_some, Engine.bindConsts_keeps hconsts hother, hf, Setting.coerce, htype,
    Value.convert_of_belongsTo hbelongs]

end Inner

/-! ## Packing -/

theorem Engine.argument_eq_ok {engine : Engine σ} {n : NodeId} (hvariadic : c.isVariadic = true)
    {v : Value} (h : engine.argument s n c m = some (.ok v, m')) :
    ∃ vs, v = .array vs ∧
      engine.readAll s (s.graph.variadicSlots n c.name) m = some (.ok vs, m') := by
  rw [Engine.argument, if_pos hvariadic] at h
  obtain ⟨vs, m₁, hread, h⟩ := Exec.bind_eq_ok.1 h
  obtain ⟨rfl, rfl⟩ := Exec.pure_eq_ok.1 h
  exact ⟨vs, rfl, hread⟩

/-- The inputs before the group are pulled, then the slots of the group in turn, then the other
inputs; and the body or the inner graph is given the array of what the slots have. -/
theorem Setting.Reaches.packs (hg : Reachable Definition.Built s.graph) (hs : s.graph.Unwriting)
    (hnode : node ∈ s.graph.nodes) (hkind : node.kind = .action d) (hc : c ∈ d.signature.inputs)
    (hvariadic : c.isVariadic = true) (hvalue : c.isControl = false)
    (hgenerated : ∀ inner, d.behaviour = .generated inner →
      (∃ K, Reachable K inner) ∧ c.name ≠ exitName ∧ s.hook.Conforming)
    {given : String → Option Value} (h : s.Reaches host k node d m given m')
    (hm : s.graph.OutputsOnly m.memory.scopes) :
    ∃ before after m₁ m₂ vs, d.signature.inputs = before ++ c :: after ∧
      (exec host k).Pulls s node.id before (m.entering node.id d.name) m₁ ∧
      s.Packs host node c 0 m₁ vs m₂ ∧ (exec host k).Pulls s node.id after m₂ m' ∧
      given c.name = some (.array vs) ∧
      vs.length = (s.graph.variadicSlots node.id c.name).length := by
  have hbuilt : d.Built := (hg.invariant.2 node hnode).1 d hkind
  have hslots := ((hg.valid.shaped node hnode List.not_mem_nil).variadicSlots hkind hc hvariadic
    hbuilt.distinct hg.valid.ascending hnode).2.2
  have hpacks : ∀ {m₁ m₂ v before}, (exec host k).Pulls s node.id before
      (m.entering node.id d.name) m₁ → (exec host k).argument s node.id c m₁ = some (.ok v, m₂) →
      ∃ vs, v = .array vs ∧ s.Packs host node c 0 m₁ vs m₂ ∧
        vs.length = (s.graph.variadicSlots node.id c.name).length := by
    intro m₁ m₂ v before hbefore hv
    obtain ⟨vs, rfl, hread⟩ := Engine.argument_eq_ok hvariadic hv
    have hm₁ := hbefore.outputsOnly hs hm
    exact ⟨vs, rfl, Packs.of_readAll hg.valid hs hnode hkind hbuilt.distinct hc hvariadic hvalue
      (fun j => by rw [Nat.zero_add, hslots]) hm₁ hread⟩
  cases h with
  | @body b args _ hb hargs =>
    obtain ⟨hinputs, hnames⟩ := hbuilt.method_inputs hb
    have hparam : .input c ∈ b.params := by
      obtain ⟨p, hp, hpc⟩ := List.mem_filterMap.1 (hinputs ▸ hc)
      cases p <;> simp_all [MethodParam.input?]
    obtain ⟨before, after, m₁, m₂, v, hsplit, hbefore, hv, hafter, hget⟩ :=
      Engine.bindParams_input hnames hparam hargs
    obtain ⟨vs, rfl, hpacked, hlength⟩ := hpacks hbefore hv
    exact ⟨before, after, m₁, m₂, vs, hinputs.trans hsplit, hbefore, hpacked, hafter, hget, hlength⟩
  | @inner inner entry result f frame _ hinner _ hentry _ hinputs hconsts =>
    obtain ⟨⟨K, hreach⟩, hexit, hhook⟩ := hgenerated inner hinner
    obtain ⟨hsignature, hnames⟩ := hbuilt.generated_names hinner
    obtain ⟨before, after, m₁, m₂, v, r, hsplit, hbefore, hv, hafter, hr, hget⟩ :=
      Engine.bindInputs_input hreach.valid.wellFormed hbuilt.distinct hc hinputs
    obtain ⟨vs, rfl, hpacked, hlength⟩ := hpacks hbefore hv
    refine ⟨before, after, m₁, m₂, vs, hsplit, hbefore, hpacked, hafter, ?_, hlength⟩
    exact Engine.get?_of_bound hreach.valid hsignature hnames hc hexit hentry hvariadic hconsts
      hr (hpacked.belongsTo hhook) hget

/-- Variadic arguments are packed faithfully. In a flow over a reachable graph whose methods memoize
no values of their own, memory holds values of outputs only: after requests that memoize none, after
every task, and at the start of every flow that is opened for a generated node. In such a memory,
whenever an invocation of a node with a variadic group of values comes as far as its body or its
inner graph, as it does whenever it succeeds, it is given an array under the name of the group, and
this is what the body or the inner graph is run on. The array has one element for each slot, in
order, the value of that slot, had after the inputs before the group and before those after it: the
value that the output to which the slot is connected has when the slot is read, or else its default,
each converted to the type of the group, or else the default of the type. If the group shows no
slots but those that it has to, their number follows from the highest slot in use. For a generated
kind the group is not to be named as the control output of Entry is, and direct conversions are to
end in the types asked for. -/
theorem groups_packed (hg : Reachable Definition.Built s.graph) (hs : s.graph.Unwriting)
    (host : Host σ) (hnode : node ∈ s.graph.nodes) (hkind : node.kind = .action d)
    (hc : c ∈ d.signature.inputs) (hvariadic : c.isVariadic = true) (hvalue : c.isControl = false)
    (hgenerated : ∀ inner, d.behaviour = .generated inner →
      (∃ K, Reachable K inner) ∧ c.name ≠ exitName ∧ s.hook.Conforming) :
    (∀ m, Visited s host m → s.graph.OutputsOnly m.memory.scopes) ∧
    (∀ k t m r m', exec host k s t m = some (r, m') → s.graph.OutputsOnly m.memory.scopes →
      s.graph.OutputsOnly m'.memory.scopes) ∧
    (∀ k inner entry f frame m m', (exec host k).bindInputs s node.id inner entry d.signature.inputs
        .empty m = some (.ok f, m') →
      Engine.bindConsts s node inner entry d.signature.consts f = .ok frame →
      inner.OutputsOnly (Memory.start frame).scopes) ∧
    (∀ k m r m', exec host (k + 1) s (.invoke node.id) m = some (r, m') →
      (∀ exit, r = .ok exit → ∃ given m₁, s.Reaches host k node d m given m₁) ∧
      ∀ given m₁, s.Reaches host k node d m given m₁ → s.Performs host k node d given m₁) ∧
    (∀ i, (s.graph.variadicSlots node.id c.name)[i]? = s.graph.input? node.id c.name (some i)) ∧
    ∀ k m given m', s.graph.OutputsOnly m.memory.scopes → s.Reaches host k node d m given m' →
      ∃ before after m₁ m₂ vs, d.signature.inputs = before ++ c :: after ∧
        (exec host k).Pulls s node.id before (m.entering node.id d.name) m₁ ∧
        s.Packs host node c 0 m₁ vs m₂ ∧ (exec host k).Pulls s node.id after m₂ m' ∧
        given c.name = some (.array vs) ∧
        vs.length = (s.graph.variadicSlots node.id c.name).length ∧
        (s.graph.SettledAt node c →
          (∀ h, s.graph.SlotInUse node c.name h → (∀ i, s.graph.SlotInUse node c.name i → i ≤ h) →
            vs.length = min (h + 2) 256) ∧
          ((∀ i, ¬s.graph.SlotInUse node c.name i) → vs.length = 1)) := by
  have hbuilt : d.Built := (hg.invariant.2 node hnode).1 d hkind
  have hslots := ((hg.valid.shaped node hnode List.not_mem_nil).variadicSlots hkind hc hvariadic
    hbuilt.distinct hg.valid.ascending hnode).2.2
  refine ⟨fun m hm => hm.outputsOnly hs, fun k t m r m' h => fun hm => ?_,
    fun k inner entry f frame m m' hinputs hconsts => outputsOnly_base hinputs hconsts,
    fun k m r m' h => ?_, hslots, fun k m given m' hm h => ?_⟩
  · exact (outputsOnly_exec hs host k t m r m' h hm).1
  · obtain ⟨m₂, hbehave, -⟩ :=
      Engine.invoke_eq_some (node?_of_mem hg.valid.ascending hnode)
        (h : (exec host k).invoke s host node.id m = _)
    rw [hkind] at hbehave
    refine ⟨?_, fun given m₁ hreaches => hreaches.performs hkind hbehave⟩
    rintro exit rfl
    exact Setting.Reaches.of_behave hkind hbehave
  · obtain ⟨before, after, m₁, m₂, vs, hsplit, hbefore, hpacks, hafter, hgiven, hlength⟩ :=
      h.packs hg hs hnode hkind hc hvariadic hvalue hgenerated hm
    refine ⟨before, after, m₁, m₂, vs, hsplit, hbefore, hpacks, hafter, hgiven, hlength,
      fun hsettled => ?_⟩
    have hexact := settledAt_iff_exactAt hg.valid.ascending hnode (hg.invariant.2 node hnode).2 c
    rw [hlength]
    exact hexact.1 hsettled

/-! ## A gap -/

/-- A generated kind with a group. -/
def Signature.collect : Signature where
  name := "Collect"
  inputs := [.variadic "values" .int]
  consts := []
  outputs := [.value "total" .int]

def collectBody : Graph Definition := (Edit.setSignature .collect).perform (.empty 1 .standard)

def Definition.collect : Definition where
  signature := .collect
  obsoleteNames := []
  obsoleteMessage := none
  behaviour := .generated ((Edit.setSignature .collect).perform collectBody)

/-- A node with a group of integers, of which the second is connected and the third is given as a
numeral; the default of the first has been taken back. -/
def gapEdits (kind : Definition) : List (Edit Definition) :=
  [.addNode (.action Library.integer.kind), .addNode (.action kind),
    .setConst ⟨1⟩ "value" (.int 5), .setDefault ⟨2⟩ ⟨"values", some 0⟩ (.int 9),
    .connect ⟨0, 2⟩ ⟨0, 7⟩, .setDefault ⟨2⟩ ⟨"values", some 2⟩ (.string "7"),
    .clearDefault ⟨2⟩ ⟨"values", some 0⟩]

def gappedFlow (kind : Definition) : Setting :=
  .top ((gapEdits kind).foldl Edit.perform (.empty 0 .standard)) .empty ⟨32, true⟩ .standard

theorem reachable_gappedFlow {kind : Definition} (hkind : kind.Made) :
    Reachable Definition.Made (gappedFlow kind).graph := by
  have hinteger : Library.integer.kind.Made :=
    Definition.Standard.made ⟨Library.integer, by simp [Library.declarations], rfl⟩
  simp only [gappedFlow, Setting.top]
  refine .foldl (fun e he k hk => ?_) (.blank 0 .standard)
  simp only [gapEdits, List.mem_cons, List.not_mem_nil, or_false] at he
  rcases he with rfl | rfl | rfl | rfl | rfl | rfl | rfl
  · obtain rfl := Option.some.inj hk
    exact hinteger
  · obtain rfl := Option.some.inj hk
    exact hkind
  all_goals simp [Edit.offers] at hk

/-- The node with the group. -/
def gappedNode (kind : Definition) : Node Definition where
  id := ⟨2⟩
  kind := .action kind
  inputs := [⟨3, .control enterName, none⟩, ⟨4, .variadic "values" .int, some 0⟩,
    ⟨7, .variadic "values" .int, some 1⟩, ⟨8, .variadic "values" .int, some 2⟩,
    ⟨9, .variadic "values" .int, some 3⟩]
  outputs := [⟨5, .control exitName, none⟩,
    ⟨6, kind.signature.outputs.head?.getD (.control ""), none⟩]
  consts := .empty
  defaults := (Table.empty : Table SlotKey Value).insert ⟨"values", some 2⟩ (.string "7")
  position := .origin
  held := .empty

/-- An invocation of the node in a new flow is given an array of the values of its slots. -/
def Definition.Gathers (kind : Definition) (vs : List Value) : Prop :=
  ∃ given m₁ m₂ m', (gappedFlow kind).Reaches nullHost 5 (gappedNode kind) kind
      ⟨.start .empty, [], ()⟩ given m' ∧
    given "values" = some (.array vs) ∧
    (gappedFlow kind).Packs nullHost (gappedNode kind) (.variadic "values" .int) 0 m₁ vs m₂

/-- The node is given four values, whether it is of a method kind or of a generated kind. -/
theorem groups_packed_gapped :
    Library.integerOperation.kind.Gathers [.int 0, .int 5, .int 7, .int 0] ∧
      Definition.collect.Gathers [.int 0, .int 5, .int 7, .int 0] := by
  have hgathers : ∀ {kind : Definition} {given : String → Option Value} {vs : List Value}
      {m' : Machine Unit}, kind.Made → gappedNode kind ∈ (gappedFlow kind).graph.nodes →
      .variadic "values" .int ∈ kind.signature.inputs →
      (∀ inner, kind.behaviour = .generated inner → ∃ K, Reachable K inner) →
      (gappedFlow kind).Reaches nullHost 5 (gappedNode kind) kind ⟨.start .empty, [], ()⟩ given m' →
      given "values" = some (.array vs) → kind.Gathers vs := by
    intro kind given vs m' hmade hnode hc hgenerated hreaches hget
    have hreachable := reachable_gappedFlow hmade
    obtain ⟨-, -, -, -, -, hpacked⟩ := groups_packed (hreachable.mono fun _ h => h.built)
      hreachable.unwriting nullHost hnode rfl hc rfl rfl fun inner hinner =>
        ⟨hgenerated inner hinner, by decide, ConversionHook.conforming_standard⟩
    obtain ⟨-, -, m₁, m₂, ws, -, -, hpacks, -, hgiven, -⟩ := hpacked 5 _ _ _ .empty hreaches
    obtain rfl : vs = ws := Value.array.inj (Option.some.inj (hget.symm.trans hgiven))
    exact ⟨_, m₁, m₂, m', hreaches, hget, hpacks⟩
  constructor
  · have hmade : Library.integerOperation.kind.Made :=
      Definition.Standard.made ⟨Library.integerOperation, by simp [Library.declarations], rfl⟩
    have hmethod : ∀ inner, Library.integerOperation.kind.behaviour = .generated inner →
        ∃ K, Reachable K inner := by
      rintro _ ⟨⟩
    have hrun : (((exec nullHost 5).bindParams (gappedFlow Library.integerOperation.kind)
        (gappedNode Library.integerOperation.kind) Library.integerOperation.params .empty
        (Machine.entering ⟨.start .empty, [], ()⟩ ⟨2⟩ "IntegerOperation")).map fun r =>
          r.1.toOption.bind (·.get? "values")) =
        some (some (.array [.int 0, .int 5, .int 7, .int 0])) := by
      decide +kernel
    obtain ⟨⟨r, m'⟩, hargs, hget⟩ := Option.map_eq_some_iff.1 hrun
    cases r with
    | error e => simp [Except.toOption] at hget
    | ok args =>
      exact hgathers hmade (List.mem_cons_of_mem _ (List.mem_singleton.2 rfl))
        (List.mem_singleton.2 rfl) hmethod (.body rfl hargs) hget
  · have hinner : Reachable Definition.Made collectBody :=
      .edited _ (by simp [Edit.offers]) (.blank 1 .standard)
    have hmade : Definition.collect.Made := .generated (s := .collect) (g := collectBody) rfl hinner
    have hgenerated : ∀ inner, Definition.collect.behaviour = .generated inner →
        ∃ K, Reachable K inner := by
      rintro _ ⟨⟩
      exact ⟨_, .edited _ (by simp [Edit.offers]) hinner⟩
    have hresult : ((Edit.setSignature .collect).perform collectBody).resultNode? = some ⟨2⟩ := rfl
    have hrun : (((exec nullHost 5).bindInputs (gappedFlow .collect) ⟨2⟩
        ((Edit.setSignature .collect).perform collectBody) ⟨1⟩ Signature.collect.inputs .empty
        (Machine.entering ⟨.start .empty, [], ()⟩ ⟨2⟩ "Collect")).map fun r =>
          r.1.toOption.bind fun f => (((Edit.setSignature .collect).perform collectBody).output?
            ⟨1⟩ "values").bind f.get?) =
        some (some (.array [.int 0, .int 5, .int 7, .int 0])) := by
      decide +kernel
    obtain ⟨⟨r, m'⟩, hinputs, hget⟩ := Option.map_eq_some_iff.1 hrun
    cases r with
    | error e => simp [Except.toOption] at hget
    | ok f =>
      exact hgathers hmade (List.mem_cons_of_mem _ (List.mem_singleton.2 rfl))
        (List.mem_singleton.2 rfl) hgenerated (.inner rfl (by decide) rfl hresult hinputs rfl) hget

/-! ## Twice converted, and outdated -/

/-- Direct conversions that mark texts where integers are asked for, and leave them texts. -/
def ConversionHook.marking : ConversionHook where
  convert?
    | .string s, .int => some (.string (s ++ "!"))
    | _, _ => none
  canConvert a b := a = .string && b = .int

/-- A node of a generated kind with a text for the first integer of its group. -/
def markedFlow : Setting :=
  .top ([.addNode (.action .collect), .setDefault ⟨1⟩ ⟨"values", some 0⟩ (.string "7")].foldl
    Edit.perform (.empty 0 .standard)) .empty ⟨32, true⟩ .marking

/-- That node. -/
def markedNode : Node Definition where
  id := ⟨1⟩
  kind := .action .collect
  inputs := [⟨0, .control enterName, none⟩, ⟨1, .variadic "values" .int, some 0⟩,
    ⟨4, .variadic "values" .int, some 1⟩]
  outputs := [⟨2, .control exitName, none⟩, ⟨3, .value "total" .int, none⟩]
  consts := .empty
  defaults := (Table.empty : Table SlotKey Value).insert ⟨"values", some 0⟩ (.string "7")
  position := .origin
  held := .empty

/-- A kind with the answer of the host as its value. -/
def MethodDecl.tick : MethodDecl where
  name := "Tick"
  returns := some .int
  body := some fun _ => .ask (.consult .null) fun v => .pure (.ok (.returning v))

/-- A kind whose nodes run the first node of the graph. -/
def MethodDecl.again : MethodDecl where
  name := "Again"
  returns := some .int
  body := some fun _ => .ask (.runNode ⟨1⟩) fun _ => .pure (.ok (.returning (.int 0)))

/-- A host that counts how often it is consulted. -/
def countingHost : Host Nat := fun _ n => (.int (.ofNat (n + 1)), n + 1)

/-- A node with a group in which the value of a counting node comes before that of a node that runs
the counting one again. -/
def againFlow : Setting :=
  .top ([.addNode (.action MethodDecl.tick.kind), .addNode (.action MethodDecl.again.kind),
    .addNode (.action .gather), .connect ⟨0, 2⟩ ⟨0, 7⟩, .connect ⟨0, 5⟩ ⟨0, 10⟩].foldl
    Edit.perform (.empty 0 .standard)) .empty ⟨32, true⟩ .standard

/-- An inner graph is given a group whose values have been converted twice, which shows if direct
conversions do not end in the types asked for. And a body is given the values that the connected
outputs had when the slots were read, which may not be those that they have when it starts. -/
theorem group_twice_converted_or_outdated :
    (∃ given m₁ m₂ m', markedFlow.graph.nodes = [markedNode] ∧
      markedFlow.Reaches nullHost 5 markedNode .collect ⟨.start .empty, [], ()⟩ given m' ∧
      markedFlow.Packs nullHost markedNode (.variadic "values" .int) 0 m₁
        [.string "7!", .int 0] m₂ ∧
      given "values" = some (.array [.string "7!!", .int 0])) ∧
    ∃ node given m', againFlow.graph.node? ⟨3⟩ = some node ∧
      againFlow.Reaches countingHost 12 node .gather ⟨.start .empty, [], 0⟩ given m' ∧
      given "items" = some (.array [.int 1, .int 0, .null]) ∧
      againFlow.graph.valueSource? ⟨0, 7⟩ = some ⟨0, 2⟩ ∧
      m'.memory.scopes.find? ⟨0, 2⟩ = some (.int 2) := by
  constructor
  · have hresult : ((Edit.setSignature .collect).perform collectBody).resultNode? = some ⟨2⟩ := rfl
    have hrun : (((exec nullHost 5).bindInputs markedFlow ⟨1⟩
        ((Edit.setSignature .collect).perform collectBody) ⟨1⟩ Signature.collect.inputs .empty
        (Machine.entering ⟨.start .empty, [], ()⟩ ⟨1⟩ "Collect")).map fun r =>
          r.1.toOption.bind fun f => (((Edit.setSignature .collect).perform collectBody).output?
            ⟨1⟩ "values").bind f.get?) =
        some (some (.array [.string "7!!", .int 0])) := by
      decide +kernel
    obtain ⟨⟨r, m'⟩, hinputs, hget⟩ := Option.map_eq_some_iff.1 hrun
    cases r with
    | error e => simp [Except.toOption] at hget
    | ok f =>
      let m : Machine Unit := ⟨.start .empty, [], ()⟩
      have hmarked : Value.convert .marking .int (.string "7") = .string "7!" := by decide
      have hslot : markedFlow.SlotValue nullHost markedNode (.variadic "values" .int) 0 m
          (.string "7!") m := by
        rw [← hmarked]
        exact .defaulted (p := ⟨0, 1⟩) rfl rfl rfl
      exact ⟨_, m, m, m', rfl, .inner rfl (by decide) rfl hresult hinputs rfl,
        .slot hslot (.slot (.empty (p := ⟨0, 4⟩) rfl rfl rfl) (.done rfl)), hget⟩
  · have hrun : ((againFlow.graph.node? ⟨3⟩).bind fun node =>
        ((exec countingHost 12).bindParams againFlow node MethodDecl.gather.params .empty
          (Machine.entering ⟨.start .empty, [], 0⟩ ⟨3⟩ "Gather")).map fun r =>
            (r.1.toOption.bind (·.get? "items"), r.2.memory.scopes.find? ⟨0, 2⟩)) =
        some (some (.array [.int 1, .int 0, .null]), some (.int 2)) := by
      decide +kernel
    obtain ⟨node, hnode, hrun⟩ := Option.bind_eq_some_iff.1 hrun
    obtain ⟨⟨r, m'⟩, hargs, hend⟩ := Option.map_eq_some_iff.1 hrun
    obtain ⟨hget, hmemo⟩ := Prod.mk.inj hend
    cases r with
    | error e => simp [Except.toOption] at hget
    | ok args =>
      have hid : node.id = ⟨3⟩ := (node?_mem hnode).2
      have hreaches : againFlow.Reaches countingHost 12 node .gather ⟨.start .empty, [], 0⟩
          args.get? m' := .body rfl (by rw [hid]; exact hargs)
      exact ⟨node, _, m', hnode, hreaches, hget, rfl, hmemo⟩

end EffectGraph
