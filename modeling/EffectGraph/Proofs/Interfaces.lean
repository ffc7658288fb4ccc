import EffectGraph.Proofs.Failures

/-!
# The ports of generated kinds

A node of a generated kind is joined to its inner graph by names: its inputs and constants are
written to the outputs of Entry, and its outputs are had from the inputs of Return. If the names of
the signature are unambiguous (`Signature.Unambiguous`) every port on both sides is found under its
name, and only then (`unambiguous_iff_finds`); a read of an output fails only as other nodes do, for
a cycle, or for the depth of nested flows (`Setting.Origin`). Only some of the names are compared
when a kind is made, so that kinds are accepted whose outputs cannot be read.
-/

namespace EffectGraph

open EffectGraph.Graph

/-! ## Finding ports -/

/-- Every port of a node is the one that is found under its name, and a slot of a group the one that
stands at its place in the group. -/
structure Graph.Finds (g : Graph Definition) (n : Node Definition) : Prop where
  inputs : ∀ p ∈ n.inputs, g.input? n.id p.decl.name p.slot = some (g.portId p.index)
  slots : ∀ p ∈ n.inputs, ∀ i, p.slot = some i →
    (g.variadicSlots n.id p.decl.name)[i]? = some (g.portId p.index)
  outputs : ∀ p ∈ n.outputs, g.output? n.id p.decl.name = some (g.portId p.index)

/-- The names of a signature tell the ports of a generated kind apart, together with the difference
of the names of inputs and constants: no port has the name of the control output; an input carries a
value, and has the name of the control input only if it is a group; outputs do not have it, and have
different names. -/
structure Signature.Unambiguous (s : Signature) : Prop where
  values : ∀ c ∈ s.inputs, c.isControl = false
  enter : ∀ c ∈ s.inputs, c.isVariadic = false → c.name ≠ enterName
  exit : ∀ c ∈ s.inputs ++ s.consts ++ s.outputs, c.name ≠ exitName
  result : ∀ c ∈ s.outputs, c.name ≠ enterName
  outputs : (s.outputs.map (·.name)).Nodup

namespace Graph

variable {g : Graph Definition} {n : Node Definition}

theorem Valid.finds (hg : g.Valid []) (hn : n ∈ g.nodes) (hdistinct : n.Distinct)
    (hinputs : (n.inputs.map Port.key).Nodup) (houtputs : (n.outputs.map (·.decl.name)).Nodup) :
    g.Finds n := by
  refine ⟨fun p hp => input?_of_nodup hg.ascending hn hinputs hp, fun p hp i hi => ?_,
    fun p hp => output?_of_nodup hg.ascending hn houtputs hp⟩
  have hshaped := hg.shaped n hn List.not_mem_nil
  obtain ⟨w, hw, -⟩ := hshaped.inputs
  obtain ⟨-, k, hkind, hdecl, hvariadic⟩ :=
    mem_inputShape (hw ▸ List.mem_map_of_mem hp : p.spec ∈ g.inputShape n w) hi
  obtain ⟨v, -, -, hspecs⟩ :=
    hshaped.exists_width (d := p.decl) hkind hdecl hvariadic (hdistinct k hkind)
  have hslots : g.variadicSlots n.id p.decl.name = (n.inputs.filter fun q =>
      q.decl.name = p.decl.name && q.slot.isSome).map fun q => g.portId q.index := by
    simp only [Graph.variadicSlots, node?_of_mem hg.ascending hn]
  obtain ⟨j, hj⟩ := List.getElem?_of_mem (List.mem_filter.2 ⟨hp, by simp [hi]⟩ :
    p ∈ n.inputs.filter fun q => q.decl.name = p.decl.name && q.slot.isSome)
  -- The port stands where its slot says.
  have hspec := congrArg (·[j]?) hspecs
  simp only [List.getElem?_map, hj, Option.map_some] at hspec
  obtain ⟨i', hi', he⟩ := Option.map_eq_some_iff.1 hspec.symm
  obtain ⟨hlt, rfl⟩ := List.getElem?_eq_some_iff.1 hi'
  have hji : j = i := by simpa [Port.spec, hi] using congrArg PortSpec.slot he
  rw [hslots, List.getElem?_map, ← hji, hj, Option.map_some]

/-- Under the signature of a generated kind, Entry and Return find their ports. -/
theorem Valid.finds_pseudo (hg : g.Valid []) {s : Signature} (hsignature : g.signature = some s)
    (hs : s.Unambiguous) (hnames : ((s.inputs ++ s.consts).map (·.name)).Nodup)
    (hn : n ∈ g.nodes) (hkind : n.kind = .entry ∨ n.kind = .result) : g.Finds n := by
  have haddressable : n.kind.Addressable g.signature := by
    rw [hsignature]
    rcases hkind with hkind | hkind
    · rw [hkind]
      refine List.nodup_cons.2 ⟨fun hmem => ?_, hnames⟩
      obtain ⟨c, hc, hname⟩ := List.mem_map.1 hmem
      exact hs.exit c (List.mem_append_left _ hc) hname
    · rw [hkind]
      refine List.nodup_cons.2 ⟨fun hmem => ?_, hs.outputs⟩
      obtain ⟨c, hc, hname⟩ := List.mem_map.1 hmem
      exact hs.result c hc hname
  have hshaped := hg.shaped n hn List.not_mem_nil
  refine hg.finds hn (fun k hk => ?_) (hshaped.nodup_inputs haddressable)
    (hshaped.nodup_outputs haddressable)
  rcases hkind with hkind | hkind <;> simp [hkind] at hk

theorem distinct_of_names {d : Definition}
    (hnames : ((d.signature.inputs ++ d.signature.consts).map (·.name)).Nodup)
    (hkind : n.kind = .action d) : n.Distinct := fun k hk => by
  obtain rfl := NodeKind.action.inj (hkind.symm.trans hk)
  exact (List.map_append ▸ hnames).sublist (List.sublist_append_left _ _)

/-- A node of a generated kind finds its ports. -/
theorem Valid.finds_generated (hg : g.Valid []) {d : Definition} (hs : d.signature.Unambiguous)
    (hnames : ((d.signature.inputs ++ d.signature.consts).map (·.name)).Nodup)
    (hn : n ∈ g.nodes) (hkind : n.kind = .action d) : g.Finds n := by
  have hshaped := hg.shaped n hn List.not_mem_nil
  have hdistinct := distinct_of_names hnames hkind
  refine hg.finds hn hdistinct (hshaped.nodup_keys hkind (hdistinct d hkind) hs.enter)
    (hshaped.nodup_names hkind (List.nodup_cons.2 ⟨fun hmem => ?_, hs.outputs⟩))
  obtain ⟨c, hc, hname⟩ := List.mem_map.1 hmem
  exact hs.exit c (List.mem_append_right _ hc) hname

theorem WellFormed.nodup_placedPorts (hg : g.WellFormed) (hn : n ∈ g.nodes) :
    (placedPorts n).Nodup :=
  (List.nodup_flatMap.1 (hg.distinct.of_map _)).1 n hn

/-- A node that finds its outputs has different names for them. -/
theorem Finds.nodup_outputs (h : g.Finds n) (hg : g.WellFormed) (hn : n ∈ g.nodes) :
    (n.outputs.map (·.decl.name)).Nodup := by
  have hports : n.outputs.Nodup :=
    (List.nodup_append.1 (hg.nodup_placedPorts hn)).2.1.of_map _
  refine hports.map_on fun p hp q hq he => ?_
  have hids := (h.outputs p hp).symm.trans (he ▸ h.outputs q hq)
  have hplaces := hg.port_inj (output_mem_allPorts hn hp) (output_mem_allPorts hn hq)
    (congrArg (·.index) (Option.some.inj hids))
  exact congrArg (·.port) hplaces

/-- A node that finds its inputs has different keys for them. -/
theorem Finds.nodup_inputs (h : g.Finds n) (hg : g.WellFormed) (hn : n ∈ g.nodes) :
    (n.inputs.map Port.key).Nodup := by
  have hports : n.inputs.Nodup := (List.nodup_append.1 (hg.nodup_placedPorts hn)).1.of_map _
  refine hports.map_on fun p hp q hq he => ?_
  obtain ⟨hname, hslot⟩ := SlotKey.mk.inj he
  have hids := (h.inputs p hp).symm.trans (hname ▸ hslot ▸ h.inputs q hq)
  have hplaces := hg.port_inj (input_mem_allPorts hn hp) (input_mem_allPorts hn hq)
    (congrArg (·.index) (Option.some.inj hids))
  exact congrArg (·.port) hplaces

/-- Where the inputs of a generated kind carry values, its names are unambiguous exactly if Entry,
Return and a node of the kind find their ports. -/
theorem unambiguous_iff_finds {inner : Graph Definition} {d : Definition}
    {entry result : Node Definition} (hinner : inner.Valid [])
    (hsignature : inner.signature = some d.signature)
    (hnames : ((d.signature.inputs ++ d.signature.consts).map (·.name)).Nodup)
    (hvalues : ∀ c ∈ d.signature.inputs, c.isControl = false)
    (hentry : entry ∈ inner.nodes) (hentryKind : entry.kind = .entry)
    (hresult : result ∈ inner.nodes) (hresultKind : result.kind = .result)
    (hg : g.Valid []) (hn : n ∈ g.nodes) (hkind : n.kind = .action d) :
    d.signature.Unambiguous ↔ inner.Finds entry ∧ inner.Finds result ∧ g.Finds n := by
  constructor
  · exact fun hs => ⟨hinner.finds_pseudo hsignature hs hnames hentry (.inl hentryKind),
      hinner.finds_pseudo hsignature hs hnames hresult (.inr hresultKind),
      hg.finds_generated hs hnames hn hkind⟩
  rintro ⟨hentryFinds, hresultFinds, hfinds⟩
  have hshaped := hg.shaped n hn List.not_mem_nil
  have hentryNames : (exitName ::
      (d.signature.inputs ++ d.signature.consts).map (·.name)).Nodup := by
    have hfound := hentryFinds.nodup_outputs hinner.wellFormed hentry
    rwa [(hinner.shaped entry hentry List.not_mem_nil).names_of_entry hentryKind, hsignature]
      at hfound
  have hresultKeys : (enterName :: d.signature.outputs.map (·.name)).Nodup := by
    have hfound := hresultFinds.nodup_inputs hinner.wellFormed hresult
    rw [(hinner.shaped result hresult List.not_mem_nil).keys_of_result hresultKind, hsignature]
      at hfound
    exact hfound.of_map _
  have hnodeNames : (exitName :: d.signature.outputs.map (·.name)).Nodup :=
    hshaped.names_of_action hkind ▸ hfinds.nodup_outputs hg.wellFormed hn
  obtain ⟨w, hkeys⟩ := hshaped.keys_of_action hkind
  have hnodeKeys := hkeys ▸ hfinds.nodup_inputs hg.wellFormed hn
  refine ⟨hvalues, fun c hc hsingle hname => (List.nodup_cons.1 hnodeKeys).1 ?_,
    fun c hc hname => ?_,
    fun c hc hname => (List.nodup_cons.1 hresultKeys).1 (List.mem_map.2 ⟨c, hc, hname⟩),
    (List.nodup_cons.1 hnodeNames).2⟩
  · exact List.mem_flatMap.2 ⟨c, hc, by simp [slotSpecs, hsingle, specKey, PortSpec.single, hname]⟩
  · rcases List.mem_append.1 hc with hc | hc
    · exact (List.nodup_cons.1 hentryNames).1 (List.mem_map.2 ⟨c, hc, hname⟩)
    · exact (List.nodup_cons.1 hnodeNames).1 (List.mem_map.2 ⟨c, hc, hname⟩)

/-! ## The two sides of a kind -/

/-- A node of a generated kind in its graph, and the Entry and Return of the inner graph, all of
which find their ports. -/
structure Interface (g : Graph Definition) (node : Node Definition) (d : Definition)
    (inner : Graph Definition) (entry result : Node Definition) : Prop where
  outer : g.Valid []
  node_mem : node ∈ g.nodes
  kind : node.kind = .action d
  behaviour : d.behaviour = .generated inner
  valid : inner.Valid []
  signature : inner.signature = some d.signature
  entry_mem : entry ∈ inner.nodes
  entry_kind : entry.kind = .entry
  entry_id : inner.entryNode? = some entry.id
  result_mem : result ∈ inner.nodes
  result_kind : result.kind = .result
  result_id : inner.resultNode? = some result.id
  finds : g.Finds node
  entry_finds : inner.Finds entry
  result_finds : inner.Finds result
  input_values : ∀ c ∈ d.signature.inputs, c.isControl = false
  output_values : ∀ c ∈ d.signature.outputs, c.isControl = false
  output_names : (d.signature.outputs.map (·.name)).Nodup
  distinct : node.Distinct

namespace Interface

variable {g : Graph Definition} {node : Node Definition} {d : Definition}
  {inner : Graph Definition} {entry result : Node Definition} {c : PortDecl}

theorem exists_input (h : Interface g node d inner entry result) (hc : c ∈ d.signature.inputs)
    (hsingle : c.isVariadic = false) : ∃ p ∈ node.inputs, p.decl = c ∧ p.slot = none :=
  (h.outer.shaped node h.node_mem List.not_mem_nil).exists_single
    (single_mem_of_input h.kind hc hsingle)

theorem exists_slot (h : Interface g node d inner entry result) (hc : c ∈ d.signature.inputs)
    (hgroup : c.isVariadic = true) {x : PortId} (hx : x ∈ g.variadicSlots node.id c.name) :
    ∃ p ∈ node.inputs, p.decl = c ∧ x = g.portId p.index := by
  simp only [variadicSlots, node?_of_mem h.outer.ascending h.node_mem, List.mem_map,
    List.mem_filter, Bool.and_eq_true, decide_eq_true_eq] at hx
  obtain ⟨p, ⟨hp, hname, hslot⟩, rfl⟩ := hx
  have hformed := (h.outer.shaped node h.node_mem List.not_mem_nil).formed
  exact ⟨p, hp, hformed.decl_of_slot h.distinct
    ⟨d, h.kind, hc, hgroup⟩ hp hname hslot, rfl⟩

theorem exists_entry (h : Interface g node d inner entry result)
    (hc : c ∈ d.signature.inputs ++ d.signature.consts) :
    ∃ q ∈ entry.outputs, q.decl.name = c.name := by
  have hdeclared : ∃ c' ∈ d.signature.inputs.map (·.packed) ++ d.signature.consts,
      c'.name = c.name := by
    rcases List.mem_append.1 hc with hc | hc
    · exact ⟨c.packed, List.mem_append_left _ (List.mem_map_of_mem hc), name_packed c⟩
    · exact ⟨c, List.mem_append_right _ hc, rfl⟩
  obtain ⟨c', hc', hname⟩ := hdeclared
  have hspec : PortSpec.single c' ∈ entry.outputs.map Port.spec := by
    rw [(h.valid.shaped entry h.entry_mem List.not_mem_nil).outputs, wantedOutputs, h.entry_kind,
      h.signature]
    exact List.mem_cons_of_mem _ (List.mem_map_of_mem hc')
  obtain ⟨q, hq, he⟩ := List.mem_map.1 hspec
  exact ⟨q, hq, (congrArg (·.decl.name) he).trans hname⟩

theorem exists_result (h : Interface g node d inner entry result) (hc : c ∈ d.signature.outputs) :
    ∃ q ∈ result.inputs, q.decl = c ∧ q.slot = none :=
  (h.valid.shaped result h.result_mem List.not_mem_nil).exists_single
    (single_mem_of_output h.result_kind h.signature hc)

end Interface

end Graph

/-! ## Where errors come from -/

/-- Where the error of a read comes from that fails, with a given allowance, at a node of a
generated kind. -/
inductive Setting.Origin {σ : Type} (s : Setting) (host : Host σ) (k : Nat) (node : Node Definition)
    (d : Definition) (inner : Graph Definition) (result : Node Definition) (e : FlowError)
    (m' : Machine σ) : Prop
  /-- A node depends on its own output. -/
  | cycle {n : NodeId} (he : e = .cycle n)
  /-- The flow that the node would open is nested too deeply. -/
  | depth (hdepth : s.options.maxCallDepth < s.depth + 1)
    (he : e = .tooDeep d.name s.options.maxCallDepth)
  /-- Another action node fails, one that an input of the node is connected to. -/
  | upstream {p : Port} {n : Node Definition} (hp : p ∈ node.inputs) (hother : n ≠ node)
    (hfails : s.FailsBefore host k (s.graph.portId p.index) n e m')
  /-- An action node of the inner graph fails that control leads to. -/
  | control {n : Node Definition} {a : Definition} (hn : n ∈ inner.nodes)
    (hkind : n.kind = .action a) (hfails : (s.child inner node.id).Fails host k (.invoke n.id) e m')
  /-- An action node of the inner graph fails that an input of Return is connected to. -/
  | value {p : Port} {n : Node Definition} (hp : p ∈ result.inputs)
    (hfails : (s.child inner node.id).FailsBefore host k (inner.portId p.index) n e m')

section Errors

variable {σ : Type} {s : Setting} {host : Host σ} {node : Node Definition} {d : Definition}
  {inner : Graph Definition} {entry result : Node Definition} {e : FlowError} {j k : Nat}
  {m m' m₁ : Machine σ} {c : PortDecl}

theorem Setting.Origin.imp (h : s.Origin host j node d inner result e m₁) (hk : j ≤ k)
    (hlog : m₁.log = m'.log) (hhost : m₁.host = m'.host) :
    s.Origin host k node d inner result e m' := by
  cases h with
  | cycle he => exact .cycle he
  | depth hdepth he => exact .depth hdepth he
  | upstream hp hother hfails => exact .upstream hp hother (hfails.imp hk hlog hhost)
  | control hn hkind hfails => exact .control hn hkind (hfails.imp hk hlog hhost)
  | value hp hfails => exact .value hp (hfails.imp hk hlog hhost)

/-- With an allowance below a given one, the reads of the outputs of a node that fail do so for
reasons beyond its kind. -/
def Setting.Serves (s : Setting) (host : Host σ) (k : Nat) (node : Node Definition) (d : Definition)
    (inner : Graph Definition) (result : Node Definition) : Prop :=
  ∀ j < k, ∀ q ∈ node.outputs, q.decl.isControl = false → ∀ m e m',
    exec host j s (.read (s.graph.portId q.index)) m = some (.error e, m') →
      s.Origin host j node d inner result e m'

namespace Engine

theorem readAll_eq_error {engine : Engine σ} {ps : List PortId}
    (h : engine.readAll s ps m = some (.error e, m')) :
    ∃ p ∈ ps, ∃ m₁, engine s (.read p) m₁ = some (.error e, m') := by
  induction ps generalizing m with
  | nil => exact absurd h Exec.pure_ne_error
  | cons p ps ih =>
    rcases Exec.bind_eq_error.1 h with h | ⟨v, m₁, -, h⟩
    · exact ⟨p, .head _, m, h⟩
    · rcases Exec.bind_eq_error.1 h with h | ⟨vs, m₂, -, h⟩
      · obtain ⟨q, hq, hfails⟩ := ih h
        exact ⟨q, .tail _ hq, hfails⟩
      · exact absurd h Exec.pure_ne_error

section Interface

variable (h : Interface s.graph node d inner entry result)
include h

theorem read_eq_error (hself : s.Serves host k node d inner result) {p : Port}
    (hp : p ∈ node.inputs) (hvalue : p.decl.isControl = false)
    (hrun : exec host k s (.read (s.graph.portId p.index)) m = some (.error e, m')) :
    s.Origin host k node d inner result e m' := by
  have hport := h.outer.wellFormed.port?_portId (input_mem_allPorts h.node_mem hp)
  have hrole := (PlacedPort.role_eq_iff (p := ⟨node.id, .input, p⟩) .input false).2 ⟨rfl, hvalue⟩
  rcases Setting.fails_of_input h.outer hport hrole hrun with ⟨n, he⟩ | ⟨n, hfails⟩
  · exact .cycle he
  · by_cases hn : n = node
    · subst hn
      obtain ⟨-, -, q, hq, hvalue, -, i, hi, m, m₁, hrun, hlog, hhost⟩ := hfails
      exact (hself i hi q hq hvalue m e m₁ hrun).imp hi.le hlog hhost
    · exact .upstream hp hn hfails

theorem argument_eq_error (hself : s.Serves host k node d inner result)
    (hc : c ∈ d.signature.inputs)
    (hrun : (exec host k).argument s node.id c m = some (.error e, m')) :
    s.Origin host k node d inner result e m' := by
  unfold argument at hrun
  cases hgroup : c.isVariadic with
  | true =>
    simp only [hgroup, if_true] at hrun
    rcases Exec.bind_eq_error.1 hrun with hrun | ⟨vs, m₁, -, hrun⟩
    · obtain ⟨x, hx, m₁, hrun⟩ := readAll_eq_error hrun
      obtain ⟨p, hp, rfl, rfl⟩ := h.exists_slot hc hgroup hx
      exact read_eq_error h hself hp (h.input_values _ hc) hrun
    · exact absurd hrun Exec.pure_ne_error
  | false =>
    obtain ⟨p, hp, rfl, hslot⟩ := h.exists_input hc hgroup
    have hfound := getInput_eq_ok.2 (hslot ▸ h.finds.inputs p hp)
    simp only [hgroup, Bool.false_eq_true, if_false, hfound, Exec.ofGraph_ok_bind] at hrun
    exact read_eq_error h hself hp (h.input_values _ hc) hrun

theorem entryPort_succeeds (hc : c ∈ d.signature.inputs ++ d.signature.consts) :
    ∃ r, entryPort inner entry.id c.name = .ok r := by
  obtain ⟨q, hq, hname⟩ := h.exists_entry hc
  have hport := h.valid.wellFormed.port?_portId (output_mem_allPorts h.entry_mem hq)
  have hfound := getOutput_eq_ok.2 (hname ▸ h.entry_finds.outputs q hq)
  exact ⟨_, bind_eq_ok.2 ⟨_, hfound, bind_eq_ok.2 ⟨_, getPort_eq_ok.2 hport, rfl⟩⟩⟩

theorem bindInputs_eq_error (hself : s.Serves host k node d inner result) {cs : List PortDecl}
    (hcs : ∀ c ∈ cs, c ∈ d.signature.inputs) {f : Frame}
    (hrun : (exec host k).bindInputs s node.id inner entry.id cs f m = some (.error e, m')) :
    s.Origin host k node d inner result e m' := by
  induction cs generalizing f m with
  | nil => exact absurd hrun Exec.pure_ne_error
  | cons c cs ih =>
    have hc := hcs c (.head _)
    obtain ⟨r, hr⟩ := entryPort_succeeds h (List.mem_append_left _ hc)
    rcases Exec.bind_eq_error.1 hrun with hrun | ⟨v, m₁, -, hrun⟩
    · exact argument_eq_error h hself hc hrun
    · rw [hr, Exec.ofGraph_ok_bind] at hrun
      exact ih (fun c hc => hcs c (.tail _ hc)) hrun

theorem bindConsts_succeeds {cs : List PortDecl} (hcs : ∀ c ∈ cs, c ∈ d.signature.consts)
    (f : Frame) : ∃ f', bindConsts s node inner entry.id cs f = .ok f' := by
  induction cs generalizing f with
  | nil => exact ⟨f, rfl⟩
  | cons c cs ih =>
    obtain ⟨⟨p, port⟩, hr⟩ := entryPort_succeeds h (List.mem_append_right _ (hcs c (.head _)))
    obtain ⟨f', hf'⟩ := ih (fun c hc => hcs c (.tail _ hc))
      (f.insert p (s.coerce port (constant node c.name)))
    exact ⟨f', bind_eq_ok.2 ⟨_, hr, hf'⟩⟩

theorem followEntry_eq_error {memory : Memory}
    (hrun : (exec host k).followEntry (s.child inner node.id) entry.id memory m =
      some (.error e, m')) : s.Origin host k node d inner result e m' := by
  unfold followEntry at hrun
  cases hstart : (inner.output? entry.id exitName).bind inner.nextControl? with
  | none =>
    simp only [Setting.child, hstart] at hrun
    exact absurd hrun Exec.pure_ne_error
  | some start =>
    have hvalid : (s.child inner node.id).graph.Valid [] := h.valid
    obtain ⟨x, -, hx⟩ := Option.bind_eq_some_iff.1 hstart
    obtain ⟨q, hq⟩ := h.valid.wellFormed.port?_nextControl? hx
    have hstart' : ((s.child inner node.id).graph.output? entry.id exitName).bind
        (s.child inner node.id).graph.nextControl? = some start := hstart
    simp only [hstart'] at hrun
    rcases Exec.bind_eq_error.1 hrun with hrun | ⟨r, m₁, -, hrun⟩
    · obtain ⟨m₁, hfollow, rfl⟩ := Exec.within_eq_error.1 hrun
      obtain ⟨n, hn, a, hkind, hfails⟩ := Setting.fails_of_follow hvalid hq hfollow
      exact .control hn hkind (hfails.imp le_rfl rfl rfl)
    · exact absurd hrun Exec.pure_ne_error

theorem deliver_eq_error {cs : List PortDecl} (hcs : ∀ c ∈ cs, c ∈ d.signature.outputs)
    {memory : Memory}
    (hrun : (exec host k).deliver s (s.child inner node.id) node.id result.id cs memory m =
      some (.error e, m')) : s.Origin host k node d inner result e m' := by
  induction cs generalizing memory m with
  | nil => exact absurd hrun Exec.pure_ne_error
  | cons c cs ih =>
    have hc := hcs c (.head _)
    have hvalid : (s.child inner node.id).graph.Valid [] := h.valid
    obtain ⟨q, hq, rfl, hslot⟩ := h.exists_result hc
    have hfound : (s.child inner node.id).graph.getInput result.id q.decl.name none =
        .ok (inner.portId q.index) := getInput_eq_ok.2 (hslot ▸ h.result_finds.inputs q hq)
    have hport : (s.child inner node.id).graph.port? (inner.portId q.index) =
        some ⟨result.id, .input, q⟩ :=
      h.valid.wellFormed.port?_portId (input_mem_allPorts h.result_mem hq)
    have hrole := (PlacedPort.role_eq_iff (p := ⟨result.id, .input, q⟩) .input false).2
      ⟨rfl, h.output_values _ hc⟩
    simp only [deliver, hfound, Exec.ofGraph_ok_bind] at hrun
    rcases Exec.bind_eq_error.1 hrun with hrun | ⟨⟨v, memory'⟩, m₁, -, hrun⟩
    · obtain ⟨m₁, hread, rfl⟩ := Exec.within_eq_error.1 hrun
      rcases Setting.fails_of_input hvalid hport hrole hread with ⟨n, he⟩ | ⟨n, hfails⟩
      · exact .cycle he
      · exact .value hq (hfails.imp le_rfl rfl rfl)
    · obtain ⟨m₂, hpublish⟩ := publish_succeeds h.outer h.node_mem h.kind hc v m₁
      rcases Exec.bind_eq_error.1 hrun with hrun | ⟨_, m₃, -, hrun⟩
      · simp [hpublish] at hrun
      · exact ih (fun c hc => hcs c (.tail _ hc)) hrun

theorem invokeGenerated_eq_error (hself : s.Serves host k node d inner result)
    (hrun : (exec host k).invokeGenerated s node d inner m = some (.error e, m')) :
    s.Origin host k node d inner result e m' := by
  unfold invokeGenerated at hrun
  split at hrun
  next hdepth =>
    exact .depth hdepth (Except.error.inj (Prod.mk.inj (Option.some.inj hrun)).1).symm
  next =>
    simp only [h.entry_id, h.result_id] at hrun
    rcases Exec.bind_eq_error.1 hrun with hrun | ⟨f, m₁, -, hrun⟩
    · exact bindInputs_eq_error h hself (fun c hc => hc) hrun
    · obtain ⟨f', hframe⟩ := bindConsts_succeeds (s := s) h (fun c hc => hc) f
      rw [hframe, Exec.ofGraph_ok_bind] at hrun
      rcases Exec.bind_eq_error.1 hrun with hrun | ⟨memory, m₂, -, hrun⟩
      · exact followEntry_eq_error h hrun
      · rcases Exec.bind_eq_error.1 hrun with hrun | ⟨_, m₃, -, hrun⟩
        · exact deliver_eq_error h (fun c hc => hc) hrun
        · exact absurd hrun Exec.pure_ne_error

/-- A node of the kind that succeeds has written all its outputs. -/
theorem invokeGenerated_fills {exit : Option PortId}
    (hrun : (exec host k).invokeGenerated s node d inner m = some (.ok exit, m')) :
    s.graph.Filled node.id m'.memory.scopes := by
  obtain ⟨entry', result', hentry, hresult, hrun⟩ := invokeGenerated_opens hrun
  obtain ⟨f, m₁, -, hrun⟩ := Exec.bind_eq_ok.1 hrun
  obtain ⟨f', m₂, -, hrun⟩ := Exec.bind_eq_ok.1 hrun
  obtain ⟨memory, m₃, -, hrun⟩ := Exec.bind_eq_ok.1 hrun
  obtain ⟨_, m₄, hdeliver, hrun⟩ := Exec.bind_eq_ok.1 hrun
  obtain ⟨-, rfl⟩ := Exec.pure_eq_ok.1 hrun
  have hany : ∀ t, Upholds (fun _ => True) (exec host k (s.child inner node.id) t)
      (t.Meets fun _ _ => True) := by
    intro t m r m' _ _
    refine ⟨trivial, fun a _ => ?_⟩
    cases t <;> trivial
  have hwritten := (deliver_eq_ok h.outer h.node_mem hany h.output_names trivial hdeliver).1
  intro n hn q hq hvalue
  obtain rfl := Option.some.inj ((node?_of_mem h.outer.ascending h.node_mem).symm.trans hn)
  have hdecls := (h.outer.shaped node h.node_mem List.not_mem_nil).decl_outputs h.kind
  have hdecl : q.decl ∈ d.signature.outputs := by
    have hmem : q.decl ∈ node.outputs.map (·.decl) := List.mem_map_of_mem hq
    rw [hdecls] at hmem
    refine (List.mem_cons.1 hmem).resolve_left fun he => ?_
    simp [he, PortDecl.control] at hvalue
  obtain ⟨x, port, _, v, hx, -, -, -, hget⟩ := hwritten q.decl hdecl
  obtain rfl := Option.some.inj ((h.finds.outputs q hq).symm.trans hx)
  simp [Scopes.find?, Scopes.findIn?, hget]

end Interface

end Engine

/-- A read of a value output of a node of the kind fails only for reasons beyond the kind. -/
theorem Interface.serves (h : Interface s.graph node d inner entry result) :
    s.Serves host k node d inner result := by
  induction k with
  | zero => exact fun _ h => absurd h (Nat.not_lt_zero _)
  | succ k ih =>
    intro j hj q hq hvalue m e m' hrun
    have hport := h.outer.wellFormed.port?_portId (output_mem_allPorts h.node_mem hq)
    have hnode := node?_of_mem h.outer.ascending h.node_mem
    have hrole :=
      (PlacedPort.role_eq_iff (p := ⟨node.id, .output, q⟩) .output false).2 ⟨rfl, hvalue⟩
    obtain ⟨j, rfl, hrun⟩ := exec_eq_some hrun
    rcases Engine.read_output_eq_error hport hrole hrun with he | hrun | ⟨exit, m₁, hrun, hnone⟩
    · exact .cycle he
    · obtain ⟨i, rfl, hrun⟩ := exec_eq_some hrun
      obtain ⟨d', m₁, hkind, hbehave, rfl⟩ := Engine.invoke_eq_error hnode hrun
      obtain rfl := NodeKind.action.inj (h.kind.symm.trans hkind)
      simp only [Engine.behave, h.kind, h.behaviour] at hbehave
      have hself : s.Serves host i node d inner result := fun l hl => ih l (by omega)
      exact (Engine.invokeGenerated_eq_error h hself hbehave).imp (by omega) rfl rfl
    -- The output would have been written.
    · obtain ⟨i, rfl, hrun⟩ := exec_eq_some hrun
      obtain ⟨m₂, hrun, hscopes⟩ := exec_invoke_eq_ok h.outer h.node_mem h.kind h.behaviour hrun
      have hfilled := Engine.invokeGenerated_fills h hrun node hnode q hq hvalue
      rw [← hscopes, hnone] at hfilled
      exact absurd hfilled (by simp)

end Errors

/-- A generated kind whose names are unambiguous works. Every port of a node of the kind, of Entry
and of Return is found under its name, and whenever a read of a value output of the node fails, in
any flow, it is for a cycle, for the depth of nested flows, or because another action node fails:
one that an input of the node is connected to, or one of the inner graph. -/
theorem generated_serves {K₀ : Definition → Prop} {g₀ : Graph Definition} (hg₀ : Reachable K₀ g₀)
    {d : Definition}
    (hd : (Definition.generated d.signature g₀).map (·.behaviour) = .ok d.behaviour)
    (hs : d.signature.Unambiguous) :
    ∃ inner, ∃ entry ∈ inner.nodes, ∃ result ∈ inner.nodes, d.behaviour = .generated inner ∧
      inner.entryNode? = some entry.id ∧ inner.resultNode? = some result.id ∧
      inner.Finds entry ∧ inner.Finds result ∧
      ∀ (K : Definition → Prop) (g : Graph Definition), Reachable K g →
        ∀ node ∈ g.nodes, node.kind = .action d → g.Finds node ∧
          ∀ s : Setting, s.graph = g → ∀ q ∈ node.outputs, q.decl.isControl = false →
            ∀ {σ : Type} (host : Host σ) (k : Nat) (m : Machine σ) (e : FlowError) (m' : Machine σ),
              exec host k s (.read (g.portId q.index)) m = some (.error e, m') →
                s.Origin host k node d inner result e m' := by
  obtain ⟨d', hd', hbehaviour⟩ := map_eq_ok.1 hd
  obtain ⟨hcontrol, hrepeated, inner, hset, hcheck, rfl⟩ := generated_eq_ok_iff.1 hd'
  have hnames := (firstRepeated?_eq_none.1 hrepeated).1
  have hvalid : inner.Valid [] := hg₀.valid.setSignature hset
  have hsignature : inner.signature = some d.signature := setSignature_signature hset
  have hvalues : ∀ c ∈ d.signature.outputs, c.isControl = false := fun c hc => by
    simpa using List.find?_eq_none.1 hcontrol c hc
  obtain ⟨⟨e, he, hek⟩, t, ht, htk⟩ := checkPseudoNodes_eq_ok hcheck
  obtain ⟨n, hn⟩ := Option.ne_none_iff_exists'.1
    fun hnone => entryNode?_eq_none_iff.1 hnone e he hek
  obtain ⟨n', hn'⟩ := Option.ne_none_iff_exists'.1
    fun hnone => resultNode?_eq_none_iff.1 hnone t ht htk
  obtain ⟨entry, hentry, rfl, hentryKind⟩ := mem_of_entryNode? hn
  obtain ⟨result, hresult, rfl, hresultKind⟩ := mem_of_resultNode? hn'
  have hentryFinds := hvalid.finds_pseudo hsignature hs hnames hentry (.inl hentryKind)
  have hresultFinds := hvalid.finds_pseudo hsignature hs hnames hresult (.inr hresultKind)
  refine ⟨inner, entry, hentry, result, hresult, hbehaviour.symm, hn, hn', hentryFinds,
    hresultFinds, fun K g hg node hnode hkind => ?_⟩
  have hfinds := hg.valid.finds_generated hs hnames hnode hkind
  refine ⟨hfinds, ?_⟩
  rintro s rfl q hq hvalue σ host k m e m' hrun
  exact Interface.serves ⟨hg.valid, hnode, hkind, hbehaviour.symm, hvalid, hsignature, hentry,
    hentryKind, hn, hresult, hresultKind, hn', hfinds, hentryFinds, hresultFinds, hs.values,
    hvalues, hs.outputs, Graph.distinct_of_names hnames hkind⟩
    k k.lt_succ_self q hq hvalue m e m' hrun

/-! ## Kinds over an empty graph -/

/-- The kind of a signature over an empty graph. -/
def Definition.hollow (s : Signature) : Definition where
  signature := s
  obsoleteNames := []
  obsoleteMessage := none
  behaviour := .generated ((Edit.setSignature s).perform (.empty 1 .standard))

/-- A group of inputs has the name of the control input. -/
def Signature.relay : Signature :=
  ⟨"Relay", [.variadic "enter" .any], [.value "tag" .string],
    [.value "text" .string, .value "size" .int]⟩

/-- A kind whose body always fails. -/
def Definition.refuse : Definition where
  signature := ⟨"Refuse", [], [], [.value returnName .any]⟩
  obsoleteNames := []
  obsoleteMessage := none
  behaviour := .method ⟨[], some (.value returnName .any), .compute fun _ => .error (.failed "no")⟩

/-- A node that fails feeds a node of a generated kind. -/
def relayFlow : Setting :=
  .top ([.addNode (.action .refuse), .addNode (.action (.hollow .relay)),
    .connect ⟨0, 2⟩ ⟨0, 4⟩].foldl Edit.perform (.empty 0 .standard)) .empty ⟨32, true⟩ .standard

/-- The read of the generated node fails as the other does. -/
theorem read_relayFlow : ∃ node inner result m', relayFlow.graph.node? ⟨2⟩ = some node ∧
    exec nullHost 12 relayFlow (.read ⟨0, 6⟩) ⟨.start .empty, [], ()⟩ =
      some (.error (.action ⟨1⟩ "Refuse" (.failed "no")), m') ∧
    relayFlow.Origin nullHost 12 node (.hollow .relay) inner result
      (.action ⟨1⟩ "Refuse" (.failed "no")) m' := by
  have hd : (Definition.generated (Definition.hollow .relay).signature (.empty 1 .standard)).map
      (·.behaviour) = .ok (Definition.hollow .relay).behaviour := rfl
  have hs : (Definition.hollow .relay).signature.Unambiguous :=
    ⟨by decide, by decide, by decide, by decide, by decide⟩
  have hg : Reachable (fun _ => True) relayFlow.graph := .foldl (by simp) (.blank 0 .standard)
  obtain ⟨inner, entry, -, result, -, -, -, -, -, -, hserves⟩ :=
    generated_serves (Reachable.blank (K := fun _ => True) 1 .standard) hd hs
  obtain ⟨node, hnode⟩ : ∃ node, relayFlow.graph.node? ⟨2⟩ = some node := ⟨_, rfl⟩
  have hrun : ((exec nullHost 12 relayFlow (.read ⟨0, 6⟩) ⟨.start .empty, [], ()⟩).map (·.1)) =
      some (.error (.action ⟨1⟩ "Refuse" (.failed "no"))) := by
    decide +kernel
  obtain ⟨⟨r, m'⟩, hrun, rfl⟩ := Option.map_eq_some_iff.1 hrun
  refine ⟨node, inner, result, m', hnode, hrun, ?_⟩
  obtain rfl := Option.some.inj hnode
  exact (hserves _ _ hg _ (Graph.node?_mem hnode).1 rfl).2 relayFlow rfl
    ⟨6, .value "text" .string, none⟩ (by decide) rfl nullHost 12 _ _ m' hrun

/-- Two outputs have one name. -/
def Signature.twins : Signature := ⟨"Twins", [], [], [.value "a" .int, .value "a" .int]⟩

/-- A node of the kind alone. -/
def twinsFlow : Setting :=
  .top ((Edit.addNode (.action (.hollow .twins))).perform (.empty 0 .standard)) .empty ⟨32, true⟩
    .standard

/-- The kind is accepted, but the second output is not the one that its name finds, and its node
fails to write it. -/
theorem read_twinsFlow :
    (Definition.generated .twins (.empty 1 .standard)).map (·.behaviour) =
        .ok (Definition.hollow .twins).behaviour ∧
      Reachable (fun _ => True) twinsFlow.graph ∧
      (∃ q, twinsFlow.graph.port? ⟨0, 3⟩ = some q ∧ q.node = ⟨1⟩ ∧ q.role = .valueOutput ∧
        q.port.decl.name = "a") ∧
      twinsFlow.graph.output? ⟨1⟩ "a" = some ⟨0, 2⟩ ∧
      ∃ m', exec nullHost 12 twinsFlow (.read ⟨0, 3⟩) ⟨.start .empty, [], ()⟩ =
        some (.error (.emptyOutput ⟨1⟩ "Twins" "a"), m') := by
  have hrun : ((exec nullHost 12 twinsFlow (.read ⟨0, 3⟩) ⟨.start .empty, [], ()⟩).map (·.1)) =
      some (.error (.emptyOutput ⟨1⟩ "Twins" "a")) := by
    decide +kernel
  obtain ⟨⟨r, m'⟩, hrun, rfl⟩ := Option.map_eq_some_iff.1 hrun
  exact ⟨rfl, .edited (.addNode (.action (.hollow .twins))) (fun _ _ => trivial)
    (.blank 0 .standard), ⟨_, rfl, rfl, rfl, rfl⟩, rfl, m', hrun⟩

end EffectGraph
