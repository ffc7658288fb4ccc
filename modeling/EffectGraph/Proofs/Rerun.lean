import EffectGraph.Proofs.TwinRuns

/-!
# A rebuilt graph runs like the original

A graph and the graph that is rebuilt from its snapshot are twins (`Reachable.exists_twin`): the
rebuilt one has other port numbers, its connections come in the order of their records, and it does
not show slots that nothing holds open. So runs over the two cannot be told apart
(`Reachable.rebuilt_runs_alike`).
-/

namespace EffectGraph

open EffectGraph.Graph Snapshot

/-! ## The standard catalog -/

theorem Catalog.get?_foldl_register_of_not_mem {ds : List Definition} {name : String}
    (hname : name ∉ ds.map Definition.name) (c : Catalog) :
    (ds.foldl Catalog.register c).definitions.get? name = c.definitions.get? name := by
  induction ds generalizing c with
  | nil => rfl
  | cons d ds ih =>
    obtain ⟨hne, hname⟩ := not_or.1 (mt List.mem_cons.2 hname)
    rw [List.foldl_cons, ih hname]
    simp [Catalog.register, hne]

theorem Catalog.get?_foldl_register {ds : List Definition} (hnames : (ds.map Definition.name).Nodup)
    {d : Definition} (hd : d ∈ ds) (c : Catalog) :
    (ds.foldl Catalog.register c).get? d.name = some d := by
  suffices hget : (ds.foldl Catalog.register c).definitions.get? d.name = some d by
    simp [Catalog.get?, hget]
  induction ds generalizing c with
  | nil => simp at hd
  | cons e es ih =>
    obtain ⟨hhead, htail⟩ := List.nodup_cons.1 (List.map_cons ▸ hnames)
    rw [List.foldl_cons]
    rcases List.mem_cons.1 hd with rfl | hd
    · rw [get?_foldl_register_of_not_mem hhead]
      simp [Catalog.register]
    · exact ih htail hd _

/-- The standard kinds can be stored and found again in the standard catalog. -/
theorem Catalog.exists_standard :
    ∃ c, Catalog.standard = .ok c ∧ ∀ d : Definition, d.Standard → d.Storable c := by
  have hbuiltins : Library.builtins = .ok (Library.declarations.map MethodDecl.kind) := rfl
  refine ⟨(Library.declarations.map MethodDecl.kind).foldl Catalog.register .empty, ?_, ?_⟩
  · rw [Catalog.standard, hbuiltins]
    rfl
  · rintro d ⟨m, hm, hd⟩
    obtain rfl := define_eq_kind hd
    have hplain : ∀ m ∈ Library.declarations, ∀ p ∈ m.signature.inputs, '[' ∉ p.name.toList := by
      decide
    have hnames : ((Library.declarations.map MethodDecl.kind).map Definition.name).Nodup := by
      decide
    exact ⟨⟨m, hd⟩, hplain m hm, get?_foldl_register hnames (List.mem_map_of_mem hm) _⟩

/-! ## The rebuilt graph -/

/-- A reachable graph is rebuilt from its snapshot as a twin. -/
theorem Reachable.exists_twin {K : Definition → Prop} {g : Graph Definition} (h : Reachable K g)
    (hhook : g.hook = .standard) {c : Catalog}
    (hkinds : ∀ n ∈ g.nodes, ∃ d, n.kind = .action d ∧ d.Storable c) (id : Nat) :
    ∃ r, (Snapshot.ofGraph g).rebuild c id none = .ok r ∧ Twin g r := by
  obtain ⟨G, hG, hr⟩ := h.exists_restored hhook hkinds id
  exact ⟨G.release, hG, h.valid, addressable_of_storable hkinds, hr.mirrors.release,
    hr.ofGraph_release.2.trans (sortRecords_sortRecords _)⟩

/-! ## Runs -/

variable {σ : Type}

/-- Two runs over two graphs that cannot be told apart: neither ends, or they end with the same
result, the same log and the same host, and for each output by its name they hold the same value or
none. -/
inductive SameEnd (g r : Graph Definition) :
    Option (Except FlowError Unit × Machine σ) → Option (Except FlowError Unit × Machine σ) → Prop
  | unended : SameEnd g r none none
  | ended {res : Except FlowError Unit} {m m' : Machine σ} (log : m'.log = m.log)
      (host : m'.host = m.host)
      (outputs : ∀ node name, (r.output? node name).bind m'.memory.scopes.find? =
        (g.output? node name).bind m.memory.scopes.find?) :
      SameEnd g r (some (res, m)) (some (res, m'))

/-- A run that succeeds with a value in an output has a run like it that does so too. -/
theorem SameEnd.exists_ok {g r : Graph Definition}
    {x y : Option (Except FlowError Unit × Machine σ)} (h : SameEnd g r x y) {node : NodeId}
    {name : String} {v : Option Value}
    (hx : x.map (fun p => (p.1.toBool, (g.output? node name).bind p.2.memory.scopes.find?)) =
      some (true, v)) :
    ∃ m, y = some (.ok (), m) ∧ (r.output? node name).bind m.memory.scopes.find? = v := by
  cases h with
  | unended => simp at hx
  | @ended res m m' hlog hhost houtputs =>
    cases res with
    | error e => simp [Except.toBool] at hx
    | ok u =>
      refine ⟨m', rfl, (houtputs node name).trans ?_⟩
      simpa [Except.toBool] using hx

theorem Tallies.output {g r : Graph Definition} (ht : Twin g r) {mem mem' : Memory}
    (h : Tallies g r mem mem') (node : NodeId) (name : String) :
    (r.output? node name).bind mem'.scopes.find? = (g.output? node name).bind mem.scopes.find? := by
  have houtput := ht.output? node name
  generalize g.output? node name = o, r.output? node name = o' at houtput ⊢
  cases houtput with
  | none => rfl
  | some hpq =>
    obtain ⟨a, b, hab, -, rfl, rfl⟩ := hpq
    exact h.memoized hab

/-- Runs over twins from the control input of a node cannot be told apart. -/
theorem Twin.sameEnd {s : Setting} {r : Graph Definition} (ht : Twin s.graph r)
    (hkinds : ∀ m ∈ s.graph.nodes, ∀ d, m.kind = .action d → d.Standard) (host : Host σ)
    (k : Nat) (n : NodeId) (log : List Event) (state : σ) :
    SameEnd s.graph r ((exec host k).runNode s n ⟨.start .empty, log, state⟩)
      ((exec host k).runNode (s.over r) n ⟨.start .empty, log, state⟩) := by
  have hend := Engine.lockstep_runNode ht (Engine.inStep_exec ht hkinds host k) n
    ⟨.start .empty, log, state⟩ ⟨.start .empty, log, state⟩ ⟨Tallies.start, rfl, rfl⟩
  generalize (exec host k).runNode s n ⟨.start .empty, log, state⟩ = o,
    (exec host k).runNode (s.over r) n ⟨.start .empty, log, state⟩ = o' at hend ⊢
  cases hend with
  | unended => exact .unended
  | error hm => exact .ended hm.log hm.host (hm.memory.output ht)
  | ok _ hm => exact .ended hm.log hm.host (hm.memory.output ht)

/-- A rebuilt graph runs like the original. A reachable graph of standard kinds with the standard
hook that no generated kind owns is rebuilt from its snapshot, and whatever node is run in a fresh
flow over each of the two graphs, under whatever allowance of nested steps, the two runs cannot be
told apart. -/
theorem Reachable.rebuilt_runs_alike {K : Definition → Prop} {g : Graph Definition}
    (h : Reachable K g) (hsignature : g.signature = none) (hhook : g.hook = .standard)
    (hkinds : ∀ n ∈ g.nodes, ∀ d, n.kind = .action d → d.Standard) (id : Nat) :
    ∃ c r, Catalog.standard = .ok c ∧ (Snapshot.ofGraph g).rebuild c id none = .ok r ∧
      ∀ (σ : Type) (host : Host σ) (e : Environment) (o : Options) (hook : ConversionHook)
        (n : NodeId) (log : List Event) (state : σ) (k : Nat),
        SameEnd g r ((exec host k).runNode (.top g e o hook) n ⟨.start .empty, log, state⟩)
          ((exec host k).runNode (.top r e o hook) n ⟨.start .empty, log, state⟩) := by
  obtain ⟨c, hc, hstorable⟩ := Catalog.exists_standard
  have hactions : ∀ n ∈ g.nodes, ∃ d, n.kind = .action d ∧ d.Storable c := by
    intro n hn
    obtain ⟨d, hd⟩ := h.exists_action hsignature hn
    exact ⟨d, hd, hstorable d (hkinds n hn d hd)⟩
  obtain ⟨r, hr, ht⟩ := h.exists_twin hhook hactions id
  exact ⟨c, r, hc, hr, fun σ host e o hook n log state k =>
    Twin.sameEnd (s := .top g e o hook) ht hkinds host k n log state⟩

/-- A sum that shows a slot more than it needs, since its node was disconnected as a whole. -/
def spareSlot : Graph Definition :=
  [.setDefault ⟨2⟩ ⟨"values", some 0⟩ (.int 7), .isolateNode ⟨2⟩].foldl Edit.perform doubling

theorem reachable_spareSlot : Reachable Definition.Standard spareSlot :=
  .foldl (by simp [Edit.offers]) reachable_doubling

/-- The rebuilt sum shows one slot less and comes to the same. -/
theorem rebuilt_spareSlot : (spareSlot.variadicSlots ⟨2⟩ "values").length = 3 ∧
    ∃ c r, Catalog.standard = .ok c ∧ (Snapshot.ofGraph spareSlot).rebuild c 1 none = .ok r ∧
      (r.variadicSlots ⟨2⟩ "values").length = 2 ∧
      ∃ m, (exec nullHost 5).runNode (.top r .empty ⟨32, true⟩ .standard) ⟨2⟩
          ⟨.start .empty, [], ()⟩ = some (.ok (), m) ∧
        (r.output? ⟨2⟩ returnName).bind m.memory.scopes.find? = some (.int 7) := by
  have hrun : ((exec nullHost 5).runNode (.top spareSlot .empty ⟨32, true⟩ .standard) ⟨2⟩
      ⟨.start .empty, [], ()⟩).map (fun p => (p.1.toBool,
        (spareSlot.output? ⟨2⟩ returnName).bind p.2.memory.scopes.find?)) =
      some (true, some (.int 7)) := by
    decide +kernel
  have hslots : (Catalog.standard.toOption.bind fun c =>
      ((Snapshot.ofGraph spareSlot).rebuild c 1 none).toOption.map fun r =>
        (r.variadicSlots ⟨2⟩ "values").length) = some 2 := by
    decide +kernel
  obtain ⟨c, r, hc, hr, hsame⟩ := reachable_spareSlot.rebuilt_runs_alike rfl rfl
    (fun n hn d hd => (reachable_spareSlot.invariant.2 n hn).1 d hd) 1
  have hend := hsame Unit nullHost .empty ⟨32, true⟩ .standard ⟨2⟩ [] () 5
  refine ⟨by decide, c, r, hc, hr, ?_, hend.exists_ok hrun⟩
  simpa [hc, hr, Except.toOption] using hslots

end EffectGraph
