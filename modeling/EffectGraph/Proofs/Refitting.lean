import EffectGraph.Proofs.Isolating
import EffectGraph.Proofs.Redefining

/-!
# Groups after a new definition of a kind

A node that is turned to a new definition gets its slots counted while its old ports and their
connections are still there. The count goes by the name of the group, so a group that keeps its name
but is declared otherwise (`Recast`) is given room for connections that it then loses with its old
slots. Every other group is settled when its kind has been redefined, here and on the nodes at the
other ends (`Fitted.redefine`). A second redefinition finds the nodes carrying the definition
already, so it merely reshapes them: it settles what the first one has left, and there is nothing
left for a third one to do (`Reachable.redefine_settles`).
-/

namespace EffectGraph

open EffectGraph.Graph

variable {κ : Type}

/-- A node that carries a definition is not changed by its turn to it. -/
theorem Node.Stored.turn_eq_self [HasSignature κ] {kind : κ} {m : Node κ} (h : m.Stored)
    (hk : m.kind = .action kind) :
    m.turn kind = m := by
  have hconsts := Table.filter_eq_self (h.consts kind hk)
  have hdefaults := Table.filter_eq_self (h.defaults kind hk)
  unfold Node.turn
  rw [hconsts, hdefaults, ← hk]

namespace Graph

/-- A connected slot of a node belongs to a group of the given name that is declared otherwise. -/
def Recast (g : Graph κ) (n : NodeId) (d : PortDecl) : Prop :=
  ∃ q ∈ g.allPorts, q.node = n ∧ q.direction = .input ∧ q.port.slot.isSome = true ∧
    q.port.decl.name = d.name ∧ q.port.decl ≠ d ∧ g.isWired q.port.index = true

instance (g : Graph κ) (n : NodeId) (d : PortDecl) : Decidable (g.Recast n d) :=
  inferInstanceAs (Decidable (∃ q ∈ g.allPorts, q.node = n ∧ q.direction = .input ∧
    q.port.slot.isSome = true ∧ q.port.decl.name = d.name ∧ q.port.decl ≠ d ∧
    g.isWired q.port.index = true))

/-- The control connections that end at a slot of a group that passes a test are there in another
graph. -/
def Retains (ok : NodeId → PortDecl → Prop) (g g' : Graph κ) : Prop :=
  ∀ c ∈ g.connections, c.kind = .control → ∀ q ∈ g.allPorts, q.port.index = c.destination →
    q.port.slot.isSome = true → ok q.node q.port.decl → c ∈ g'.connections

/-! ## Connections go and no old port changes -/

/-- Connections have gone, and the ports that are still connected are old ones. -/
structure Wanes (g g' : Graph κ) : Prop where
  connections : g'.connections ⊆ g.connections
  ports : ∀ q ∈ g'.allPorts, g'.isWired q.port.index = true → q ∈ g.allPorts

variable {g g' g'' : Graph κ} {m : Node κ} {n : NodeId}

theorem Wanes.trans (h : g.Wanes g') (h' : g'.Wanes g'') : g.Wanes g'' :=
  ⟨fun _ hc => h.connections (h'.connections hc), fun q hq hwired =>
    h.ports q (h'.ports q hq hwired) (isWired_of_subset h'.connections hwired)⟩

theorem Reshapes.wanes (h : g.Reshapes g') (hg : g.WellFormed) : g.Wanes g' := by
  refine ⟨h.connections.subset, fun q hq hwired => ?_⟩
  -- A connected port has a number that is in use, so it is none of the new ones.
  refine (h.ports q hq).resolve_right fun hnew => ?_
  obtain ⟨p, hp, hpq⟩ := hg.mem_of_isWired (isWired_of_subset h.connections.subset hwired)
  have := hg.used p hp
  omega

theorem Recast.of_wanes {d : PortDecl} (h : g'.Recast n d) (hw : g.Wanes g') : g.Recast n d := by
  obtain ⟨q, hq, hnode, hdir, hslot, hname, hdecl, hwired⟩ := h
  exact ⟨q, hw.ports q hq hwired, hnode, hdir, hslot, hname, hdecl,
    isWired_of_subset hw.connections hwired⟩

theorem Retains.of_wanes {ok : NodeId → PortDecl → Prop} (h : g.Retains ok g'') (hw : g.Wanes g') :
    g'.Retains ok g'' := by
  intro c hc hkind q hq hdest hslot hok
  have hwired : g'.isWired q.port.index = true :=
    List.any_eq_true.2 ⟨c, hc, by simp [Connection.touches, hdest]⟩
  exact h c (hw.connections hc) hkind q (hw.ports q hq hwired) hdest hslot hok

variable [HasSignature κ] {kind : κ}

theorem Valid.wanes_redefineNode (h : g.Valid []) (kind : κ) (n : NodeId) :
    g.Wanes (g.redefineNode kind n) := by
  have hturned := (h.turn kind n).wellFormed
  have hports : (g.updateNode n (.turn kind)).allPorts = g.allPorts :=
    allPorts_updateNode (fun _ => rfl) (fun _ => rfl) fun _ => rfl
  have hwanes := (reshapes_reshape hturned n).wanes hturned
  exact ⟨hwanes.connections, fun q hq hwired => hports ▸ hwanes.ports q hq hwired⟩

/-! ## The turn of a node -/

/-- No slot of a group occurs twice in the shape of a node whose inputs have different names. -/
theorem count_inputShape_le_one (hdistinct : m.Distinct) {w : String → Nat} {s : PortSpec}
    (hs : s.slot.isSome = true) : (g.inputShape m w).count s ≤ 1 := by
  unfold inputShape
  split
  next k hk =>
    have hnodup : ((HasSignature.signature k).inputs.flatMap (slotSpecs w)).Nodup := by
      refine List.nodup_flatMap.2 ⟨fun d _ => (nodup_keys_slotSpecs w d).of_map, ?_⟩
      refine (List.pairwise_map.1 (hdistinct k hk)).imp fun {a b} hab s hsa hsb => hab ?_
      rw [← (mem_slotSpecs hsa).1, (mem_slotSpecs hsb).1]
    have hne : s ≠ PortSpec.control enterName := fun he => by
      simp [he, PortSpec.control, PortSpec.single] at hs
    rw [List.count_cons_of_ne hne.symm]
    exact List.nodup_iff_count_le_one.1 hnodup s
  next => simp
  next =>
    refine Nat.le_trans (Nat.le_of_eq (List.count_eq_zero.2 fun hmem => ?_)) (Nat.zero_le 1)
    rcases List.mem_cons.1 hmem with rfl | hmem
    · simp [PortSpec.control, PortSpec.single] at hs
    · obtain ⟨d, -, rfl⟩ := List.mem_map.1 hmem
      simp [PortSpec.single] at hs

/-- A connected slot of a group that the new definition declares as it was is kept when its node is
turned, and its connections with it. -/
theorem Valid.kept_turn {k : κ} (h : g.Valid []) (hm : m ∈ g.nodes) (hk : m.kind = .action k)
    (hdistinct : m.Distinct) {p : Port} (hp : p ∈ m.inputs) (hslot : p.slot.isSome = true)
    (hwired : g.isWired p.index = true) (hdecl : p.decl ∈ (HasSignature.signature kind).inputs) :
    p ∈ ((g.updateNode m.id (.turn kind)).shapedNode (m.turn kind)).inputs ∧
      ((g.updateNode m.id (.turn kind)).reshapeOne m.id).1.isWired p.index = true := by
  have hturned := h.turn kind m.id
  have hports : (g.updateNode m.id (.turn kind)).allPorts = g.allPorts :=
    allPorts_updateNode (fun _ => rfl) (fun _ => rfl) fun _ => rfl
  have hmem : m.turn kind ∈ (g.updateNode m.id (.turn kind)).nodes :=
    mem_nodes_updateNode.2 ⟨m, hm, if_pos rfl⟩
  have hnode : (g.updateNode m.id (.turn kind)).node? m.id = some (m.turn kind) :=
    node?_of_mem hturned.ascending hmem
  have hwanted : p.spec ∈ (g.updateNode m.id (.turn kind)).wantedInputs (m.turn kind) :=
    (h.mem_wantedInputs_turn hm hk hp hwired).2 (.tail _ hdecl)
  -- The slot was there once and is wanted, so none like it is dropped.
  have hkept : p ∉ ((g.updateNode m.id (.turn kind)).reusedInputs (m.turn kind)).dropped := by
    intro hdropped
    obtain ⟨w, hw, -⟩ := (h.shaped m hm List.not_mem_nil).inputs
    have hone : (m.inputs.map Port.spec).count p.spec ≤ 1 :=
      hw ▸ count_inputShape_le_one hdistinct hslot
    have hcount := reusePorts_count ((g.updateNode m.id (.turn kind)).wantedInputs (m.turn kind))
      m.inputs (g.updateNode m.id (.turn kind)).nextPort p.spec
    have hpos := List.one_le_count_iff.2 (List.mem_map_of_mem (f := Port.spec) hdropped)
    have hwant := List.one_le_count_iff.2 hwanted
    have hcount : (((g.updateNode m.id (.turn kind)).reusedInputs (m.turn kind)).dropped.map
      Port.spec).count p.spec = _ := hcount
    omega
  refine ⟨(mem_reusePorts_of_mem_old _ _ hp).resolve_right hkept, ?_⟩
  obtain ⟨c, hc, ht⟩ := List.any_eq_true.1 hwired
  obtain ⟨s, t, hj⟩ := h.wellFormed.joined c hc
  -- The connection leads to the slot from another node, so its node loses neither end.
  have hdest := h.wellFormed.destination_of_touches hm hp hj ht
  have hj' : (g.updateNode m.id (.turn kind)).Joins c s t :=
    { hj with source_mem := hports ▸ hj.source_mem, destination_mem := hports ▸ hj.destination_mem }
  have hloses : (g.updateNode m.id (.turn kind)).loses (m.turn kind) c = false := by
    by_contra hl
    rcases (hturned.wellFormed.loses_iff hmem hj').1 (by simpa using hl) with ⟨hs, -⟩ | ⟨-, hd⟩
    · exact hj.nodes_ne (by rw [hs, hdest, Node.turn_id])
    · rw [hdest] at hd
      exact hkept hd
  rw [isWired, reshapeOne_connections hnode]
  exact List.any_eq_true.2 ⟨c, List.mem_filter.2 ⟨hc, by simp [hloses]⟩, ht⟩

variable {ok : NodeId → PortDecl → Prop} {stale : List NodeId}

/-- The turn of a node settles its groups that pass the test and are not recast. It unsettles the
nodes at the destinations of the values that it costs. -/
theorem Fitted.turn {k : κ} (h : g.Fitted ok [] (m.id :: stale)) (hm : m ∈ g.nodes)
    (hk : m.kind = .action k) (hdistinct : (HasSignature.signature kind).Distinct)
    (hrecast : ∀ d ∈ (HasSignature.signature kind).inputs, d.isVariadic = true → ok m.id d →
      ¬g.Recast m.id d)
    (hretains : g.Retains ok ((g.updateNode m.id (.turn kind)).reshapeOne m.id).1) :
    ((g.updateNode m.id (.turn kind)).reshapeOne m.id).1.Fitted ok []
      (((g.updateNode m.id (.turn kind)).reshapeOne m.id).2 ++ stale) := by
  have hturned := h.valid.turn kind m.id
  have hmem : m.turn kind ∈ (g.updateNode m.id (.turn kind)).nodes :=
    mem_nodes_updateNode.2 ⟨m, hm, if_pos rfl⟩
  have hnode : (g.updateNode m.id (.turn kind)).node? m.id = some (m.turn kind) :=
    node?_of_mem hturned.ascending hmem
  have hv : ((g.updateNode m.id (.turn kind)).reshapeOne m.id).1.Valid [] :=
    (hturned.reshapeOne m.id).mono (by simp)
  have hkind : (m.turn kind).kind = .action kind := rfl
  have hdistinct' : (m.turn kind).Distinct := fun j hj => by
    obtain rfl : kind = j := by simpa [hkind] using hj
    exact hdistinct
  refine ⟨hv, fun a ha => ?_, fun a ha hnot d hd hok => ?_⟩
  · rcases (h.valid.mem_nodes_turn hm).1 ha with ⟨ha, -⟩ | rfl
    · exact h.distinct a ha
    · exact hdistinct'
  · rw [List.mem_append, not_or] at hnot
    rcases (h.valid.mem_nodes_turn hm).1 ha with ⟨hag, hne⟩ | rfl
    · refine (h.settled a hag (by simp [hne, hnot.2]) d hd hok).of_wired rfl (fun _ _ => Iff.rfl)
        fun p hp hname hslot => ?_
      have hdecl := (h.valid.shaped a hag List.not_mem_nil).formed.decl_of_slot (h.distinct a hag)
        hd hp hname hslot
      -- A lost value makes its destination shrink, and controls at the group are not lost.
      refine isWired_iff_of_filter (reshapeOne_connections hnode) fun c hc ht => ?_
      obtain ⟨s, t, hj⟩ := h.valid.wellFormed.joined c hc
      obtain rfl := h.valid.wellFormed.destination_of_touches hag hp hj ht
      cases hck : c.kind with
      | value =>
        exact hv.wellFormed.not_loses hnode ha hne (hasVariadic_of_hasGroup hd) hnot.1 hp hc hck
          hj.destination_index.symm
      | control =>
        have hleft := hretains c hc hck ⟨a.id, .input, p⟩ hj.destination_mem
          hj.destination_index hslot (hdecl ▸ hok)
        rw [reshapeOne_connections hnode] at hleft
        simpa using (List.mem_filter.1 hleft).2
    · refine hturned.settledAt_shapedNode hnode hdistinct' hd fun p hp hname hslot hwired => ?_
      obtain ⟨j, hj, hdj, hvariadic⟩ := hd
      obtain rfl : kind = j := by simpa [hkind] using hj
      have hdecl : p.decl = d := by
        by_contra hne
        exact hrecast d hdj hvariadic hok
          ⟨_, input_mem_allPorts hm hp, rfl, rfl, hslot, hname, hne, hwired⟩
      exact h.valid.kept_turn hm hk (h.distinct m hm) hp hslot hwired (hdecl ▸ hdj)

omit [HasSignature κ] in
theorem Retains.mono (h : g.Retains ok g'') (hsub : g''.connections ⊆ g'.connections) :
    g.Retains ok g' := fun c hc hkind q hq hdest hslot hok =>
  hsub (h c hc hkind q hq hdest hslot hok)

theorem connections_reshape_subset (g : Graph κ) (n : NodeId) :
    (g.reshape n).connections ⊆ (g.reshapeOne n).1.connections := by
  rcases reshape_eq g n with ⟨-, he⟩ | ⟨depth, he⟩
  · rw [he]
    exact List.Subset.refl _
  · rw [he]
    refine reshapeNested_induct (P := fun k => k.connections ⊆ (g.reshapeOne n).1.connections)
      (fun k j hk => ?_) depth _ _ (List.Subset.refl _)
    cases hj : k.node? j with
    | none => rwa [reshapeOne_of_none hj]
    | some a =>
      rw [reshapeOne_connections hj]
      exact fun c hc => hk (List.mem_filter.1 hc).1

/-- One step of a redefinition: the turn of a node, and the reshapes of those that shrink. -/
theorem Fitted.redefineNode {k : κ} (h : g.Fitted ok [] (m.id :: stale)) (hm : m ∈ g.nodes)
    (hk : m.kind = .action k) (hdistinct : (HasSignature.signature kind).Distinct)
    (hrecast : ∀ d ∈ (HasSignature.signature kind).inputs, d.isVariadic = true → ok m.id d →
      ¬g.Recast m.id d)
    (hretains : g.Retains ok (g.redefineNode kind m.id)) :
    (g.redefineNode kind m.id).Fitted ok [] stale := by
  have hturn := h.turn hm hk hdistinct hrecast
    (hretains.mono (connections_reshape_subset (g.updateNode m.id (.turn kind)) m.id))
  rw [redefineNode_eq]
  rcases reshape_eq (g.updateNode m.id (.turn kind)) m.id with ⟨hnone, he⟩ | ⟨depth, he⟩
  · rw [he]
    refine hturn.mono (fun _ hj => hj) fun j hj => (List.mem_append.1 hj).resolve_left fun hj => ?_
    cases hn : (g.updateNode m.id (.turn kind)).node? m.id with
    | none => simp [reshapeOne_of_none hn] at hj
    | some a =>
      obtain ⟨-, c, hc, -⟩ := (mem_reshapeOne_snd hn).1 hj
      simp [hnone] at hc
  · rw [he]
    exact hturn.reshapeNested (fun _ _ => List.not_mem_nil) depth

theorem Valid.wanes_foldl (h : g.Valid []) (kind : κ) (ns : List NodeId) :
    g.Wanes (ns.foldl (fun g n => g.redefineNode kind n) g) :=
  (List.foldlRecOn (motive := fun k => Valid [] k ∧ g.Wanes k) ns _
    ⟨h, fun _ hc => hc, fun _ hq _ => hq⟩ fun _ hk n _ =>
      ⟨hk.1.redefineNode kind n, hk.2.trans (hk.1.wanes_redefineNode kind n)⟩).2

/-- A node that a redefinition has turned, or left alone, is an action node if it was. -/
theorem Valid.action_redefineNode (h : g.Valid []) {j : NodeId}
    (hj : ∃ m ∈ g.nodes, m.id = j ∧ ∃ k, m.kind = .action k) :
    ∃ m ∈ (g.redefineNode kind n).nodes, m.id = j ∧ ∃ k, m.kind = .action k := by
  obtain ⟨m, hm, rfl, k, hk⟩ := hj
  have hturned := reshapes_reshape (h.turn kind n).wellFormed n
  have himage : ∃ a ∈ (g.updateNode n (.turn kind)).nodes, a.id = m.id ∧
      ∃ k, a.kind = .action k := by
    by_cases hmn : m.id = n
    · exact ⟨m.turn kind, mem_nodes_updateNode.2 ⟨m, hm, if_pos hmn⟩, rfl, kind, rfl⟩
    · exact ⟨m, mem_nodes_updateNode.2 ⟨m, hm, if_neg hmn⟩, rfl, k, hk⟩
  obtain ⟨a, ha, hid, k', hk'⟩ := himage
  obtain ⟨b, hb, hbare⟩ := hturned.image ha
  exact ⟨b, hb, (congrArg (·.id) hbare).trans hid, k', (congrArg (·.kind) hbare).trans hk'⟩

/-- The turns of several nodes, one after another, settle all their groups that pass the test and
are not recast. -/
theorem Fitted.foldl_redefineNode {ns : List NodeId} (h : g.Fitted ok [] (ns ++ stale))
    (hns : ∀ n ∈ ns, ∃ m ∈ g.nodes, m.id = n ∧ ∃ k, m.kind = .action k)
    (hdistinct : (HasSignature.signature kind).Distinct)
    (hrecast : ∀ n ∈ ns, ∀ d ∈ (HasSignature.signature kind).inputs, d.isVariadic = true → ok n d →
      ¬g.Recast n d)
    (hretains : g.Retains ok (ns.foldl (fun g n => g.redefineNode kind n) g)) :
    (ns.foldl (fun g n => g.redefineNode kind n) g).Fitted ok [] stale := by
  induction ns generalizing g with
  | nil => exact h
  | cons n ns ih =>
    obtain ⟨m, hm, rfl, k, hk⟩ := hns n List.mem_cons_self
    have hwanes := h.valid.wanes_redefineNode kind m.id
    have hrest := (h.valid.redefineNode kind m.id).wanes_foldl kind ns
    have hnext : (g.redefineNode kind m.id).Fitted ok [] (ns ++ stale) :=
      h.redefineNode hm hk hdistinct (hrecast _ List.mem_cons_self)
        (hretains.mono hrest.connections)
    exact ih hnext (fun j hj => h.valid.action_redefineNode (hns j (.tail _ hj)))
      (fun j hj d hd hv hok hj' => hrecast j (.tail _ hj) d hd hv hok (hj'.of_wanes hwanes))
      (hretains.of_wanes hwanes)

/-- A redefinition settles the groups that pass the test and are not recast. -/
theorem Fitted.redefine
    (h : g.Fitted ok [] (g.nodesOfKind (HasSignature.signature kind).name ++ stale))
    (hdistinct : (HasSignature.signature kind).Distinct)
    (hrecast : ∀ m ∈ g.nodes, m.Bears (HasSignature.signature kind).name →
      ∀ d ∈ (HasSignature.signature kind).inputs, d.isVariadic = true → ok m.id d →
        ¬g.Recast m.id d)
    (hretains : g.Retains ok (g.redefine kind).1) : (g.redefine kind).1.Fitted ok [] stale := by
  refine h.foldl_redefineNode (fun n hn => ?_) hdistinct (fun n hn => ?_) hretains
  · obtain ⟨m, hm, hid, k, hk, -⟩ := mem_nodesOfKind.1 hn
    exact ⟨m, hm, hid, k, hk⟩
  · obtain ⟨m, hm, rfl, hbears⟩ := mem_nodesOfKind.1 hn
    exact hrecast m hm hbears

/-! ## What nodes carry afterwards -/

/-- After a redefinition the nodes of the kind are those that were, and they carry the new
definition. -/
theorem Valid.carried_redefine (h : g.Valid []) (hm : m ∈ (g.redefine kind).1.nodes) :
    (m.Bears (HasSignature.signature kind).name ↔
      m.id ∈ g.nodesOfKind (HasSignature.signature kind).name) ∧
    (m.Bears (HasSignature.signature kind).name → m.kind = .action kind) := by
  let P (rest : List NodeId) (k : Graph κ) : Prop := k.Valid [] ∧ ∀ a ∈ k.nodes,
    (a.id ∈ g.nodesOfKind (HasSignature.signature kind).name →
      a.kind = .action kind ∨ a.id ∈ rest) ∧
    (a.Bears (HasSignature.signature kind).name →
      a.id ∈ g.nodesOfKind (HasSignature.signature kind).name)
  have hstart : P (g.nodesOfKind (HasSignature.signature kind).name ++ []) g :=
    ⟨h, fun a ha => ⟨fun hmem => .inr (List.mem_append_left _ hmem), fun hbears =>
      mem_nodesOfKind.2 ⟨a, ha, rfl, hbears⟩⟩⟩
  have hstep : ∀ k : Graph κ, ∀ n ∈ g.nodesOfKind (HasSignature.signature kind).name, ∀ rest,
      P (n :: rest) k → P rest (k.redefineNode kind n) := by
    rintro k n hn rest ⟨hv, hk⟩
    refine ⟨hv.redefineNode kind n, fun b hb => ?_⟩
    obtain ⟨a, ha, hbare⟩ := (reshapes_reshape (hv.turn kind n).wellFormed n).origin hb
    have hid : a.id = b.id := congrArg (·.id) hbare
    have hkind : a.kind = b.kind := congrArg (·.kind) hbare
    obtain ⟨a₀, ha₀, rfl⟩ := mem_nodes_updateNode.1 ha
    unfold Node.Bears
    rw [← hid, ← hkind]
    split
    next hna => exact ⟨fun _ => .inl rfl, fun _ => hna ▸ hn⟩
    next hna =>
      obtain ⟨hcarries, hbears⟩ := hk a₀ ha₀
      exact ⟨fun hmem => (hcarries hmem).imp_right fun hr =>
        (List.mem_cons.1 hr).resolve_left hna, hbears⟩
  obtain ⟨-, hend⟩ : P [] (g.redefine kind).1 := foldl_settles hstep hstart
  have hcarries : m.id ∈ g.nodesOfKind (HasSignature.signature kind).name →
      m.kind = .action kind := fun hmem =>
    ((hend m hm).1 hmem).resolve_right List.not_mem_nil
  exact ⟨⟨(hend m hm).2, fun hmem => ⟨kind, hcarries hmem, rfl⟩⟩,
    fun hbears => hcarries ((hend m hm).2 hbears)⟩

/-! ## A redefinition of nodes that carry the definition -/

theorem Valid.redefineNode_eq_reshape (h : g.Valid [])
    (hk : ∀ m ∈ g.nodes, m.id = n → m.kind = .action kind) :
    g.redefineNode kind n = g.reshape n := by
  have hsame : g.updateNode n (.turn kind) = g := by
    have hnodes : (g.nodes.map fun m => if m.id = n then m.turn kind else m) = g.nodes := by
      refine (List.map_congr_left fun m hm => ?_).trans (List.map_id _)
      split
      next hid => exact (h.stored m hm).turn_eq_self (hk m hm hid)
      next => rfl
    rw [Graph.updateNode, hnodes]
  rw [redefineNode_eq, hsame]

/-- If the nodes of a kind carry the definition, a redefinition reshapes them. -/
theorem Valid.redefine_eq_foldl_reshape (h : g.Valid [])
    (hk : ∀ m ∈ g.nodes, m.Bears (HasSignature.signature kind).name → m.kind = .action kind) :
    (g.redefine kind).1 =
      (g.nodesOfKind (HasSignature.signature kind).name).foldl Graph.reshape g := by
  have hcarried : ∀ n ∈ g.nodesOfKind (HasSignature.signature kind).name,
      ∀ m ∈ g.nodes, m.id = n → m.kind = .action kind := by
    intro n hn m hm hid
    obtain ⟨a, ha, rfl, hbears⟩ := mem_nodesOfKind.1 hn
    exact hk m hm (h.ascending.id_inj ha hm hid.symm ▸ hbears)
  unfold Graph.redefine
  simp only
  generalize g.nodesOfKind (HasSignature.signature kind).name = ns at hcarried
  clear hk
  induction ns generalizing g with
  | nil => rfl
  | cons n ns ih =>
    rw [List.foldl_cons, List.foldl_cons,
      h.redefineNode_eq_reshape (hcarried n List.mem_cons_self)]
    refine ih ((h.reshape n).mono (by simp)) fun j hj m hm hid => ?_
    obtain ⟨a, ha, hbare⟩ := (reshapes_reshape h.wellFormed n).origin hm
    exact (congrArg (·.kind) hbare).symm.trans
      (hcarried j (.tail _ hj) a ha ((congrArg (·.id) hbare).trans hid))

theorem Fitted.reshape (h : g.Fitted ok [] (n :: stale)) : (g.reshape n).Fitted ok [] stale := by
  have hkeeps := h.valid.keeps (n := n) List.not_mem_nil
  rw [hkeeps.reshape_eq]
  exact (h.reshapeOne hkeeps).mono (by simp) fun _ hj => hj

/-- A node all of whose groups are settled has the inputs that it should have. -/
theorem Shaped.specs_of_settled (h : g.Shaped m) (hdistinct : m.Distinct)
    (hsettled : ∀ d, m.HasGroup d → g.SettledAt m d) :
    m.inputs.map Port.spec = g.wantedInputs m := by
  obtain ⟨w, hw, -⟩ := h.inputs
  rw [wantedInputs_eq, hw]
  unfold inputShape
  cases hk : m.kind with
  | action k =>
    refine congrArg _ (List.flatMap_congr fun d hd => ?_)
    unfold slotSpecs
    split
    next hv =>
      have hgroup : m.HasGroup d := ⟨k, hk, hd, hv⟩
      have hwidth : m.width d.name = g.arity m d.name := hsettled d hgroup
      rw [← width_of_shape hw hdistinct hgroup, hwidth]
    next => rfl
  | entry => rfl
  | result => rfl

/-- The reshape of a node that has the inputs it should have changes nothing. -/
theorem Valid.reshape_eq_self (h : g.Valid [])
    (hspecs : ∀ m ∈ g.nodes, m.id = n → m.inputs.map Port.spec = g.wantedInputs m) :
    g.reshape n = g := by
  have hkeeps := h.keeps (n := n) List.not_mem_nil
  rw [hkeeps.reshape_eq]
  cases hn : g.node? n with
  | none => rw [reshapeOne_of_none hn]
  | some m =>
    obtain ⟨hm, hid⟩ := node?_mem hn
    have hins : g.reusedInputs m = ⟨m.inputs, [], g.nextPort⟩ := by
      rw [reusedInputs, ← hspecs m hm hid, reusePorts_specs_self]
    have houts : g.reusedOutputs m = ⟨m.outputs, [], g.nextPort⟩ := by
      rw [reusedOutputs, hins, ← (h.shaped m hm List.not_mem_nil).outputs, reusePorts_specs_self]
    have hnodes : (g.updateNode n fun k =>
        { k with inputs := (g.reusedInputs m).ports, outputs := (g.reusedOutputs m).ports }).nodes =
          g.nodes := by
      refine (List.map_congr_left fun k hk => ?_).trans (List.map_id _)
      split
      next hkn =>
        obtain rfl := h.ascending.id_inj hk hm (hkn.trans hid.symm)
        rw [hins, houts]
        rfl
      next => rfl
    have hconnections := hkeeps.connections_reshapeOne
    rw [reshapeOne_connections hn] at hconnections
    rw [reshapeOne_of_node? hn, hnodes, hconnections, houts]
    rfl

/-- A redefinition changes nothing if the nodes of the kind carry the definition and their groups
are settled. -/
theorem Valid.redefine_eq_self (h : g.Valid []) (hdistinct : ∀ m ∈ g.nodes, m.Distinct)
    (hk : ∀ m ∈ g.nodes, m.Bears (HasSignature.signature kind).name → m.kind = .action kind)
    (hsettled : ∀ m ∈ g.nodes, m.Bears (HasSignature.signature kind).name →
      ∀ d, m.HasGroup d → g.SettledAt m d) : (g.redefine kind).1 = g := by
  rw [h.redefine_eq_foldl_reshape hk]
  refine List.foldlRecOn (motive := fun k => k = g) _ _ rfl fun k hk' n hn => ?_
  subst hk'
  refine h.reshape_eq_self fun m hm hid => ?_
  obtain ⟨a, ha, rfl, hbears⟩ := mem_nodesOfKind.1 hn
  obtain rfl := h.ascending.id_inj hm ha hid
  exact (h.shaped m hm List.not_mem_nil).specs_of_settled (hdistinct m hm) (hsettled m hm hbears)

omit [HasSignature κ] in
/-- Connections that end at groups of values are values, so no control has to be kept for them. -/
theorem WellFormed.retains_of_isControl (h : g.WellFormed)
    (hok : ∀ n d, ok n d → d.isControl = false) : g.Retains ok g' := by
  intro c hc hkind q hq hdest _ hpass
  obtain ⟨s, t, hj⟩ := h.joined c hc
  obtain rfl := h.port_inj hj.destination_mem hq (hj.destination_index.trans hdest.symm)
  have hvalue := hok _ _ hpass
  rw [hj.destination_control.2 hkind] at hvalue
  exact Bool.noConfusion hvalue

/-- If the nodes of a kind carry the definition, a redefinition settles their groups. -/
theorem Fitted.redefine_carried
    (h : g.Fitted ok [] (g.nodesOfKind (HasSignature.signature kind).name ++ stale))
    (hk : ∀ m ∈ g.nodes, m.Bears (HasSignature.signature kind).name → m.kind = .action kind) :
    (g.redefine kind).1.Fitted ok [] stale := by
  rw [h.valid.redefine_eq_foldl_reshape hk]
  exact foldl_settles (P := fun st g => g.Fitted ok [] st) (fun _ _ _ _ hg => hg.reshape) h

/-- A redefinition changes nothing if it has been made before and has settled the nodes of the
kind. -/
theorem Fitted.redefine_again {g₀ : Graph κ} (h₀ : g₀.Valid []) (hg : (g₀.redefine kind).1 = g)
    (h : g.Fitted ok [] []) (hok : ∀ n ∈ g₀.nodesOfKind (HasSignature.signature kind).name,
      ∀ d ∈ (HasSignature.signature kind).inputs, ok n d) : (g.redefine kind).1 = g := by
  subst hg
  refine h.valid.redefine_eq_self h.distinct (fun m hm => (h₀.carried_redefine hm).2)
    fun m hm hbears d ⟨k, hk, hd, hvariadic⟩ => ?_
  obtain ⟨hof, hcarries⟩ := h₀.carried_redefine hm
  obtain rfl : kind = k := by simpa [hcarries hbears] using hk
  exact h.settled m hm List.not_mem_nil d ⟨kind, hk, hd, hvariadic⟩ (hok _ (hof.1 hbears) d hd)

end Graph

namespace Reachable

variable {K : Definition → Prop} {g : Graph Definition} {ok : NodeId → PortDecl → Prop}

theorem redefine (h : Reachable K g) {d : Definition} (hd : K d) : Reachable K (g.redefine d).1 :=
  .edited (.redefine d) (fun _ hk => Option.some.inj hk ▸ hd) h

/-- In an exact graph all groups that pass a test are settled, except on nodes that are listed, if
the groups of the others that pass are groups of values. -/
theorem fitted_of_exact (h : Reachable Definition.Built g) (hexact : g.Exact) {stale : List NodeId}
    (hok : ∀ n ∉ stale, ∀ d, ok n d → d.isControl = false) : g.Fitted ok [] stale := by
  obtain ⟨hv, hdistinct, hsettled⟩ := h.steady_iff_exact.2 hexact
  refine ⟨hv, hdistinct, fun m hm hnot d ⟨k, hk, hd, hvariadic⟩ hpass => ?_⟩
  exact hsettled m hm List.not_mem_nil d ⟨k, hk, hd, hvariadic, hok _ hnot d hpass⟩

theorem exactAt_of_fitted (h : Reachable Definition.Built g) (hfitted : g.Fitted ok [] [])
    {m : Node Definition} (hm : m ∈ g.nodes) {d : PortDecl} (hd : m.HasGroup d) (hok : ok m.id d) :
    g.ExactAt m d :=
  (settledAt_iff_exactAt h.valid.ascending hm (h.invariant.2 m hm).2 d).1
    (hfitted.settled m hm List.not_mem_nil d hd hok)

/-- A new definition of a kind leaves every group of values of an exact graph exact, except groups
of nodes of the kind that are recast. -/
theorem exactAt_redefine (h : Reachable Definition.Built g) (hexact : g.Exact) {d : Definition}
    (hd : d.Built) {m : Node Definition} (hm : m ∈ (g.redefine d).1.nodes) {p : PortDecl}
    (hp : m.DeclaresGroup p) :
    (g.redefine d).1.ExactAt m p ∨ m.Bears d.signature.name ∧ g.Recast m.id p := by
  rw [or_iff_not_imp_right]
  intro hnot
  have hstart : g.Fitted (fun n p => p.isControl = false ∧
      ¬(n ∈ g.nodesOfKind d.signature.name ∧ g.Recast n p)) []
      (g.nodesOfKind d.signature.name ++ []) :=
    h.fitted_of_exact hexact fun _ _ _ hok => hok.1
  have hfitted : (g.redefine d).1.Fitted _ [] [] := hstart.redefine hd.distinct
    (fun a ha hbears q _ _ hok hrecast => hok.2 ⟨mem_nodesOfKind.2 ⟨a, ha, rfl, hbears⟩, hrecast⟩)
    (h.valid.wellFormed.retains_of_isControl fun _ _ hok => hok.1)
  have ⟨_, _, _, _, hvalue⟩ := hp
  refine (h.redefine hd).exactAt_of_fitted hfitted hm hp.hasGroup ⟨hvalue, fun ⟨hof, hrecast⟩ => ?_⟩
  exact hnot ⟨(h.valid.carried_redefine hm).1.2 hof, hrecast⟩

/-- If no group of a node of the kind is recast, and no control is lost that ends at one, then a
second redefinition changes nothing. -/
theorem redefine_redefine (h : Reachable Definition.Built g) (hexact : g.Exact) {d : Definition}
    (hd : d.Built)
    (hrecast : ∀ m ∈ g.nodes, m.Bears d.signature.name → ∀ p ∈ d.signature.inputs,
      p.isVariadic = true → ¬g.Recast m.id p)
    (hretains : g.Retains (fun n p => n ∈ g.nodesOfKind d.signature.name ∧ p ∈ d.signature.inputs)
      (g.redefine d).1) : ((g.redefine d).1.redefine d).1 = (g.redefine d).1 := by
  have hstart : g.Fitted (fun n p => n ∈ g.nodesOfKind d.signature.name ∧ p ∈ d.signature.inputs) []
      (g.nodesOfKind d.signature.name ++ []) :=
    h.fitted_of_exact hexact fun _ hn _ hok => absurd (List.mem_append_left _ hok.1) hn
  have hfitted : (g.redefine d).1.Fitted _ [] [] := hstart.redefine hd.distinct
    (fun m hm hbears p hp hvariadic _ => hrecast m hm hbears p hp hvariadic) hretains
  exact Fitted.redefine_again h.valid rfl hfitted fun n hn p hp => ⟨hn, hp⟩

/-- A second redefinition settles all groups of the nodes of the kind. -/
theorem fitted_redefine_redefine (h : Reachable Definition.Built g) (hexact : g.Exact)
    {d : Definition} (hd : d.Built) :
    ((g.redefine d).1.redefine d).1.Fitted (fun n p => p.isControl = false ∨
      n ∈ (g.redefine d).1.nodesOfKind d.signature.name) [] [] := by
  have honce := h.redefine hd
  have hstart : (g.redefine d).1.Fitted (fun n p => p.isControl = false ∨
      n ∈ (g.redefine d).1.nodesOfKind d.signature.name) []
      ((g.redefine d).1.nodesOfKind d.signature.name ++ []) := by
    refine ⟨honce.valid, fun m hm k hk => ((honce.invariant.2 m hm).1 k hk).distinct,
      fun m hm hnot p ⟨k, hk, hp, hvariadic⟩ hok => ?_⟩
    have hnot : m.id ∉ (g.redefine d).1.nodesOfKind d.signature.name := by simpa using hnot
    have hgroup : m.DeclaresGroup p := ⟨k, hk, hp, hvariadic, hok.resolve_right hnot⟩
    have hexact := (h.exactAt_redefine hexact hd hm hgroup).resolve_right fun hbad =>
      hnot (mem_nodesOfKind.2 ⟨m, hm, rfl, hbad.1⟩)
    exact (settledAt_iff_exactAt honce.valid.ascending hm (honce.invariant.2 m hm).2 p).2 hexact
  exact hstart.redefine_carried fun m hm => (h.valid.carried_redefine hm).2

end Reachable

/-- A new definition of a kind leaves every group of values of an exact graph exact, except groups
of nodes of the kind that are recast. If there is none of these, and no control is lost that ends at
a group of a node of the kind, a second redefinition changes nothing. In any case the second one
ends in an exact graph, and a third one changes nothing. -/
theorem Reachable.redefine_settles {g : Graph Definition} (h : Reachable Definition.Built g)
    (hexact : g.Exact) {d : Definition} (hd : d.Built) {once twice : Graph Definition}
    (honce : (g.redefine d).1 = once) (htwice : (once.redefine d).1 = twice) :
    (∀ m ∈ once.nodes, ∀ p, m.DeclaresGroup p →
      once.ExactAt m p ∨ m.Bears d.signature.name ∧ g.Recast m.id p) ∧
    ((∀ m ∈ g.nodes, m.Bears d.signature.name → ∀ p ∈ d.signature.inputs, p.isVariadic = true →
        ¬g.Recast m.id p) →
      g.Retains (fun n p => n ∈ g.nodesOfKind d.signature.name ∧ p ∈ d.signature.inputs) once →
      twice = once) ∧
    twice.Exact ∧ (twice.redefine d).1 = twice := by
  subst honce htwice
  have hfitted := h.fitted_redefine_redefine hexact hd
  refine ⟨fun m hm p hp => h.exactAt_redefine hexact hd hm hp, h.redefine_redefine hexact hd,
    exact_iff.2 fun m hm p hp => ?_, ?_⟩
  · have ⟨_, _, _, _, hvalue⟩ := hp
    exact ((h.redefine hd).redefine hd).exactAt_of_fitted hfitted hm hp.hasGroup (.inl hvalue)
  · exact Fitted.redefine_again (h.redefine hd).valid rfl hfitted fun n hn p _ => .inr hn

/-- The gathering kind with outputs of given names and a group of a given type. -/
def MethodDecl.gatherOf (outs : List String) (type : ValueType) : MethodDecl where
  name := "Gather"
  params := (outs.map fun name => .out (.value name .any)) ++ [.input (.variadic "items" type)]
  body := some fun _ => .pure (.ok .empty)

def Definition.gatherOf (outs : List String) (type : ValueType) : Definition where
  signature := (MethodDecl.gatherOf outs type).signature
  obsoleteNames := []
  obsoleteMessage := none
  behaviour := .method ⟨(MethodDecl.gatherOf outs type).params, none, fun _ => .pure (.ok .empty)⟩

theorem built_gatherOf_nil : (Definition.gatherOf [] .any).Built :=
  .method (m := .gatherOf [] .any) (define_eq_ok.2 ⟨_, rfl, checkParams_eq_ok.2 (by decide), rfl⟩)

theorem built_gatherOf_int : (Definition.gatherOf ["item"] .int).Built :=
  .method (m := .gatherOf ["item"] .int)
    (define_eq_ok.2 ⟨_, rfl, checkParams_eq_ok.2 (by decide), rfl⟩)

/-- Without the output that feeds the chain the second node is back to one slot, and it stays so. -/
theorem redefine_settles_gatherChain :
    ∃ once, (gatherChain.redefine (.gatherOf [] .any)).1 = once ∧
      once.connections = [] ∧ (once.variadicSlots ⟨2⟩ "items").map (·.index) = [5] ∧
      (once.redefine (.gatherOf [] .any)).1 = once := by
  have hsettles := reachable_exact_gatherChain.1.redefine_settles reachable_exact_gatherChain.2
    built_gatherOf_nil rfl rfl
  have hrecast : ∀ m ∈ gatherChain.nodes, ∀ p ∈ (Definition.gatherOf [] .any).signature.inputs,
      ¬gatherChain.Recast m.id p := by decide
  have hvalues : ∀ c ∈ gatherChain.connections, c.kind ≠ .control := by decide
  exact ⟨_, rfl, by decide, by decide, hsettles.2.1 (fun m hm _ p hp _ => hrecast m hm p hp)
    fun c hc hkind => absurd hkind (hvalues c hc)⟩

/-- The chain once its group has another type under the old name. -/
def recastChain : Graph Definition := (gatherChain.redefine (.gatherOf ["item"] .int)).1

/-- The slot that was connected is gone, and the group has room for it all the same until the kind
is redefined once more. -/
theorem redefine_unsettles_gatherChain :
    Reachable Definition.Built gatherChain ∧ gatherChain.Exact ∧
      (Definition.gatherOf ["item"] .int).Built ∧ recastChain.connections = [] ∧
      (recastChain.variadicSlots ⟨2⟩ "items").map (·.index) = [10, 11] ∧ ¬recastChain.Exact ∧
      ∃ twice, (recastChain.redefine (.gatherOf ["item"] .int)).1 = twice ∧
        (twice.variadicSlots ⟨2⟩ "items").map (·.index) = [10] ∧ twice ≠ recastChain := by
  have hslots : ((recastChain.redefine (.gatherOf ["item"] .int)).1.variadicSlots ⟨2⟩ "items").map
      (·.index) ≠ (recastChain.variadicSlots ⟨2⟩ "items").map (·.index) := by decide
  have hreachable : Reachable Definition.Built recastChain :=
    reachable_exact_gatherChain.1.redefine built_gatherOf_int
  obtain ⟨m, hm, p, hp, hheld, hwidth⟩ : ∃ m ∈ recastChain.nodes, ∃ p, m.DeclaresGroup p ∧
      m.held = .empty ∧ m.width p.name ≠ recastChain.arity m p.name :=
    ⟨_, .tail _ (.head _), _, ⟨_, rfl, .head _, rfl, rfl⟩, rfl, by decide⟩
  refine ⟨reachable_exact_gatherChain.1, reachable_exact_gatherChain.2, built_gatherOf_int,
    by decide, by decide, fun hexact => ?_, _, rfl, by decide, fun he => hslots (by rw [he])⟩
  exact hwidth ((settledAt_iff_exactAt hreachable.valid.ascending hm hheld p).2
    (exact_iff.1 hexact m hm p hp))

end EffectGraph
