import EffectGraph.Proofs.Declared
import EffectGraph.Proofs.Reachable
import EffectGraph.Proofs.Widths

/-!
# Exact graphs

A graph is exact (`Exact`) if every variadic group of values shows the slots up to the highest one
in use and one empty slot after it, within the limit. In a graph in which no slot is held open this
is to say that every node is settled (`steady_iff_exact`). Every edit of a reachable exact graph
ends in an exact graph, but for the two that leave a node as it is while its connections or its kind
change; and every rebuild ends in an exact graph (`exact_of_edit_or_rebuild`).
-/

namespace EffectGraph

open EffectGraph.Graph Snapshot

namespace Graph

variable {κ : Type}

/-- Whether a slot of a group of a node is connected or has a default. -/
def SlotInUse (g : Graph κ) (m : Node κ) (group : String) (i : Nat) : Prop :=
  (∃ p ∈ m.inputs, p.decl.name = group ∧ p.slot = some i ∧
    g.isConnected (g.portId p.index) = true) ∨
  (m.defaults.get? ⟨group, some i⟩).isSome = true

variable [HasSignature κ]

/-- Every variadic group of values of every action node shows the slots up to the highest one in use
and one more, within the limit of 256, and one slot if none is in use. -/
def Exact (g : Graph κ) : Prop :=
  ∀ m ∈ g.nodes, ∀ k, m.kind = .action k → ∀ d ∈ (HasSignature.signature k).inputs,
    d.isVariadic = true → d.isControl = false →
    (∀ h, g.SlotInUse m d.name h → (∀ i, g.SlotInUse m d.name i → i ≤ h) →
      (g.variadicSlots m.id d.name).length = min (h + 2) 256) ∧
    ((∀ i, ¬g.SlotInUse m d.name i) → (g.variadicSlots m.id d.name).length = 1)

variable {g g' : Graph κ} {m : Node κ}

omit [HasSignature κ] in
theorem length_variadicSlots (hg : g.Ascending) (hm : m ∈ g.nodes) (group : String) :
    (g.variadicSlots m.id group).length = m.width group := by
  simp [variadicSlots, node?_of_mem hg hm, Node.width, List.countP_eq_length_filter]

omit [HasSignature κ] in
theorem mem_usedSlots_iff_slotInUse (hheld : m.held = .empty) {group : String} {i : Nat} :
    i ∈ g.usedSlots m group ↔ g.SlotInUse m group i := by
  rw [mem_usedSlots, SlotInUse, Node.Reserves, Table.mem_keys_iff, hheld]
  simp [isConnected, portId]

/-- A group of a node shows the slots up to the highest one in use and one more, within the limit of
256, and one slot if none is in use. -/
def ExactAt (g : Graph κ) (m : Node κ) (d : PortDecl) : Prop :=
  (∀ h, g.SlotInUse m d.name h → (∀ i, g.SlotInUse m d.name i → i ≤ h) →
    (g.variadicSlots m.id d.name).length = min (h + 2) 256) ∧
  ((∀ i, ¬g.SlotInUse m d.name i) → (g.variadicSlots m.id d.name).length = 1)

theorem exact_iff : g.Exact ↔ ∀ m ∈ g.nodes, ∀ d, m.DeclaresGroup d → g.ExactAt m d :=
  ⟨fun h m hm d ⟨k, hk, hd, hvar, hval⟩ => h m hm k hk d hd hvar hval,
    fun h m hm k hk d hd hvar hval => h m hm d ⟨k, hk, hd, hvar, hval⟩⟩

omit [HasSignature κ] in
/-- The arity is two more than the greatest slot in use, cut at the limit. -/
theorem settledAt_iff_exactAt (hg : g.Ascending) (hm : m ∈ g.nodes) (hheld : m.held = .empty)
    (d : PortDecl) : g.SettledAt m d ↔ g.ExactAt m d := by
  simp only [SettledAt, ExactAt, length_variadicSlots hg hm, ← mem_usedSlots_iff_slotInUse hheld,
    arity, arityOf, slotLimit]
  cases hmax : (g.usedSlots m d.name).max? with
  | none => simp [List.max?_eq_none_iff.1 hmax]
  | some a =>
    obtain ⟨ha, hle⟩ := List.max?_eq_some_iff.1 hmax
    constructor
    · intro hw
      refine ⟨fun h hh hbound => ?_, fun hnone => absurd ha (hnone a)⟩
      rw [hw, Nat.le_antisymm (hbound a ha) (hle h hh)]
    · rintro ⟨hgreatest, -⟩
      exact hgreatest a ha hle

/-- If no slot is held open, exactness says that all nodes are settled. -/
theorem steady_iff_exact (hv : g.Valid []) (hdistinct : ∀ m ∈ g.nodes, m.Distinct)
    (hheld : ∀ m ∈ g.nodes, m.held = .empty) : g.Steady [] [] ↔ g.Exact := by
  rw [exact_iff]
  constructor
  · intro h m hm d hd
    exact (settledAt_iff_exactAt hv.ascending hm (hheld m hm) d).1
      (h.settled m hm List.not_mem_nil d hd)
  · intro h
    exact ⟨hv, hdistinct, fun m hm _ d hd =>
      (settledAt_iff_exactAt hv.ascending hm (hheld m hm) d).2 (h m hm d hd)⟩

/-! ## Edits and rebuilds -/

/-- All edits but two settle the nodes that they unsettle. -/
theorem Steady.edit (h : g.Steady [] []) {e : Edit κ} (hisolate : ∀ n, e ≠ .isolateNode n)
    (hredefine : ∀ k, e ≠ .redefine k)
    (hd : ∀ k, e.offers = some k → (HasSignature.signature k).Distinct)
    (he : e.apply g = .ok g') : g'.Steady [] [] := by
  cases e with
  | addNode kind =>
    obtain ⟨r, hr, rfl⟩ := map_eq_ok.1 he
    have hkind : ∀ k, kind = .action k → (HasSignature.signature k).Distinct := by
      rintro k rfl
      exact hd k rfl
    exact h.addNodeAt hkind (addNode_eq_ok.1 hr).1
  | addNodeAt n kind =>
    have hkind : ∀ k, kind = .action k → (HasSignature.signature k).Distinct := by
      rintro k rfl
      exact hd k rfl
    exact h.addNodeAt hkind he
  | removeNode n =>
    obtain ⟨r, hr, rfl⟩ := map_eq_ok.1 he
    exact h.removeNode hr
  | setSignature s => exact h.setSignature he
  | connect a b => exact h.connect he
  | wire source output destination input => exact h.wire he
  | disconnect a b =>
    obtain ⟨r, hr, rfl⟩ := map_eq_ok.1 he
    obtain ⟨-, rfl⟩ := disconnect_eq_ok.1 hr
    exact h.cut _ []
  | isolatePort p =>
    obtain ⟨r, hr, rfl⟩ := map_eq_ok.1 he
    obtain ⟨-, rfl⟩ := isolatePort_eq_ok.1 hr
    exact h.cut _ []
  | isolateNode n => exact absurd rfl (hisolate n)
  | setConst n name v => exact h.setConst he
  | setDefault n k v => exact h.setDefault he
  | clearDefault n k =>
    obtain ⟨r, hr, rfl⟩ := map_eq_ok.1 he
    exact h.clearDefault hr
  | setPosition n p => exact h.setPosition he
  | redefine kind => exact absurd rfl (hredefine kind)
  | clone id =>
    obtain rfl := Except.ok.inj he
    exact h.clone id

end Graph

/-- A rebuild settles all nodes. -/
theorem Snapshot.steady_rebuild {c : Catalog} (hc : ∀ name d, c.get? name = some d →
    d.signature.Distinct) {id : Nat} {s : Option Signature} {snapshot : Snapshot}
    {g' : Graph Definition} (h : snapshot.rebuild c id s = .ok g') : g'.Steady [] [] := by
  obtain ⟨g₁, g₂, g₃, h₁, h₂, h₃, rfl⟩ := rebuild_eq_ok.1 h
  have hcanvas : (canvas id s).Steady [] [] :=
    ⟨valid_empty id .standard s, by simp [canvas, Graph.empty], by simp [canvas, Graph.empty]⟩
  have hplace : ∀ g g' r, g.Steady [] [] → placeNode c g r = .ok g' → g'.Steady [] [] := by
    intro g g' r hg hp
    obtain ⟨kind, k₁, k₂, k₃, hkind, hk₁, hk₂, hk₃, hk₄⟩ := placeNode_eq_ok.1 hp
    have hdistinct : ∀ d, kind = .action d → d.signature.Distinct := by
      rintro d rfl
      obtain ⟨name, hname⟩ := kindOf_eq_action hkind
      exact hc name d hname
    have hs := restoreConsts_induct (fun _ _ _ _ hg hs => Steady.setConst hg hs) hk₃
      ((hg.addNodeAt hdistinct hk₁).setPosition hk₂)
    exact restoreDefaults_induct (fun _ _ _ _ hg hs => Steady.setDefault hg hs) hk₄ hs
  have hg₁ := placeNodes_induct hplace h₁ hcanvas
  have hg₂ := holdSlots_induct (fun _ _ _ _ _ hg hh => Steady.hold hg hh) h₂ hg₁
  exact (restoreConnections_induct (fun _ _ _ _ hg hj => Steady.connect hg hj) h₃ hg₂).release

theorem Reachable.steady_iff_exact {g : Graph Definition} (h : Reachable Definition.Built g) :
    g.Steady [] [] ↔ g.Exact :=
  Graph.steady_iff_exact h.valid
    (fun m hm k hk => ((h.invariant.2 m hm).1 k hk).distinct) fun m hm => (h.invariant.2 m hm).2

/-- Every edit of a reachable exact graph, refused or not, ends in an exact graph, except where a
node is isolated or a kind redefined; and so does every rebuild of a snapshot, as long as the
counter of ports is in range (see `Graph.nextPort`). -/
theorem exact_of_edit_or_rebuild :
    (∀ (g : Graph Definition) (e : Edit Definition), Reachable Definition.Built g → g.Exact →
      (∀ k, e.offers = some k → k.Built) → (∀ n, e ≠ .isolateNode n) → (∀ k, e ≠ .redefine k) →
      (e.perform g).Exact) ∧
    ∀ (c : Catalog) (id : Nat) (s : Option Signature) (snapshot : Snapshot) (g : Graph Definition),
      (∀ name d, c.get? name = some d → d.Built) → snapshot.rebuild c id s = .ok g → g.Exact := by
  refine ⟨fun g e hg hexact hbuilt hisolate hredefine => ?_, fun c id s snapshot g hc h => ?_⟩
  · have hsteady := hg.steady_iff_exact.2 hexact
    have hafter : (e.perform g).Steady [] [] := Reachable.perform_induct
      (P := fun g => g.Steady [] []) (fun g' he =>
        hsteady.edit hisolate hredefine (fun k hk => (hbuilt k hk).distinct) he) hsteady
    exact (Reachable.edited e hbuilt hg).steady_iff_exact.1 hafter
  · have hreachable : Reachable Definition.Built g := .rebuilt hc h
    have hdistinct : ∀ name d, c.get? name = some d → d.signature.Distinct :=
      fun name d hd => (hc name d hd).distinct
    exact hreachable.steady_iff_exact.1 (steady_rebuild hdistinct h)

theorem built_gather : Definition.gather.Built :=
  .method (m := .gather) (define_eq_ok.2 ⟨_, rfl, checkParams_eq_ok.2 (by decide), rfl⟩)

/-- The removal of the source takes the slot back; and the chain is exact again once rebuilt. -/
theorem exact_gatherChain :
    (gatherChain.variadicSlots ⟨2⟩ "items").length = 2 ∧
      ((Edit.removeNode ⟨1⟩).perform gatherChain).Exact ∧
      ∃ g, (Snapshot.ofGraph gatherChain).rebuild (Catalog.empty.register .gather) 1 none = .ok g ∧
        g.Exact := by
  have hadd : ∀ k, (Edit.addNode (.action Definition.gather)).offers = some k → k.Built := by
    rintro k ⟨⟩
    exact built_gather
  have hblank : Reachable Definition.Built (.empty 0 .standard) := .blank 0 .standard
  have hone := Reachable.edited _ hadd hblank
  have htwo := Reachable.edited _ hadd hone
  have hedit := exact_of_edit_or_rebuild.1
  have xone := hedit _ _ hblank (fun m hm => absurd hm List.not_mem_nil) hadd (by simp) (by simp)
  have xtwo := hedit _ _ hone xone hadd (by simp) (by simp)
  have hthree := Reachable.edited (.connect ⟨0, 3⟩ ⟨0, 5⟩) (by simp [Edit.offers]) htwo
  have xthree := hedit _ (.connect ⟨0, 3⟩ ⟨0, 5⟩) htwo xtwo (by simp [Edit.offers]) (by simp)
    (by simp)
  refine ⟨by decide, hedit _ _ hthree xthree (by simp [Edit.offers]) (by simp) (by simp), ?_⟩
  have hcatalog := Catalog.forall_register (c := .empty) (by simp [Catalog.empty]) built_gather
  obtain ⟨g, hg⟩ : ∃ g, (Snapshot.ofGraph gatherChain).rebuild (Catalog.empty.register .gather) 1
      none = .ok g := ⟨_, rfl⟩
  exact ⟨g, hg, exact_of_edit_or_rebuild.2 _ _ _ _ _ hcatalog hg⟩

end EffectGraph
