import EffectGraph.Proofs.Retyping

/-!
# The kinds of the nodes and the slots they hold open

Edits change the kind of a node only where a node is made or its kind is redefined, and they hold
slots open only while a graph is rebuilt. `Every Q g` says that all nodes have a kind and held slots
that satisfy `Q`; each edit is shown to keep it under the obvious condition on what it brings in.
-/

namespace EffectGraph

variable {κ : Type}

namespace Graph

variable {Q : NodeKind κ → Table String Nat → Prop} {g g' : Graph κ} {n : NodeId}

/-- All nodes have a kind and held slots with the given property. -/
def Every (Q : NodeKind κ → Table String Nat → Prop) (g : Graph κ) : Prop :=
  ∀ m ∈ g.nodes, Q m.kind m.held

theorem Every.of_nodes (h : g.Every Q) (hn : ∀ k ∈ g'.nodes, ∃ m ∈ g.nodes, m.kind = k.kind ∧
    m.held = k.held) : g'.Every Q := by
  intro k hk
  obtain ⟨m, hm, hkind, hheld⟩ := hn k hk
  exact hkind ▸ hheld ▸ h m hm

theorem Every.mono {Q' : NodeKind κ → Table String Nat → Prop} (h : g.Every Q)
    (hQ : ∀ kind held, Q kind held → Q' kind held) : g.Every Q' :=
  fun m hm => hQ _ _ (h m hm)

theorem Every.reshapes (h : g.Every Q) (hr : g.Reshapes g') : g'.Every Q :=
  h.of_nodes fun _ hk =>
    let ⟨m, hm, he⟩ := hr.origin hk
    ⟨m, hm, congrArg (·.kind) he, congrArg (·.held) he⟩

theorem Every.updateNode (h : g.Every Q) {f : Node κ → Node κ}
    (hf : ∀ m ∈ g.nodes, m.id = n → Q (f m).kind (f m).held) : (g.updateNode n f).Every Q := by
  intro k hk
  obtain ⟨m, hm, rfl⟩ := mem_nodes_updateNode.1 hk
  split
  next hid => exact hf m hm hid
  next => exact h m hm

variable [HasSignature κ] {stale : List NodeId}

theorem Every.cut (h : g.Every Q) (hv : g.Valid stale) (p : Connection → Bool)
    (except : List NodeId) : (g.cut p except).1.Every Q :=
  Every.reshapes (g := g.sever p) h (reshapes_refresh (hv.wellFormed.sever p) _)

theorem Every.connect (h : g.Every Q) (hv : g.Valid stale) {a b : PortId}
    (hc : g.connect a b = .ok g') : g'.Every Q := by
  obtain ⟨j, hj, rfl⟩ := connect_eq_ok.1 hc
  rcases join_eq g j with ⟨he, -⟩ | ⟨-, he⟩
  · rw [he]
    exact h
  · rw [he]
    have hwf := hv.wellFormed.linked (.of_checkConnection hj)
    exact Every.reshapes (g := g.linked j) h (reshapes_refresh hwf _)

theorem Every.wire (h : g.Every Q) (hv : g.Valid stale) {source destination : NodeId}
    {output input : String} (hw : g.wire source output destination input = .ok g') :
    g'.Every Q := by
  obtain ⟨a, b, -, -, hc⟩ := wire_eq_ok.1 hw
  exact h.connect hv hc

theorem Every.addNodeAt (h : g.Every Q) (hv : g.Valid stale) {kind : NodeKind κ}
    (hk : Q kind .empty) (ha : g.addNodeAt n kind = .ok g') : g'.Every Q := by
  refine Every.reshapes (g := { g with nodes := insertNode (.fresh n kind) g.nodes }) ?_
    (hv.reshapes_place ha)
  intro m hm
  rcases mem_insertNode.1 hm with rfl | hm
  · exact hk
  · exact h m hm

omit [HasSignature κ] in
theorem Every.setPosition (h : g.Every Q) {p : Position} (hp : g.setPosition n p = .ok g') :
    g'.Every Q := by
  obtain ⟨-, rfl⟩ := setPosition_eq_ok.1 hp
  exact h.updateNode fun m hm _ => h m hm

theorem Every.removeNode (h : g.Every Q) (hv : g.Valid stale) {r : Graph κ × Node κ}
    (hr : g.removeNode n = .ok r) : r.1.Every Q := by
  obtain ⟨m, -, -, hr⟩ := removeNode_eq_ok.1 hr
  rw [← hr]
  exact fun k hk => h.cut hv _ _ k (List.mem_filter.1 hk).1

theorem Every.setConst (h : g.Every Q) {name : String} {v : Value}
    (hs : g.setConst n name v = .ok g') : g'.Every Q := by
  obtain ⟨-, rfl⟩ := setConst_eq_ok.1 hs
  exact h.updateNode fun m hm _ => h m hm

theorem Valid.reshapes_updateDefaults (hv : g.Valid stale) (isGroup : Bool)
    (f : Table SlotKey Value → Table SlotKey Value) :
    (g.updateNode n (.mapDefaults f)).Reshapes
      ((g.updateNode n (.mapDefaults f)).reshapeIf n isGroup) := by
  have hwf : (g.updateNode n (.mapDefaults f)).WellFormed :=
    hv.wellFormed.updateNode (fun _ => rfl) (fun _ => rfl) fun _ => rfl
  unfold reshapeIf
  split
  · exact reshapes_reshape hwf n
  · exact .refl _

theorem Every.updateDefaults (h : g.Every Q) (hv : g.Valid stale) (isGroup : Bool)
    (f : Table SlotKey Value → Table SlotKey Value) :
    ((g.updateNode n (.mapDefaults f)).reshapeIf n isGroup).Every Q := by
  have hnode : (g.updateNode n (.mapDefaults f)).Every Q := h.updateNode fun m hm _ => h m hm
  exact hnode.reshapes (hv.reshapes_updateDefaults isGroup f)

theorem Every.setDefault (h : g.Every Q) (hv : g.Valid stale) {k : SlotKey} {v : Value}
    (hs : g.setDefault n k v = .ok g') : g'.Every Q := by
  obtain ⟨-, rfl⟩ := setDefault_eq_ok.1 hs
  exact h.updateDefaults hv _ fun t => t.insert k v

theorem Every.clearDefault (h : g.Every Q) (hv : g.Valid stale) {k : SlotKey}
    {r : Graph κ × Option Value} (hc : g.clearDefault n k = .ok r) : r.1.Every Q := by
  obtain ⟨-, m, -, rfl⟩ := clearDefault_eq_ok.1 hc
  exact h.updateDefaults hv _ fun t => t.erase k

theorem Every.ensure (h : g.Every Q) (hv : g.Valid stale) {kind : NodeKind κ}
    (hk : Q kind .empty) {present : Option NodeId} {r : Graph κ × Option NodeId}
    (he : g.ensure kind present = .ok r) : r.1.Every Q := by
  rcases ensure_eq_ok.1 he with ⟨m, rfl, rfl⟩ | ⟨rfl, g', m, ha, rfl⟩
  · exact h.reshapes (reshapes_reshape hv.wellFormed m)
  · exact h.addNodeAt hv hk (addNode_eq_ok.1 ha).1

theorem Every.setSignature (h : g.Every Q) (hv : g.Valid []) (hentry : Q .entry .empty)
    (hresult : Q .result .empty) {s : Signature} (hs : g.setSignature s = .ok g') : g'.Every Q := by
  obtain ⟨r, r', hr, hr', hwire⟩ := setSignature_eq_ok.1 hs
  have hv₁ := hv.ensure_entry hr
  have hv₂ := hv.ensure_both hr hr'
  have h₁ : r.1.Every Q :=
    Every.ensure (g := { g with signature := some s }) h (hv.signed s) hentry hr
  have h₂ := h₁.ensure hv₁ hresult hr'
  rcases hwire with ⟨e, t, -, -, hwire⟩ | ⟨-, rfl⟩
  · exact h₂.wire hv₂ hwire
  · exact h₂

theorem Every.redefineNode (h : g.Every Q) (hv : g.Valid stale) {kind : κ}
    (hk : ∀ held, (∃ old, Q old held) → Q (.action kind) held) :
    (g.redefineNode kind n).Every Q := by
  have hturned := h.updateNode (n := n) (f := fun m =>
    { m with
      kind := .action kind
      consts := m.consts.filter fun name _ =>
        ((HasSignature.signature kind).const? name).isSome
      defaults := m.defaults.filter fun k _ => declaresSlot (HasSignature.signature kind) k })
    fun m hm _ => hk _ ⟨_, h m hm⟩
  refine hturned.reshapes (reshapes_reshape ?_ n)
  exact hv.wellFormed.updateNode (fun _ => rfl) (fun _ => rfl) fun _ => rfl

theorem Every.redefine (h : g.Every Q) (hv : g.Valid stale) {kind : κ}
    (hk : ∀ held, (∃ old, Q old held) → Q (.action kind) held) : (g.redefine kind).1.Every Q := by
  refine (List.foldlRecOn (motive := fun g => Valid stale g ∧ g.Every Q) _ _ ⟨hv, h⟩
    fun _ hg n _ => ?_).2
  exact ⟨hg.1.redefineNode kind n, hg.2.redefineNode hg.1 hk⟩

/-- Holding a slot open does not change kinds. -/
theorem Every.hold {Q : NodeKind κ → Prop} (h : g.Every fun kind _ => Q kind)
    (hv : g.Valid stale) {group : String} {index : Nat} (hh : g.hold n group index = .ok g') :
    g'.Every fun kind _ => Q kind := by
  obtain ⟨-, rfl⟩ := hold_eq_ok.1 hh
  have hraised : (g.updateNode n (raised group index)).Every fun kind _ => Q kind :=
    h.updateNode fun m hm _ => h m hm
  refine hraised.reshapes (reshapes_reshape ?_ n)
  exact hv.wellFormed.updateNode (fun _ => rfl) (fun _ => rfl) fun _ => rfl

theorem Valid.reshapes_release (hv : g.Valid stale) : g.unheld.Reshapes g.release :=
  (List.foldlRecOn (motive := fun k => Valid stale k ∧ g.unheld.Reshapes k) g.holding _
    ⟨hv.unheld, .refl _⟩ fun _ hk n _ =>
      ⟨(hk.1.reshape n).mono fun _ hm => (List.mem_filter.1 hm).1,
        hk.2.trans (reshapes_reshape hk.1.wellFormed n)⟩).2

/-- After the release no slot is held open. -/
theorem Every.release {Q : NodeKind κ → Prop} (h : g.Every fun kind _ => Q kind)
    (hv : g.Valid stale) : g.release.Every fun kind held => Q kind ∧ held = .empty := by
  refine Every.reshapes ?_ hv.reshapes_release
  intro k hk
  obtain ⟨m, hm, rfl⟩ := mem_nodes_unheld.1 hk
  exact ⟨h m hm, rfl⟩

end Graph

end EffectGraph
