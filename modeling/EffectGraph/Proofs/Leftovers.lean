import EffectGraph.Proofs.Ownership
import EffectGraph.Proofs.Placing

/-!
# Stored values after the shape has changed

Constants and defaults are checked against the shape of their node when they are stored, and the
shape may change afterwards. A new definition of a kind drops what it does not declare, so an action
node stores what its kind accepts in every reachable graph. A new signature leaves the defaults of
Return as they are: they are accepted under it exactly if it declares all of their slots. So the
defaults of Return outlast a change of the signature, and a run of edits leaves no value behind if
each new signature declares what Return stores by then (`Reachable.accepts_stored`).
-/

namespace EffectGraph

open EffectGraph.Graph Snapshot

/-- Whether a signature declares the slot of a default of Return. -/
def Signature.returnsSlot (s : Signature) (k : SlotKey) : Bool :=
  (s.output? k.name).any fun p => p.isVariadic = k.index.isSome

/-- The kind of the node declares the constants that the node stores. -/
def Node.DeclaresConsts (n : Node Definition) : Prop :=
  ∀ name ∈ n.consts.keys, ∃ d, n.kind = .action d ∧ (d.signature.const? name).isSome = true

/-- The slots of the defaults of a node are accepted as they were when the defaults were set. -/
def Graph.AcceptsDefaults (g : Graph Definition) (n : Node Definition) : Prop :=
  ∀ k ∈ n.defaults.keys, ∃ isGroup, g.checkSlot n.id k = .ok isGroup

/-- The signature of the graph declares the slot of a default of Return. -/
def Graph.ReturnsSlot {κ : Type} (g : Graph κ) (k : SlotKey) : Prop :=
  ∃ s, g.signature = some s ∧ s.returnsSlot k = true

/-! ## What the pseudo-nodes store -/

variable {κ : Type} {slots : SlotKey → Prop}

/-- Entry and Return store no constants, Entry stores no defaults, and Return those of given slots
only. -/
structure Node.Within (slots : SlotKey → Prop) (n : Node κ) : Prop where
  consts : ∀ name ∈ n.consts.keys, ∃ k, n.kind = .action k
  defaults : ∀ k ∈ n.defaults.keys, (∃ d, n.kind = .action d) ∨ n.kind = .result ∧ slots k

theorem Node.Within.of_bare {m n : Node κ} (h : m.Within slots) (hbare : m.bare = n.bare) :
    n.Within slots := by
  have hconsts : m.consts = n.consts := congrArg (·.consts) hbare
  have hdefaults : m.defaults = n.defaults := congrArg (·.defaults) hbare
  have hkind : m.kind = n.kind := congrArg (·.kind) hbare
  exact ⟨hkind ▸ hconsts ▸ h.consts, hkind ▸ hdefaults ▸ h.defaults⟩

/-- An action node may store what its kind declares. -/
theorem Node.within_of_action {n : Node κ} {k : κ} (hkind : n.kind = .action k) :
    n.Within slots := ⟨fun _ _ => ⟨k, hkind⟩, fun _ _ => .inl ⟨k, hkind⟩⟩

namespace Graph

variable {g g' : Graph κ} {n : NodeId}

/-- What the pseudo-nodes of a graph store is limited to defaults of Return for given slots. -/
def Within (slots : SlotKey → Prop) (g : Graph κ) : Prop := ∀ m ∈ g.nodes, m.Within slots

theorem Within.reshapes (h : g.Within slots) (hr : g.Reshapes g') : g'.Within slots := by
  intro k hk
  obtain ⟨m, hm, hbare⟩ := hr.origin hk
  exact (h m hm).of_bare hbare

theorem Within.mono {slots' : SlotKey → Prop} (h : g.Within slots)
    (hslots : ∀ k, slots k → slots' k) : g.Within slots' := fun m hm =>
  ⟨(h m hm).consts, fun k hk => ((h m hm).defaults k hk).imp_right (.imp_right (hslots k))⟩

theorem Within.updateNode (h : g.Within slots) {f : Node κ → Node κ}
    (hf : ∀ m ∈ g.nodes, m.id = n → (f m).Within slots) : (g.updateNode n f).Within slots := by
  intro k hk
  obtain ⟨m, hm, rfl⟩ := mem_nodes_updateNode.1 hk
  split
  next hid => exact hf m hm hid
  next => exact h m hm

variable [HasSignature κ]

theorem Within.connect (h : g.Within slots) (hv : g.Valid []) {a b : PortId}
    (hc : g.connect a b = .ok g') : g'.Within slots := by
  obtain ⟨j, hj, rfl⟩ := connect_eq_ok.1 hc
  rcases join_eq g j with ⟨he, -⟩ | ⟨-, he⟩
  · rw [he]
    exact h
  · rw [he]
    have hwf := hv.wellFormed.linked (.of_checkConnection hj)
    exact Within.reshapes (g := g.linked j) h (reshapes_refresh hwf _)

theorem Within.cut (h : g.Within slots) (hv : g.Valid []) (p : Connection → Bool)
    (except : List NodeId) : (g.cut p except).1.Within slots :=
  Within.reshapes (g := g.sever p) h (reshapes_refresh (hv.wellFormed.sever p) _)

theorem Within.addNodeAt {stale : List NodeId} (h : g.Within slots) (hv : g.Valid stale)
    {kind : NodeKind κ} (ha : g.addNodeAt n kind = .ok g') : g'.Within slots := by
  refine Within.reshapes (g := { g with nodes := insertNode (.fresh n kind) g.nodes }) ?_
    (hv.reshapes_place ha)
  intro m hm
  rcases mem_insertNode.1 hm with rfl | hm
  · exact ⟨fun name hname => absurd hname Table.not_mem_keys_empty,
      fun k hk => absurd hk Table.not_mem_keys_empty⟩
  · exact h m hm

theorem Within.ensure {stale : List NodeId} (h : g.Within slots) (hv : g.Valid stale)
    {kind : NodeKind κ} {present : Option NodeId} {r : Graph κ × Option NodeId}
    (he : g.ensure kind present = .ok r) : r.1.Within slots := by
  rcases ensure_eq_ok.1 he with ⟨m, rfl, rfl⟩ | ⟨rfl, g', m, ha, rfl⟩
  · exact h.reshapes (reshapes_reshape hv.wellFormed m)
  · exact h.addNodeAt hv (addNode_eq_ok.1 ha).1

/-- A new signature changes nothing that is stored. -/
theorem Within.setSignature (h : g.Within slots) (hv : g.Valid []) {s : Signature}
    (hs : g.setSignature s = .ok g') : g'.Within slots := by
  obtain ⟨r, r', hr, hr', hwire⟩ := setSignature_eq_ok.1 hs
  have h₁ : r.1.Within slots :=
    Within.ensure (g := { g with signature := some s }) h (hv.signed s) hr
  have h₂ := h₁.ensure (hv.ensure_entry hr) hr'
  rcases hwire with ⟨e, t, -, -, hwire⟩ | ⟨-, rfl⟩
  · obtain ⟨a, b, -, -, hc⟩ := wire_eq_ok.1 hwire
    exact h₂.connect (hv.ensure_both hr hr') hc
  · exact h₂

theorem Within.setConst (h : g.Within slots) (hv : g.Valid []) {name : String} {v : Value}
    (hs : g.setConst n name v = .ok g') : g'.Within slots := by
  obtain ⟨⟨m, hm, k, hkind, -⟩, rfl⟩ := setConst_eq_ok.1 hs
  obtain ⟨hmem, hid⟩ := node?_mem hm
  refine h.updateNode fun m' hm' hid' => ?_
  obtain rfl := hv.ascending.id_inj hm' hmem (hid'.trans hid.symm)
  exact Node.within_of_action hkind

theorem Within.updateDefaults (h : g.Within slots) (hv : g.Valid []) (isGroup : Bool)
    {f : Table SlotKey Value → Table SlotKey Value}
    (hf : ∀ m ∈ g.nodes, m.id = n → (m.mapDefaults f).Within slots) :
    ((g.updateNode n (.mapDefaults f)).reshapeIf n isGroup).Within slots :=
  (h.updateNode hf).reshapes (hv.reshapes_updateDefaults isGroup f)

/-- A default is set on Return only for a slot that the signature of the graph declares. -/
theorem Within.setDefault (h : g.Within slots) (hv : g.Valid [])
    (hslots : ∀ k, g.ReturnsSlot k → slots k) {k : SlotKey} {v : Value}
    (hs : g.setDefault n k v = .ok g') : g'.Within slots := by
  obtain ⟨hcheck, rfl⟩ := setDefault_eq_ok.1 hs
  obtain ⟨m, p, hm, hp, hgroup, -, -⟩ := checkSlot_eq_ok.1 hcheck
  obtain ⟨hmem, hid⟩ := node?_mem hm
  refine h.updateDefaults hv _ fun m' hm' hid' => ?_
  obtain rfl := hv.ascending.id_inj hm' hmem (hid'.trans hid.symm)
  refine ⟨(h m' hm').consts, fun j hj => ?_⟩
  rcases Table.mem_keys_insert.1 hj with rfl | hj
  · cases hkind : m'.kind with
    | action d => exact .inl ⟨d, hkind⟩
    | entry => simp [slotDecl?, hkind] at hp
    | result =>
      simp only [slotDecl?, hkind, Option.bind_eq_some_iff] at hp
      obtain ⟨s, hsig, hp⟩ := hp
      exact .inr ⟨hkind, hslots j ⟨s, hsig, by simp [Signature.returnsSlot, hp, hgroup]⟩⟩
  · exact (h m' hm').defaults j hj

theorem Within.clearDefault (h : g.Within slots) (hv : g.Valid []) {k : SlotKey}
    {r : Graph κ × Option Value} (hc : g.clearDefault n k = .ok r) : r.1.Within slots := by
  obtain ⟨-, m, -, rfl⟩ := clearDefault_eq_ok.1 hc
  exact h.updateDefaults hv _ fun m' hm' _ =>
    ⟨(h m' hm').consts, fun j hj => (h m' hm').defaults j (Table.mem_keys_erase.1 hj).2⟩

theorem Within.redefine (h : g.Within slots) (hv : g.Valid []) (kind : κ) :
    (g.redefine kind).1.Within slots := by
  refine (List.foldlRecOn (motive := fun g => Valid [] g ∧ Within slots g) _ _ ⟨hv, h⟩
    fun k hk n _ => ⟨hk.1.redefineNode kind n, ?_⟩).2
  have hturned : (k.updateNode n (.turn kind)).Within slots :=
    hk.2.updateNode fun _ _ _ => Node.within_of_action rfl
  exact hturned.reshapes (reshapes_reshape (hk.1.turn kind n).wellFormed n)

/-- No edit stores anything on a pseudo-node but defaults of Return for slots that the signature of
the graph declares by then. -/
theorem Within.edit (h : g.Within slots) (hv : g.Valid [])
    (hslots : ∀ k, g.ReturnsSlot k → slots k) {e : Edit κ} (he : e.apply g = .ok g') :
    g'.Within slots := by
  cases e with
  | addNode kind =>
    obtain ⟨r, hr, rfl⟩ := map_eq_ok.1 he
    exact h.addNodeAt hv (addNode_eq_ok.1 hr).1
  | addNodeAt n kind => exact h.addNodeAt hv he
  | removeNode n =>
    obtain ⟨r, hr, rfl⟩ := map_eq_ok.1 he
    obtain ⟨m, -, -, hr⟩ := removeNode_eq_ok.1 hr
    rw [← hr]
    exact fun k hk => h.cut hv _ _ k (List.mem_filter.1 hk).1
  | setSignature s => exact h.setSignature hv he
  | connect a b => exact h.connect hv he
  | wire source output destination input =>
    obtain ⟨a, b, -, -, hc⟩ := wire_eq_ok.1 he
    exact h.connect hv hc
  | disconnect a b =>
    obtain ⟨r, hr, rfl⟩ := map_eq_ok.1 he
    obtain ⟨-, rfl⟩ := disconnect_eq_ok.1 hr
    exact h.cut hv _ _
  | isolatePort p =>
    obtain ⟨r, hr, rfl⟩ := map_eq_ok.1 he
    obtain ⟨-, rfl⟩ := isolatePort_eq_ok.1 hr
    exact h.cut hv _ _
  | isolateNode n =>
    obtain ⟨r, hr, rfl⟩ := map_eq_ok.1 he
    obtain ⟨m, -, rfl⟩ := isolateNode_eq_ok.1 hr
    exact h.cut hv _ _
  | setConst n name v => exact h.setConst hv he
  | setDefault n k v => exact h.setDefault hv hslots he
  | clearDefault n k =>
    obtain ⟨r, hr, rfl⟩ := map_eq_ok.1 he
    exact h.clearDefault hv hr
  | setPosition n p =>
    obtain ⟨-, rfl⟩ := setPosition_eq_ok.1 he
    exact h.updateNode fun m hm _ => ⟨(h m hm).consts, (h m hm).defaults⟩
  | redefine kind =>
    obtain rfl := Except.ok.inj he
    exact h.redefine hv kind
  | clone id =>
    obtain rfl := Except.ok.inj he
    exact h

end Graph

/-! ## Rebuilt graphs -/

namespace Snapshot

variable {c : Catalog} {s : Option Signature} {g g' : Graph Definition}

/-- While a graph is rebuilt, Return stores defaults for slots of its signature only. -/
structure Stocked (s : Option Signature) (g : Graph Definition) : Prop extends OwnedBy s g where
  within : g.Within g.ReturnsSlot

theorem Stocked.edit (h : Stocked s g) {e : Edit Definition} (hsigns : e.signs? = none)
    (he : e.apply g = .ok g') : Stocked s g' := by
  have howned := h.toOwnedBy.edit hsigns he
  have hsame : g'.signature = g.signature := howned.signature.trans h.signature.symm
  refine ⟨howned, (h.within.edit h.valid (fun _ hk => hk) he).mono fun k hk => ?_⟩
  rwa [ReturnsSlot, hsame]

theorem Stocked.placeNode (h : Stocked s g) {r : NodeRecord} (hp : placeNode c g r = .ok g') :
    Stocked s g' := by
  obtain ⟨kind, g₁, g₂, g₃, -, h₁, h₂, h₃, h₄⟩ := placeNode_eq_ok.1 hp
  have hg₁ : Stocked s g₁ := h.edit (e := .addNodeAt _ kind) rfl h₁
  have hg₂ : Stocked s g₂ := hg₁.edit (e := .setPosition _ r.position) rfl h₂
  have hg₃ : Stocked s g₃ := restoreConsts_induct
    (fun _ _ name v hg hs => hg.edit (e := .setConst _ name v) rfl hs) h₃ hg₂
  exact restoreDefaults_induct
    (fun _ _ k v hg hs => hg.edit (e := .setDefault _ k v) rfl hs) h₄ hg₃

theorem Stocked.hold (h : Stocked s g) {n : NodeId} {group : String} {i : Nat}
    (hh : g.hold n group i = .ok g') : Stocked s g' := by
  have hsame := hold_signature hh
  refine ⟨⟨h.valid.hold hh, hsame.trans h.signature, fun hs => (h.actions hs).hold h.valid hh⟩, ?_⟩
  obtain ⟨-, rfl⟩ := hold_eq_ok.1 hh
  have hraised : (g.updateNode n (raised group i)).Within g.ReturnsSlot :=
    h.within.updateNode fun m hm _ => ⟨(h.within m hm).consts, (h.within m hm).defaults⟩
  have hwf : (g.updateNode n (raised group i)).WellFormed :=
    h.valid.wellFormed.updateNode (fun _ => rfl) (fun _ => rfl) fun _ => rfl
  refine (hraised.reshapes (reshapes_reshape hwf n)).mono fun k hk => ?_
  rwa [ReturnsSlot, hsame]

/-- In a rebuilt graph Return stores defaults for slots of its signature only. -/
theorem within_rebuild {id : Nat} {snapshot : Snapshot}
    (h : snapshot.rebuild c id s = .ok g') : g'.Within g'.ReturnsSlot := by
  obtain ⟨g₁, g₂, g₃, h₁, h₂, h₃, rfl⟩ := rebuild_eq_ok.1 h
  have hcanvas : Stocked s (canvas id s) :=
    ⟨⟨valid_empty id .standard s, rfl, by simp [Every, canvas, Graph.empty]⟩,
      by simp [Graph.Within, canvas, Graph.empty]⟩
  have hg₁ : Stocked s g₁ := placeNodes_induct (fun _ _ _ hg hp => hg.placeNode hp) h₁ hcanvas
  have hg₂ : Stocked s g₂ := holdSlots_induct (fun _ _ _ _ _ hg hh => hg.hold hh) h₂ hg₁
  have hg₃ : Stocked s g₃ := restoreConnections_induct
    (fun _ _ a b hg hj => hg.edit (e := .connect a b) rfl hj) h₃ hg₂
  have hunheld : g₃.unheld.Within g₃.ReturnsSlot := by
    intro k hk
    obtain ⟨m, hm, rfl⟩ := mem_nodes_unheld.1 hk
    exact ⟨(hg₃.within m hm).consts, (hg₃.within m hm).defaults⟩
  have hreshapes := hg₃.valid.reshapes_release
  refine (hunheld.reshapes hreshapes).mono fun k hk => ?_
  rwa [ReturnsSlot, show g₃.release.signature = g₃.signature from hreshapes.signature]

end Snapshot

/-! ## Reachable graphs -/

namespace Graph

variable {g g' : Graph Definition} {n : Node Definition}

/-- The defaults of a node are accepted if those of Return are for slots that the signature of the
graph declares. -/
theorem Valid.acceptsDefaults_iff (hv : g.Valid []) (hw : n.Within slots) (hn : n ∈ g.nodes) :
    g.AcceptsDefaults n ↔ (n.kind = .result → ∀ k ∈ n.defaults.keys, g.ReturnsSlot k) := by
  have hfound := node?_of_mem hv.ascending hn
  have hst := hv.stored n hn
  constructor
  · intro h hkind k hk
    obtain ⟨_, hcheck⟩ := h k hk
    obtain ⟨m, p, hm, hp, hgroup, -, -⟩ := checkSlot_eq_ok.1 hcheck
    obtain rfl := Option.some.inj (hfound.symm.trans hm)
    simp only [slotDecl?, hkind, Option.bind_eq_some_iff] at hp
    obtain ⟨s, hs, hp⟩ := hp
    exact ⟨s, hs, by simp [Signature.returnsSlot, hp, hgroup]⟩
  · intro h k hk
    suffices hdecl : ∃ p, g.slotDecl? n k.name = some p ∧ p.isVariadic = k.index.isSome by
      obtain ⟨p, hp, hgroup⟩ := hdecl
      exact ⟨_, checkSlot_eq_ok.2 ⟨n, p, hfound, hp, hgroup, rfl, hst.below k hk⟩⟩
    rcases hw.defaults k hk with ⟨d, hkind⟩ | ⟨hkind, -⟩
    · obtain ⟨p, hp, hgroup⟩ := (Option.any_eq_true _ _).1 (hst.defaults d hkind k hk)
      exact ⟨p, by simp only [slotDecl?, hkind, hp], by simpa using hgroup⟩
    · obtain ⟨s, hs, hreturns⟩ := h hkind k hk
      obtain ⟨p, hp, hgroup⟩ := (Option.any_eq_true _ _).1 hreturns
      exact ⟨p, by simp only [slotDecl?, hkind, hs, Option.bind_some, hp], by simpa using hgroup⟩

theorem Within.acceptsDefaults (h : g.Within g.ReturnsSlot) (hv : g.Valid []) (hn : n ∈ g.nodes) :
    g.AcceptsDefaults n := by
  refine (hv.acceptsDefaults_iff (h n hn) hn).2 fun hkind k hk => ?_
  rcases (h n hn).defaults k hk with ⟨d, hd⟩ | ⟨-, hslot⟩
  · exact absurd (hkind.symm.trans hd) (by simp)
  · exact hslot

/-- If the defaults of Return are for given slots, so is all that the pseudo-nodes store. -/
theorem Within.of_result {slots' : SlotKey → Prop} (h : g.Within slots)
    (hresult : ∀ m ∈ g.nodes, m.kind = .result → ∀ k ∈ m.defaults.keys, slots' k) :
    g.Within slots' := fun m hm =>
  ⟨(h m hm).consts, fun k hk => ((h m hm).defaults k hk).imp_right fun hr =>
    ⟨hr.1, hresult m hm hr.1 k hk⟩⟩

/-- What a node stores is still stored on it under a new signature. -/
theorem Valid.stores_setSignature (hv : g.Valid []) {s : Signature}
    (hs : g.setSignature s = .ok g') (hn : n ∈ g.nodes) : ∃ m ∈ g'.nodes, m.bare = n.bare := by
  have hensure : ∀ {k : Graph Definition} {stale : List NodeId} {kind : NodeKind Definition}
      {present : Option NodeId} {r : Graph Definition × Option NodeId}, k.Valid stale →
      k.ensure kind present = .ok r → ∀ m ∈ k.nodes, ∃ m' ∈ r.1.nodes, m'.bare = m.bare := by
    intro k stale kind present r hk he m hm
    rcases ensure_eq_ok.1 he with ⟨j, rfl, rfl⟩ | ⟨rfl, k', j, ha, rfl⟩
    · exact (reshapes_reshape hk.wellFormed j).image hm
    · exact (hk.reshapes_place (addNode_eq_ok.1 ha).1).image (mem_insertNode.2 (.inr hm))
  obtain ⟨r, r', hr, hr', hwire⟩ := setSignature_eq_ok.1 hs
  obtain ⟨m₁, hm₁, h₁⟩ := hensure (hv.signed s) hr n hn
  obtain ⟨m₂, hm₂, h₂⟩ := hensure (hv.ensure_entry hr) hr' m₁ hm₁
  rcases hwire with ⟨e, t, -, -, hwire⟩ | ⟨-, rfl⟩
  · obtain ⟨a, b, -, -, hc⟩ := wire_eq_ok.1 hwire
    obtain ⟨j, hj, rfl⟩ := connect_eq_ok.1 hc
    have hwf := (hv.ensure_both hr hr').wellFormed
    rcases join_eq r'.1 j with ⟨he, -⟩ | ⟨-, he⟩
    · exact ⟨m₂, he.symm ▸ hm₂, h₂.trans h₁⟩
    · have hlinked : m₂ ∈ (r'.1.linked j).nodes := hm₂
      have hreshapes := reshapes_refresh (hwf.linked (.of_checkConnection hj))
      obtain ⟨m₃, hm₃, h₃⟩ := (hreshapes _).image hlinked
      exact ⟨m₃, he.symm ▸ hm₃, h₃.trans (h₂.trans h₁)⟩
  · exact ⟨m₂, hm₂, h₂.trans h₁⟩

end Graph

/-- A new signature declares the slots of all defaults that Return stores by then. -/
def Edit.Covers (g : Graph Definition) (e : Edit Definition) : Prop :=
  ∀ s, e.signs? = some s →
    ∀ m ∈ g.nodes, m.kind = .result → ∀ k ∈ m.defaults.keys, s.returnsSlot k = true

/-- The reachable graphs whose signatures have always declared what Return stored by then. -/
inductive Tended (K : Definition → Prop) : Graph Definition → Prop
  | blank (id : Nat) (hook : ConversionHook) : Tended K (.empty id hook)
  | owned {id : Nat} {s : Signature} {g : Graph Definition} (hook : ConversionHook)
    (h : Graph.withSignature id .standard s = .ok g) : Tended K { g with hook := hook }
  | rebuilt {c : Catalog} {id : Nat} {s : Option Signature} {snapshot : Snapshot}
    {g : Graph Definition} (hc : ∀ name d, c.get? name = some d → K d)
    (h : snapshot.rebuild c id s = .ok g) : Tended K g
  | edited {g : Graph Definition} (e : Edit Definition) (hK : ∀ k, e.offers = some k → K k)
    (hcovers : e.Covers g) (h : Tended K g) : Tended K (e.perform g)

variable {K : Definition → Prop} {g g' : Graph Definition}

theorem Tended.reachable (h : Tended K g) : Reachable K g := by
  induction h with
  | blank id hook => exact .blank id hook
  | owned hook h => exact .owned hook h
  | rebuilt hc h => exact .rebuilt hc h
  | edited e hK _ _ ih => exact .edited e hK ih

theorem within_withSignature {id : Nat} {s : Signature}
    (h : Graph.withSignature id .standard s = .ok g) : g.Within slots :=
  Within.setSignature (g := .empty id .standard) (by simp [Graph.Within, Graph.empty])
    (valid_empty id .standard none) h

/-- The pseudo-nodes of a reachable graph store nothing but defaults of Return. -/
theorem Reachable.within (h : Reachable K g) : g.Within fun _ => True := by
  induction h with
  | blank id hook => simp [Graph.Within, Graph.empty]
  | @owned id s g hook h =>
    have hw : g.Within fun _ => True := within_withSignature h
    exact hw
  | rebuilt hc h => exact (within_rebuild h).mono fun _ _ => trivial
  | edited e hK hg ih =>
    exact perform_induct (P := fun g => g.Within fun _ => True)
      (fun g' he => ih.edit hg.valid (fun _ _ => trivial) he) ih

/-- An edit that covers what Return stores leaves nothing behind. -/
theorem Graph.Within.edit_covers (h : g.Within g.ReturnsSlot) (hv : g.Valid [])
    {e : Edit Definition} (hcovers : e.Covers g) (he : e.apply g = .ok g') :
    g'.Within g'.ReturnsSlot := by
  have hsignature := Edit.signature_apply he
  cases hsigns : e.signs? with
  | none =>
    have hsame : g'.signature = g.signature := by rw [hsignature, hsigns, Option.none_or]
    refine (h.edit hv (fun _ hk => hk) he).mono fun k hk => ?_
    rwa [ReturnsSlot, hsame]
  | some s =>
    obtain rfl : e = .setSignature s := by
      cases e <;> simp_all [Edit.signs?]
    have hnew : g.Within fun k => s.returnsSlot k = true := h.of_result (hcovers s hsigns)
    refine (hnew.setSignature hv he).mono fun k hk => ⟨s, ?_, hk⟩
    rw [hsignature, hsigns, Option.some_or]

theorem Tended.within (h : Tended K g) : g.Within g.ReturnsSlot := by
  induction h with
  | blank id hook => simp [Graph.Within, Graph.empty]
  | @owned id s g hook h =>
    have hw : g.Within g.ReturnsSlot := within_withSignature h
    exact hw
  | rebuilt hc h => exact within_rebuild h
  | edited e hK hcovers hg ih =>
    exact Reachable.perform_induct (P := fun g => g.Within g.ReturnsSlot)
      (fun g' he => ih.edit_covers hg.reachable.valid hcovers he) ih

/-- Nothing is left over after an edit of a graph in which nothing was exactly if the edit covers
what Return stores. -/
theorem Reachable.acceptsDefaults_apply_iff (h : Reachable K g)
    (haccepts : ∀ n ∈ g.nodes, g.AcceptsDefaults n) {e : Edit Definition}
    (he : e.apply g = .ok g') : (∀ n ∈ g'.nodes, g'.AcceptsDefaults n) ↔ e.Covers g := by
  have hw : g.Within g.ReturnsSlot := h.within.of_result fun m hm hkind =>
    (h.valid.acceptsDefaults_iff (h.within m hm) hm).1 (haccepts m hm) hkind
  have hv' := h.valid.edit he
  constructor
  · intro haccepts' s hsigns m hm hkind k hk
    obtain rfl : e = .setSignature s := by
      cases e <;> simp_all [Edit.signs?]
    obtain ⟨m', hm', hbare⟩ := h.valid.stores_setSignature he hm
    have hw' := (h.within m hm).of_bare hbare.symm
    have hkind' : m'.kind = .result := (congrArg (·.kind) hbare).trans hkind
    have hk' : k ∈ m'.defaults.keys := (congrArg (·.defaults) hbare) ▸ hk
    obtain ⟨s', hs', hreturns⟩ :=
      (hv'.acceptsDefaults_iff hw' hm').1 (haccepts' m' hm') hkind' k hk'
    obtain rfl := Option.some.inj ((setSignature_signature he).symm.trans hs')
    exact hreturns
  · exact fun hcovers n hn => (hw.edit_covers h.valid hcovers he).acceptsDefaults hv' hn

/-- A node whose stored values are accepted stores what is declared. -/
theorem Reachable.declared (h : Reachable K g) {n : Node Definition} (hn : n ∈ g.nodes)
    (haccepts : g.AcceptsDefaults n) : n.Declared g.signature where
  consts name hname := by
    obtain ⟨d, hd⟩ := (h.within n hn).consts name hname
    exact ⟨d, hd, (h.valid.stored n hn).consts d hd name hname⟩
  defaults k hk := by
    obtain ⟨_, hcheck⟩ := haccepts k hk
    obtain ⟨m, p, hm, hp, hgroup, -, -⟩ := checkSlot_eq_ok.1 hcheck
    obtain rfl := Option.some.inj ((node?_of_mem h.valid.ascending hn).symm.trans hm)
    exact ⟨p, slotDecl?_eq g n k.name ▸ hp, hgroup⟩

/-- A node whose stored values are accepted, under legible keys, can be placed again. -/
theorem Reachable.restorable (h : Reachable K g) {n : Node Definition} (hn : n ∈ g.nodes)
    (haccepts : g.AcceptsDefaults n) {c : Catalog} (hkind : kindOf c (.ofNode n) = .ok n.kind)
    (hlegible : ∀ k ∈ n.defaults.keys, k.Legible) : n.Restorable c g.signature where
  toDeclared := h.declared hn haccepts
  kind := hkind
  owned := by
    cases hsignature : g.signature with
    | none => exact .inl (h.exists_action hsignature hn)
    | some s => exact .inr rfl
  legible := hlegible
  below := (h.valid.stored n hn).below

/-- In every reachable graph constants are declared by the kind of their node, and defaults are
accepted but for those of Return, which a new signature leaves behind exactly if it does not declare
their slots. A graph whose signatures have declared them accepts all defaults; and of a graph that
does, every stored value is placed again when its snapshot is rebuilt. -/
theorem Reachable.accepts_stored (h : Reachable K g) :
    (∀ n ∈ g.nodes, n.DeclaresConsts ∧ (n.kind ≠ .result → g.AcceptsDefaults n)) ∧
    ((∀ n ∈ g.nodes, g.AcceptsDefaults n) → ∀ e g', Edit.apply g e = .ok g' →
      ((∀ n ∈ g'.nodes, g'.AcceptsDefaults n) ↔ e.Covers g)) ∧
    (Tended K g → ∀ n ∈ g.nodes, g.AcceptsDefaults n) ∧
    ((∀ n ∈ g.nodes, g.AcceptsDefaults n) → ∀ (c : Catalog) (id : Nat),
      (∀ n ∈ g.nodes, kindOf c (.ofNode n) = .ok n.kind ∧
        ∀ p ∈ n.kind.slots g.signature, '[' ∉ p.name.toList) →
      ∃ r, placeNodes c (ofGraph g).nodes (canvas id g.signature) = .ok r ∧
        r.nodes.map Node.core = g.nodes.map Node.core) := by
  refine ⟨fun n hn => ⟨fun name hname => ?_, fun hkind => ?_⟩,
    fun haccepts e g' he => h.acceptsDefaults_apply_iff haccepts he,
    fun htended n hn => htended.within.acceptsDefaults h.valid hn, fun haccepts c id hkinds => ?_⟩
  · obtain ⟨d, hd⟩ := (h.within n hn).consts name hname
    exact ⟨d, hd, (h.valid.stored n hn).consts d hd name hname⟩
  · exact (h.valid.acceptsDefaults_iff (h.within n hn) hn).2 fun hresult => absurd hresult hkind
  · have hrestorable : ∀ n ∈ g.nodes, n.id.number ≠ 0 ∧ n.Restorable c g.signature := fun n hn =>
      ⟨h.valid.positive n hn,
        h.restorable hn (haccepts n hn) (hkinds n hn).1
          ((h.declared hn (haccepts n hn)).legible (hkinds n hn).2)⟩
    have hordered : ([] ++ g.nodes : List (Node Definition)).Pairwise Precedes := h.valid.precedes
    obtain ⟨r, hr, hplaced⟩ :=
      Placed.placeNodes hrestorable hordered (Placed.canvas id g.signature)
    exact ⟨r, hr, hplaced.cores⟩

/-- The signature of an owner with the given outputs. -/
def ownerOf (outputs : List String) : Signature :=
  ⟨"Owner", [], [], outputs.map fun name => .value name .int⟩

/-- Return stores a default for its only output. -/
def keptDefault : Graph Definition :=
  [.setSignature (ownerOf ["kept"]), .setDefault ⟨2⟩ ⟨"kept", none⟩ (.int 7)].foldl Edit.perform
    (.empty 0 .standard)

/-- The owner gets another output. -/
def widenedOwner : Graph Definition :=
  (Edit.setSignature (ownerOf ["added", "kept"])).perform keptDefault

/-- The owner loses its output. -/
def emptiedOwner : Graph Definition := (Edit.setSignature (ownerOf [])).perform keptDefault

theorem tended_keptDefault : Tended (fun _ => True) keptDefault := by
  have hsigned : Tended (fun _ => True)
      ((Edit.setSignature (ownerOf ["kept"])).perform (.empty 0 .standard)) :=
    .edited _ (fun _ _ => trivial) (fun _ _ m hm => absurd hm List.not_mem_nil) (.blank 0 .standard)
  show Tended _ ((Edit.setDefault ⟨2⟩ ⟨"kept", none⟩ (.int 7)).perform
    ((Edit.setSignature (ownerOf ["kept"])).perform (.empty 0 .standard)))
  exact .edited _ (fun _ _ => trivial) nofun hsigned

/-- A signature that still declares the output keeps the default in its place. -/
theorem accepts_stored_widenedOwner :
    widenedOwner.nodes.map (·.defaults.keys) = [[], [⟨"kept", none⟩]] ∧
      (∀ n ∈ widenedOwner.nodes, widenedOwner.AcceptsDefaults n) ∧
      ∃ r, placeNodes .empty (ofGraph widenedOwner).nodes (canvas 1 widenedOwner.signature) =
        .ok r ∧
        r.nodes.map Node.core = widenedOwner.nodes.map Node.core := by
  have hcovers : (Edit.setSignature (ownerOf ["added", "kept"])).Covers keptDefault := by
    rintro s ⟨⟩ m hm - k hk
    have hall : (keptDefault.nodes.all fun m =>
        m.defaults.keys.all (ownerOf ["added", "kept"]).returnsSlot) = true := by decide
    exact List.all_eq_true.1 (List.all_eq_true.1 hall m hm) k hk
  have htended : Tended (fun _ => True) widenedOwner :=
    .edited _ (fun _ _ => trivial) hcovers tended_keptDefault
  obtain ⟨-, -, haccepts, hplaced⟩ := Reachable.accepts_stored htended.reachable
  refine ⟨by decide, haccepts htended, hplaced (haccepts htended) .empty 1 fun n hn => ?_⟩
  have hpseudo : (widenedOwner.nodes.all fun n => n.kind.action?.isNone) = true := by decide
  have hnames : (widenedOwner.signature.elim [] (·.outputs)).all (fun p => '[' ∉ p.name.toList) =
      true := by decide
  have hkind := List.all_eq_true.1 hpseudo n hn
  cases hk : n.kind with
  | action d => simp [hk, NodeKind.action?] at hkind
  | entry =>
    refine ⟨by simp [kindOf, NodeRecord.ofNode, StoredKind.ofKind, hk], fun p hp => ?_⟩
    exact absurd hp List.not_mem_nil
  | result =>
    refine ⟨by simp [kindOf, NodeRecord.ofNode, StoredKind.ofKind, hk], fun p hp => ?_⟩
    simpa using List.all_eq_true.1 hnames p hp

/-- A signature without the output leaves the default behind on Return, and the snapshot of the
graph is refused on its account. -/
theorem leftover_emptiedOwner : Reachable (fun _ => True) emptiedOwner ∧
    emptiedOwner.nodes.map (·.defaults.keys) = [[], [⟨"kept", none⟩]] ∧
    emptiedOwner.checkSlot ⟨2⟩ ⟨"kept", none⟩ = .error (.noSuchPort ⟨2⟩ "kept" none) ∧
    (ofGraph emptiedOwner).rebuild .empty 1 emptiedOwner.signature =
      .error (.noSuchPort ⟨2⟩ "kept" none) :=
  ⟨.edited _ (fun _ _ => trivial) tended_keptDefault.reachable, by decide, by decide, rfl⟩

end EffectGraph
