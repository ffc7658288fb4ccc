import EffectGraph.Proofs.Reachable

/-!
# Graphs with and without an owner

The inner graph of a generated kind has the signature of the kind; other graphs have none. Only
`setSignature` gives a graph a signature (`signature_apply`), and Entry and Return are made only in
a graph that has one. So a reachable graph without a signature consists of action nodes
(`Reachable.exists_action`).
-/

namespace EffectGraph

namespace Graph

variable {κ : Type} [HasSignature κ] {g g' : Graph κ} {n : NodeId}

/-! ## The signature -/

theorem reshape_signature (g : Graph κ) (n : NodeId) : (g.reshape n).signature = g.signature :=
  reshape_induct (P := fun k => k.signature = g.signature)
    (fun _ _ hk => reshapeOne_signature.trans hk) rfl n

theorem refresh_signature (g : Graph κ) (ns : List NodeId) :
    (g.refresh ns).signature = g.signature :=
  refresh_induct (P := fun k => k.signature = g.signature)
    (fun _ _ hk => reshapeOne_signature.trans hk) rfl ns

theorem cut_signature (p : Connection → Bool) (except : List NodeId) :
    (g.cut p except).1.signature = g.signature := refresh_signature (g.sever p) _

theorem reshapeIf_signature (g : Graph κ) (n : NodeId) (isGroup : Bool) :
    (g.reshapeIf n isGroup).signature = g.signature := by
  unfold reshapeIf
  split
  · exact reshape_signature g n
  · rfl

theorem connect_signature {a b : PortId} (h : g.connect a b = .ok g') :
    g'.signature = g.signature := by
  obtain ⟨j, -, rfl⟩ := connect_eq_ok.1 h
  rcases join_eq g j with ⟨he, -⟩ | ⟨-, he⟩
  · rw [he]
  · rw [he]
    exact refresh_signature (g.linked j) _

theorem wire_signature {source destination : NodeId} {output input : String}
    (h : g.wire source output destination input = .ok g') : g'.signature = g.signature := by
  obtain ⟨a, b, -, -, hc⟩ := wire_eq_ok.1 h
  exact connect_signature hc

theorem addNodeAt_signature {kind : NodeKind κ} (h : g.addNodeAt n kind = .ok g') :
    g'.signature = g.signature := by
  obtain ⟨-, -, -, rfl⟩ := addNodeAt_eq_ok.1 h
  exact reshape_signature { g with nodes := insertNode (.fresh n kind) g.nodes } n

theorem ensure_signature {kind : NodeKind κ} {present : Option NodeId} {r : Graph κ × Option NodeId}
    (h : g.ensure kind present = .ok r) : r.1.signature = g.signature := by
  rcases ensure_eq_ok.1 h with ⟨m, rfl, rfl⟩ | ⟨rfl, k, m, ha, rfl⟩
  · exact reshape_signature g m
  · exact addNodeAt_signature (addNode_eq_ok.1 ha).1

/-- A graph that is given a signature has it. -/
theorem setSignature_signature {s : Signature} (h : g.setSignature s = .ok g') :
    g'.signature = some s := by
  obtain ⟨r, r', hr, hr', hwire⟩ := setSignature_eq_ok.1 h
  have hsigned : r'.1.signature = some s := (ensure_signature hr').trans (ensure_signature hr)
  rcases hwire with ⟨e, t, -, -, hwire⟩ | ⟨-, rfl⟩
  · exact (wire_signature hwire).trans hsigned
  · exact hsigned

theorem redefine_signature (kind : κ) : (g.redefine kind).1.signature = g.signature := by
  refine List.foldlRecOn (motive := fun k : Graph κ => k.signature = g.signature) _ _ rfl
    fun k hk n _ => ?_
  exact (reshape_signature (k.updateNode n _) n).trans hk

theorem hold_signature {group : String} {index : Nat} (h : g.hold n group index = .ok g') :
    g'.signature = g.signature := by
  obtain ⟨-, rfl⟩ := hold_eq_ok.1 h
  exact reshape_signature (g.updateNode n (raised group index)) n

end Graph

open EffectGraph.Graph

/-- The signature that an edit gives the graph. -/
def Edit.signs? {κ : Type} : Edit κ → Option Signature
  | .setSignature s => some s
  | _ => none

variable {κ : Type} [HasSignature κ] {g g' : Graph κ}

/-- No other edit changes the signature. -/
theorem Edit.signature_apply {e : Edit κ} (h : e.apply g = .ok g') :
    g'.signature = (e.signs?).or g.signature := by
  cases e with
  | addNode kind =>
    obtain ⟨r, hr, rfl⟩ := map_eq_ok.1 h
    exact addNodeAt_signature (addNode_eq_ok.1 hr).1
  | addNodeAt n kind => exact addNodeAt_signature h
  | removeNode n =>
    obtain ⟨r, hr, rfl⟩ := map_eq_ok.1 h
    obtain ⟨m, -, -, hr⟩ := removeNode_eq_ok.1 hr
    rw [← hr]
    exact cut_signature _ _
  | setSignature s => exact setSignature_signature h
  | connect a b => exact connect_signature h
  | wire source output destination input => exact wire_signature h
  | disconnect a b =>
    obtain ⟨r, hr, rfl⟩ := map_eq_ok.1 h
    obtain ⟨-, rfl⟩ := disconnect_eq_ok.1 hr
    exact cut_signature _ _
  | isolatePort p =>
    obtain ⟨r, hr, rfl⟩ := map_eq_ok.1 h
    obtain ⟨-, rfl⟩ := isolatePort_eq_ok.1 hr
    exact cut_signature _ _
  | isolateNode n =>
    obtain ⟨r, hr, rfl⟩ := map_eq_ok.1 h
    obtain ⟨m, -, rfl⟩ := isolateNode_eq_ok.1 hr
    exact cut_signature _ _
  | setConst n name v =>
    obtain ⟨-, rfl⟩ := setConst_eq_ok.1 h
    rfl
  | setDefault n k v =>
    obtain ⟨-, rfl⟩ := setDefault_eq_ok.1 h
    exact reshapeIf_signature (g.updateNode n _) n _
  | clearDefault n k =>
    obtain ⟨r, hr, rfl⟩ := map_eq_ok.1 h
    obtain ⟨-, m, -, rfl⟩ := clearDefault_eq_ok.1 hr
    exact reshapeIf_signature (g.updateNode n _) n _
  | setPosition n p =>
    obtain ⟨-, rfl⟩ := setPosition_eq_ok.1 h
    rfl
  | redefine kind =>
    obtain rfl := Except.ok.inj h
    exact redefine_signature kind
  | clone id =>
    obtain rfl := Except.ok.inj h
    rfl

/-! ## Pseudo-nodes -/

omit [HasSignature κ] in
/-- Entry and Return may be added to a graph with a signature only. -/
theorem Graph.action_of_checkKind {kind : NodeKind κ} (h : g.checkKind kind = .ok ())
    (hsignature : g.signature = none) : ∃ k, kind = .action k := by
  cases kind with
  | action k => exact ⟨k, rfl⟩
  | entry => simp [checkKind, hsignature] at h
  | result => simp [checkKind, hsignature] at h

/-- All nodes are action nodes. -/
abbrev Graph.ActionsOnly (g : Graph κ) : Prop := g.Every fun kind _ => ∃ k, kind = .action k

theorem Graph.ActionsOnly.addNodeAt (h : g.ActionsOnly) (hv : g.Valid [])
    (hsignature : g.signature = none) {n : NodeId} {kind : NodeKind κ}
    (ha : g.addNodeAt n kind = .ok g') : g'.ActionsOnly :=
  Every.addNodeAt h hv (action_of_checkKind (addNodeAt_eq_ok.1 ha).2.2.1 hsignature) ha

/-- An edit leads to action nodes only unless it gives the graph a signature. -/
theorem Graph.ActionsOnly.edit (h : g.ActionsOnly) (hv : g.Valid [])
    (hsignature : g.signature = none)
    {e : Edit κ} (hsigns : e.signs? = none) (he : e.apply g = .ok g') : g'.ActionsOnly := by
  cases e with
  | addNode kind =>
    obtain ⟨r, hr, rfl⟩ := map_eq_ok.1 he
    exact h.addNodeAt hv hsignature (addNode_eq_ok.1 hr).1
  | addNodeAt n kind => exact h.addNodeAt hv hsignature he
  | removeNode n =>
    obtain ⟨r, hr, rfl⟩ := map_eq_ok.1 he
    exact Every.removeNode h hv hr
  | setSignature s => simp [Edit.signs?] at hsigns
  | connect a b => exact Every.connect h hv he
  | wire source output destination input => exact Every.wire h hv he
  | disconnect a b =>
    obtain ⟨r, hr, rfl⟩ := map_eq_ok.1 he
    obtain ⟨-, rfl⟩ := disconnect_eq_ok.1 hr
    exact Every.cut h hv _ _
  | isolatePort p =>
    obtain ⟨r, hr, rfl⟩ := map_eq_ok.1 he
    obtain ⟨-, rfl⟩ := isolatePort_eq_ok.1 hr
    exact Every.cut h hv _ _
  | isolateNode n =>
    obtain ⟨r, hr, rfl⟩ := map_eq_ok.1 he
    obtain ⟨m, -, rfl⟩ := isolateNode_eq_ok.1 hr
    exact Every.cut h hv _ _
  | setConst n name v => exact Every.setConst h he
  | setDefault n k v => exact Every.setDefault h hv he
  | clearDefault n k =>
    obtain ⟨r, hr, rfl⟩ := map_eq_ok.1 he
    exact Every.clearDefault h hv hr
  | setPosition n p => exact Every.setPosition h he
  | redefine kind =>
    obtain rfl := Except.ok.inj he
    exact Every.redefine h hv fun _ _ => ⟨kind, rfl⟩
  | clone id =>
    obtain rfl := Except.ok.inj he
    exact h

/-! ## Reachable graphs -/

namespace Snapshot

/-- A graph under way to be rebuilt has its signature, and is made of action nodes if that is
none. -/
structure OwnedBy (s : Option Signature) (g : Graph Definition) : Prop where
  valid : g.Valid []
  signature : g.signature = s
  actions : s = none → g.ActionsOnly

variable {c : Catalog} {s : Option Signature} {g g' : Graph Definition}

theorem OwnedBy.edit (h : OwnedBy s g) {e : Edit Definition} (hsigns : e.signs? = none)
    (he : e.apply g = .ok g') : OwnedBy s g' :=
  ⟨h.valid.edit he, by rw [Edit.signature_apply he, hsigns, h.signature]; rfl,
    fun hs => (h.actions hs).edit h.valid (h.signature.trans hs) hsigns he⟩

theorem OwnedBy.placeNode (h : OwnedBy s g) {r : NodeRecord} (hp : placeNode c g r = .ok g') :
    OwnedBy s g' := by
  obtain ⟨kind, g₁, g₂, g₃, -, h₁, h₂, h₃, h₄⟩ := placeNode_eq_ok.1 hp
  have hg₁ : OwnedBy s g₁ := h.edit (e := .addNodeAt _ kind) rfl h₁
  have hg₂ : OwnedBy s g₂ := hg₁.edit (e := .setPosition _ r.position) rfl h₂
  have hg₃ : OwnedBy s g₃ := restoreConsts_induct
    (fun _ _ name v hg hs => hg.edit (e := .setConst _ name v) rfl hs) h₃ hg₂
  exact restoreDefaults_induct
    (fun _ _ k v hg hs => hg.edit (e := .setDefault _ k v) rfl hs) h₄ hg₃

theorem OwnedBy.rebuild {id : Nat} {snapshot : Snapshot} (h : snapshot.rebuild c id s = .ok g') :
    OwnedBy s g' := by
  obtain ⟨g₁, g₂, g₃, h₁, h₂, h₃, rfl⟩ := rebuild_eq_ok.1 h
  have hcanvas : OwnedBy s (canvas id s) :=
    ⟨valid_empty id .standard s, rfl, by simp [Every, canvas, Graph.empty]⟩
  have hg₁ : OwnedBy s g₁ := placeNodes_induct (fun _ _ _ hg hp => hg.placeNode hp) h₁ hcanvas
  have hg₂ : OwnedBy s g₂ := holdSlots_induct
    (fun _ _ _ _ _ hg hh => ⟨hg.valid.hold hh, (hold_signature hh).trans hg.signature,
      fun hs => Every.hold (hg.actions hs) hg.valid hh⟩) h₂ hg₁
  have hg₃ : OwnedBy s g₃ := restoreConnections_induct
    (fun _ _ a b hg hj => hg.edit (e := .connect a b) rfl hj) h₃ hg₂
  exact ⟨hg₃.valid.release, hg₃.valid.reshapes_release.signature.trans hg₃.signature,
    fun hs => (Every.release (hg₃.actions hs) hg₃.valid).mono fun _ _ h => h.1⟩

end Snapshot

/-- A graph that no generated kind owns consists of action nodes. -/
theorem Reachable.exists_action {K : Definition → Prop} {g : Graph Definition} (h : Reachable K g)
    (hsignature : g.signature = none) {n : Node Definition} (hn : n ∈ g.nodes) :
    ∃ d, n.kind = .action d := by
  suffices hactions : g.signature = none → g.ActionsOnly from hactions hsignature n hn
  clear hsignature hn
  induction h with
  | blank id hook => simp [Every, Graph.empty]
  | @owned id s g hook hs =>
    intro hsignature
    simp [setSignature_signature hs] at hsignature
  | @rebuilt c id s snapshot g hc hr =>
    have howned := Snapshot.OwnedBy.rebuild hr
    exact fun hsignature => howned.actions (howned.signature.symm.trans hsignature)
  | @edited g e hK hg ih =>
    unfold Edit.perform
    split
    next g' he =>
      intro hsignature
      have hor := (Edit.signature_apply he).symm.trans hsignature
      obtain ⟨hsigns, hnone⟩ := Option.or_eq_none_iff.1 hor
      exact (ih hnone).edit hg.valid hnone hsigns he
    next => exact ih

end EffectGraph
