import EffectGraph.Proofs.Redefining
import EffectGraph.Proofs.Refusal

/-!
# Reshapes do not cascade

A reshape on behalf of a node finds fewer connections than the one that it is made for, whatever the
graph is like (`Graph.length_nested_lt`), so the nesting comes to an end. An edit of a reachable
graph asks for reshapes only in graphs in which all other nodes with variadic groups are in shape,
so what it asks for is flat (`Graph.Flat`); and so does the rebuild of a snapshot, which is followed
here step by step. Which reshapes these are is seen from the edits in place, which note them
(`Procedure.watch`).
-/

namespace EffectGraph

namespace Procedure

open EffectGraph.Graph

/-! ## Rebuilds in place -/

variable {c : Catalog} {g : Graph Definition}

theorem follows_restoreConsts (n : NodeId) (es : List (String × Value)) :
    (restoreConsts n es).Follows Flat False g ((Snapshot.restoreConsts n es g).map (·, ())) := by
  induction es generalizing g with
  | nil => exact follows_pure ()
  | cons e es ih =>
    rw [restoreConsts, Snapshot.restoreConsts, map_bind]
    exact (follows_setConst n e.1 e.2).next fun _ _ => ih

theorem follows_restoreDefaults (hg : g.Valid []) (n : NodeId) (es : List (String × Value)) :
    (restoreDefaults n es).Follows Flat False g
      ((Snapshot.restoreDefaults n es g).map (·, ())) := by
  induction es generalizing g with
  | nil => exact follows_pure ()
  | cons e es ih =>
    rw [restoreDefaults, Snapshot.restoreDefaults]
    cases SlotKey.ofText? e.1 with
    | none => exact follows_throw _
    | some k =>
      rw [map_bind]
      exact (follows_setDefault hg n k e.2).next fun g' hg' => ih (hg.setDefault hg')

theorem follows_placeNode (hg : g.Valid []) (r : NodeRecord) :
    (placeNode c r).Follows Flat False g ((Snapshot.placeNode c g r).map (·, ())) := by
  unfold placeNode Snapshot.placeNode
  simp only [map_bind]
  refine .after_check fun kind _ => ?_
  refine (follows_addNodeAt hg (by simp) ⟨r.id⟩ kind).next fun g₁ h₁ => ?_
  refine (follows_setPosition _ _).next fun g₂ h₂ => ?_
  refine (follows_restoreConsts _ _).next fun g₃ h₃ => ?_
  have hg₂ : g₂.Valid [] := (hg.addNodeAt h₁).setPosition h₂
  exact follows_restoreDefaults (Snapshot.restoreConsts_induct
    (fun _ _ _ _ hg hs => hg.setConst hs) h₃ hg₂) _ _

theorem valid_placeNode (hg : g.Valid []) {r : NodeRecord} {g' : Graph Definition}
    (hp : Snapshot.placeNode c g r = .ok g') : g'.Valid [] :=
  -- The kinds that the catalog knows do not matter here.
  have hunderway : Snapshot.Underway (fun _ => True) g := ⟨hg, by simp [Every]⟩
  (hunderway.placeNode (fun _ _ _ => trivial) hp).valid

theorem follows_placeNodes (hg : g.Valid []) (rs : List NodeRecord) :
    (rs.forM (placeNode c)).Follows Flat False g ((Snapshot.placeNodes c rs g).map (·, ())) := by
  induction rs generalizing g with
  | nil => exact follows_pure ()
  | cons r rs ih =>
    rw [Snapshot.placeNodes, map_bind]
    exact (follows_placeNode hg r).next fun g' hg' => ih (valid_placeNode hg hg')

theorem follows_hold (hg : g.Valid []) (n : NodeId) (group : String) (i : Nat) :
    (hold n group i).Follows Flat False g ((g.hold n group i).map (·, ())) := by
  unfold hold Graph.hold
  rw [map_bind]
  refine .after_check fun _ hcheck => (follows_write _).bind ?_
  obtain ⟨m, _, hm, -, -, -, hlimit⟩ := checkSlot_eq_ok.1 hcheck
  have hraised : (g.updateNode n (raised group i)).Valid [n] :=
    hg.updateNode (fun _ => rfl) (fun _ => rfl) (fun _ => rfl) (fun _ => .inl rfl)
      fun m hm _ => hg.stored_raised (hlimit i rfl) hm
  refine follows_reshape hraised.ascending ?_ hraised.flat_of_singleton
  rw [nodeIds_updateNode (f := raised group i) fun _ => rfl]
  exact mem_nodeIds_of_node? hm

theorem follows_holdSlots (hg : g.Valid []) (rs : List ConnectionRecord) :
    (rs.forM holdSlot).Follows Flat False g ((Snapshot.holdSlots rs g).map (·, ())) := by
  induction rs generalizing g with
  | nil => exact follows_pure ()
  | cons r rs ih =>
    show (holdSlot r >>= fun _ => rs.forM holdSlot).Follows Flat False g _
    rw [holdSlot, Snapshot.holdSlots]
    cases Snapshot.slotOf r with
    | none => exact (follows_pure ()).bind_lax (ih hg)
    | some i =>
      rw [map_bind]
      exact (follows_hold hg _ _ i).next fun g' hg' => ih (hg.hold hg')

theorem follows_restoreConnection (hg : g.Valid []) (r : ConnectionRecord) :
    (restoreConnection r).Follows Flat False g
      ((Snapshot.restoreConnection g r).map (·, ())) := by
  unfold restoreConnection Snapshot.restoreConnection
  simp only [map_bind]
  refine .after_check fun a _ => .after_check fun b _ => .after_check fun q _ => ?_
  by_cases hkind : (if q.port.decl.isControl then ConnectionKind.control else .value) ≠ r.kind
  · simp only [if_pos hkind]
    exact follows_throw _
  · simp only [if_neg hkind]
    exact follows_connect hg a b

theorem follows_restoreConnections (hg : g.Valid []) (rs : List ConnectionRecord) :
    (rs.forM restoreConnection).Follows Flat False g
      ((Snapshot.restoreConnections rs g).map (·, ())) := by
  induction rs generalizing g with
  | nil => exact follows_pure ()
  | cons r rs ih =>
    rw [Snapshot.restoreConnections, map_bind]
    refine (follows_restoreConnection hg r).next fun g' hg' => ih ?_
    obtain ⟨a, b, -, -, -, -, -, hc⟩ := Snapshot.restoreConnection_eq_ok.1 hg'
    exact hg.connect hc

theorem follows_release (hg : g.Valid []) :
    release.Follows Flat False g (.ok (g.release, ())) := by
  refine .after_look ((follows_write _).bind ?_)
  refine follows_forM (I := fun k => k.Valid [] ∧ k.nodeIds = g.nodeIds) (fun k hk n hn => ?_)
    (fun k hk n _ => ⟨hk.1.reshape n, ?_⟩) ⟨hg.unheld, ?_⟩
  · refine follows_reshape hk.1.ascending ?_ (hk.1.flat (by simp))
    obtain ⟨m, hm, rfl⟩ := List.mem_map.1 hn
    rw [hk.2]
    exact List.mem_map_of_mem (List.mem_filter.1 hm).1
  · exact (hk.1.ascending.keepIds_reshape n).2.trans hk.2
  · simp [unheld, nodeIds, Function.comp_def]

theorem follows_rebuild (id : Nat) (s : Option Signature) (snapshot : Snapshot) :
    (rebuild c snapshot).Follows Flat False (Snapshot.canvas id s)
      ((snapshot.rebuild c id s).map (·, ())) := by
  have hblank : (Snapshot.canvas id s).Valid [] := valid_empty id .standard s
  unfold rebuild Snapshot.rebuild
  simp only [map_bind]
  refine (follows_placeNodes hblank _).next fun g₁ h₁ => ?_
  have hg₁ : g₁.Valid [] :=
    Snapshot.placeNodes_induct (fun _ _ _ hg hp => valid_placeNode hg hp) h₁ hblank
  refine (follows_holdSlots hg₁ _).next fun g₂ h₂ => ?_
  have hg₂ : g₂.Valid [] := Snapshot.holdSlots_induct (fun _ _ _ _ _ hg hh => hg.hold hh) h₂ hg₁
  refine (follows_restoreConnections hg₂ _).next fun g₃ h₃ => ?_
  exact follows_release
    (Snapshot.restoreConnections_induct (fun _ _ _ _ hg hc => hg.connect hc) h₃ hg₂)

end Procedure

/-! ## Flatness -/

/-- Whatever a graph is like, the reshape of a node is its own reshape followed by those of the
nodes that it makes shrink, and each of these finds fewer connections than there were at its start;
so the number of connections bounds how deep they are nested. An edit of a reachable graph in place
comes to what the edit comes to, as does the rebuild of a snapshot, and all reshapes that it asks
for are flat: those on behalf of other nodes sever no connection, go no deeper than one level, and
never come back to a node in the course of being reshaped. -/
theorem reshapes_flat :
    (∀ (κ : Type) [HasSignature κ] (g : Graph κ) (n : NodeId),
      g.reshape n = (g.reshapeOne n).2.foldl Graph.reshape (g.reshapeOne n).1 ∧
      (∀ done j rest, (g.reshapeOne n).2 = done ++ j :: rest →
        (done.foldl Graph.reshape (g.reshapeOne n).1).connections.length < g.connections.length) ∧
      ∀ path k m, g.Calls n path k m →
        path.length + k.connections.length ≤ g.connections.length) ∧
    (∀ (K : Definition → Prop) (g : Graph Definition), Reachable K g → ∀ e : Edit Definition,
      (e.procedure.watch g).1 = e.apply g ∧ ∀ c ∈ (e.procedure.watch g).2, c.1.Flat c.2) ∧
    ∀ (c : Catalog) (id : Nat) (s : Option Signature) (snapshot : Snapshot),
      ((Procedure.rebuild c snapshot).watch (Snapshot.canvas id s)).1 = snapshot.rebuild c id s ∧
      ∀ r ∈ ((Procedure.rebuild c snapshot).watch (Snapshot.canvas id s)).2, r.1.Flat r.2 :=
  ⟨fun _ _ g n => ⟨Graph.reshape_unfold g n, fun _ _ _ => Graph.length_nested_lt,
    fun _ _ _ hcall => hcall.length_le⟩,
    fun _ _ hg e => (hg.valid.follows_procedure False.elim e).watch,
    fun _ id s snapshot => (Procedure.follows_rebuild id s snapshot).watch⟩

/-- Two mixers, the first of which feeds the second from its right output. -/
def mixerPair : Graph Definition :=
  let kind := .action (.mixer ["left", "right"])
  [.addNode kind, .addNode kind, .connect ⟨0, 4⟩ ⟨0, 6⟩].foldl Edit.perform (.empty 0 .standard)

theorem reachable_mixerPair : Reachable (fun _ => True) mixerPair :=
  .foldl (fun _ _ _ _ => trivial) (.blank 0 .standard)

/-- When the mixers lose their right outputs, the second is reshaped on behalf of the first. -/
theorem reshapes_flat_mixerPair : ∃ g log,
    (Edit.redefine (.mixer ["left"])).procedure.watch mixerPair = (.ok g, log) ∧
    (∃ c ∈ log, ∃ k, c.1.Calls c.2 [⟨1⟩] k ⟨2⟩) ∧ ∀ c ∈ log, c.1.Flat c.2 := by
  obtain ⟨houtcome, hflat⟩ := reshapes_flat.2.1 _ mixerPair reachable_mixerPair
    (.redefine (.mixer ["left"]))
  have hfirst : (((Edit.redefine (.mixer ["left"])).procedure.watch mixerPair).2.head?.map
      fun c => (c.2, (c.1.reshapeOne c.2).2)) = some (⟨1⟩, [⟨2⟩]) := by
    decide +kernel
  obtain ⟨⟨outcome, log⟩, hwatch⟩ : ∃ r,
      (Edit.redefine (.mixer ["left"])).procedure.watch mixerPair = r := ⟨_, rfl⟩
  rw [hwatch] at houtcome hflat hfirst
  obtain ⟨⟨g, n⟩, hc, hfound⟩ := Option.map_eq_some_iff.1 hfirst
  obtain ⟨rfl, hresized⟩ : n = ⟨1⟩ ∧ (g.reshapeOne n).2 = [] ++ ⟨2⟩ :: [] := Prod.mk.inj hfound
  obtain rfl : outcome = .ok (mixerPair.redefine (.mixer ["left"])).1 := houtcome
  exact ⟨_, log, hwatch, ⟨_, List.mem_of_head? hc, _, .nested .top hresized⟩, hflat⟩

end EffectGraph
