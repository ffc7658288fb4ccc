import EffectGraph.Proofs.Signing

/-!
# The smallest free node id

The next node id is found in one pass over the ids in use. The pass goes by numbers that are in use
only (`mem_of_lt_firstGap`), and it ends at a free one if there are fewer nodes than ids, that is if
some id is left (`length_nodes_of_free`). So a reachable graph gives out the smallest of the ids
that are left, and a node added without an id is never refused for the id that it is given
(`Reachable.nextNodeId_least`).
-/

namespace EffectGraph

variable {κ : Type}

namespace Graph

/-! ## The pass over the ids -/

/-- The numbers that the pass goes by are all in use, in whatever order the ids are. -/
theorem mem_of_lt_firstGap {ids : List NodeId} {candidate : UInt32} {n : NodeId}
    (hge : candidate ≤ n.number) (hlt : n.number < firstGap candidate ids) : n ∈ ids := by
  induction ids generalizing candidate with
  | nil => exact absurd hlt (UInt32.not_lt.2 hge)
  | cons m ms ih =>
    rw [firstGap] at hlt
    split at hlt
    next hm =>
      by_cases hn : n.number = candidate
      · obtain rfl : n = m := congrArg NodeId.mk (hn.trans hm.symm)
        exact List.mem_cons_self
      · -- The candidate is below another number, so the next one does not come round to zero.
        have hbelow := UInt32.lt_iff_toNat_lt.1 (UInt32.lt_of_le_of_ne hge (Ne.symm hn))
        have hbound := n.number.toNat_lt_size
        have hnext : candidate + 1 ≤ n.number := by
          rw [UInt32.le_iff_toNat_le, UInt32.toNat_add, UInt32.toNat_one]
          simp only [UInt32.size] at hbound
          omega
        exact List.mem_cons_of_mem _ (ih hnext hlt)
    next =>
      split at hlt
      next => exact absurd hlt (UInt32.not_lt.2 hge)
      next => exact List.mem_cons_of_mem _ (ih hge hlt)

variable {g : Graph κ}

/-- If some id is left then there are at least two ids more than nodes, the zero among them. -/
theorem length_nodes_of_free (hg : g.Ascending) (hpos : ∀ m ∈ g.nodes, m.id.number ≠ 0) {n : NodeId}
    (hn : n.number ≠ 0) (hfree : g.node? n = none) : g.nodes.length + 1 < UInt32.size := by
  have hasc : g.nodeIds.Pairwise fun a b => a.number < b.number := (ascending_iff g).1 hg
  have hfresh : n ∉ g.nodeIds := by
    intro hmem
    obtain ⟨m, hm, hid⟩ := List.mem_map.1 hmem
    exact node?_eq_none_iff.1 hfree m hm hid
  have hnodup : ((n :: g.nodeIds).map (·.number.toNat)).Nodup := by
    refine List.Nodup.map (fun a b hab => congrArg NodeId.mk (UInt32.toNat_inj.1 hab)) ?_
    refine List.nodup_cons.2 ⟨hfresh, hasc.imp fun hlt he => ?_⟩
    exact UInt32.lt_irrefl _ (he ▸ hlt)
  have hsub : (n :: g.nodeIds).map (·.number.toNat) ⊆ List.range' 1 (UInt32.size - 1) := by
    intro i hi
    obtain ⟨m, hm, rfl⟩ := List.mem_map.1 hi
    have hm0 : m.number ≠ 0 := by
      rcases List.mem_cons.1 hm with rfl | hm
      · exact hn
      · obtain ⟨k, hk, rfl⟩ := List.mem_map.1 hm
        exact hpos k hk
    have hne : m.number.toNat ≠ 0 := fun h => hm0 (UInt32.toNat_inj.1 h)
    have hbound := m.number.toNat_lt_size
    rw [List.mem_range'_1]
    omega
  have hle := (hnodup.subperm hsub).length_le
  rw [List.length_range', List.length_map, List.length_cons, nodeIds, List.length_map] at hle
  have hsize : UInt32.size = 4294967296 := rfl
  omega

/-! ## Adding a node without an id -/

/-- A kind is refused only for want of a signature or because its pseudo-node is there. -/
theorem checkKind_eq_error {kind : NodeKind κ} {e : GraphError} (h : g.checkKind kind = .error e) :
    ∃ pseudo, e = .noSignature pseudo ∨ e = .pseudoNodes pseudo 2 := by
  cases kind <;> simp only [checkKind] at h
  case action => cases h
  all_goals
    split at h
    · exact ⟨_, .inl (Except.error.inj h).symm⟩
    · split at h
      · exact ⟨_, .inr (Except.error.inj h).symm⟩
      · cases h

/-- Under a free id a node is added unless its kind is refused. -/
theorem addNode_of_free [HasSignature κ] (kind : NodeKind κ) (hpos : g.nextNodeId.number ≠ 0)
    (hfree : g.node? g.nextNodeId = none) :
    g.addNode kind =
      (g.checkKind kind).map fun _ => (g.place g.nextNodeId kind, g.nextNodeId) := by
  simp only [addNode, addNodeAt, hpos, hfree, if_false, Option.isSome_none, Bool.false_eq_true]
  cases g.checkKind kind <;> rfl

end Graph

open EffectGraph.Graph

/-- As long as some id is left, the next node id of a reachable graph is the smallest positive one
that no node has, and a node added under it is refused for its kind only. -/
theorem Reachable.nextNodeId_least {K : Definition → Prop} {g : Graph Definition}
    (h : Reachable K g) (hroom : ∃ n : NodeId, n.number ≠ 0 ∧ g.node? n = none) :
    g.nextNodeId.number ≠ 0 ∧ g.node? g.nextNodeId = none ∧
    (∀ n : NodeId, n.number ≠ 0 → n.number < g.nextNodeId.number → (g.node? n).isSome = true) ∧
    ∀ kind : NodeKind Definition,
      g.addNode kind =
        (g.checkKind kind).map (fun _ => (g.place g.nextNodeId kind, g.nextNodeId)) ∧
      g.addNode kind ≠ .error .zeroId ∧ ∀ n, g.addNode kind ≠ .error (.idTaken n) := by
  obtain ⟨n, hn, hleft⟩ := hroom
  have hv := h.valid
  obtain ⟨hfree, hpos⟩ := nextNodeId_free hv.ascending hv.positive
    (length_nodes_of_free hv.ascending hv.positive hn hleft)
  refine ⟨hpos, hfree, fun m hm hlt => ?_, fun kind => ?_⟩
  · have hone : (1 : UInt32) ≤ m.number := by
      have hne : m.number.toNat ≠ 0 := fun h => hm (UInt32.toNat_inj.1 h)
      rw [UInt32.le_iff_toNat_le, UInt32.toNat_one]
      omega
    obtain ⟨k, hk, rfl⟩ := List.mem_map.1 (mem_of_lt_firstGap hone hlt)
    rw [node?_of_mem hv.ascending hk, Option.isSome_some]
  · have hadd := addNode_of_free kind hpos hfree
    have herror : ∀ e, g.addNode kind = .error e →
        ∃ pseudo, e = .noSignature pseudo ∨ e = .pseudoNodes pseudo 2 := by
      intro e he
      rw [hadd] at he
      cases hcheck : g.checkKind kind with
      | ok _ => rw [hcheck] at he; cases he
      | error _ =>
        rw [hcheck] at he
        exact Except.error.inj he ▸ checkKind_eq_error hcheck
    refine ⟨hadd, fun he => ?_, fun m he => ?_⟩ <;> simpa using herror _ he

/-- A kind without parameters that does nothing. -/
def Definition.idle : Definition where
  signature := ⟨"Idle", [], [], []⟩
  obsoleteNames := []
  obsoleteMessage := none
  behaviour := .method ⟨[], none, fun _ => .pure (.ok .empty)⟩

/-- Two nodes that were given ids, one that was given an id of the user's, and a node removed. -/
def Graph.gapped : Graph Definition :=
  [.addNode (.action .idle), .addNodeAt ⟨4⟩ (.action .idle), .addNode (.action .idle),
    .addNode (.action .idle), .removeNode ⟨2⟩].foldl Edit.perform (.empty 0 .standard)

theorem reachable_gapped : Reachable (fun _ => True) Graph.gapped :=
  Reachable.foldl (fun _ _ _ _ => trivial) (.blank 0 .standard)

theorem nextNodeId_gapped : Reachable (fun _ => True) Graph.gapped ∧
    gapped.nodeIds = [⟨1⟩, ⟨3⟩, ⟨4⟩] ∧ gapped.nextNodeId = ⟨2⟩ ∧
    gapped.addNode (.action .idle) ≠ .error .zeroId :=
  ⟨reachable_gapped, by decide, by decide,
    ((reachable_gapped.nextNodeId_least ⟨⟨5⟩, by decide, by decide⟩).2.2.2 _).2.1⟩

end EffectGraph
