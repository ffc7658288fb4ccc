import EffectGraph.Proofs.Trimming

/-!
# The order of the records of a snapshot

Records are restored one after another, but nothing comes of their order, as long as no connection
takes the place of another one (`rebuild_perm`). Whether a rebuild succeeds depends on the records
one at a time; which nodes and connections there are at the end depends on which records there are;
and the ports of a node follow from these. A snapshot lists the connections of a graph in an order
of their records that is total, so graphs with the same connections list them alike
(`sortRecords_eq_of_perm`).
-/

namespace EffectGraph

open EffectGraph.Graph Snapshot

/-! ## Records in order -/

/-- The place of a kind of connection in the order of records. -/
def ConnectionKind.rank : ConnectionKind → Nat
  | .control => 0
  | .value => 1

namespace ConnectionRecord

/-- Records are compared by one field after another. -/
theorem compare_eq_lex : ConnectionRecord.compare =
    compareLex (compareOn (·.sourceNode)) (compareLex (compareOn (·.sourcePort))
      (compareLex (compareOn (·.destNode)) (compareLex (compareOn (·.destPort))
        (compareLex (compareOn (·.destSlot)) (compareOn fun r => r.kind.rank))))) := by
  funext a b
  simp only [ConnectionRecord.compare, compareLex, compareOn]
  cases a.kind <;> cases b.kind <;> rfl

instance : Std.TransCmp ConnectionRecord.compare := by
  rw [compare_eq_lex]
  infer_instance

theorem eq_of_compare {a b : ConnectionRecord} (h : a.compare b = .eq) : a = b := by
  obtain ⟨sourceNode, sourcePort, destNode, destPort, destSlot, kind⟩ := a
  obtain ⟨sourceNode', sourcePort', destNode', destPort', destSlot', kind'⟩ := b
  simp only [compare, Ordering.then_eq_eq, Std.LawfulEqOrd.compare_eq_iff_eq] at h
  obtain ⟨rfl, rfl, rfl, rfl, rfl, hkind⟩ := h
  cases kind <;> cases kind' <;> simp at hkind ⊢

/-- A record that does not come after another one comes before it or is the same. -/
theorem isLE_iff {a b : ConnectionRecord} : (a.compare b).isLE = true ↔ b.compare a ≠ .lt := by
  rw [← compare_swap a b]
  cases a.compare b <;> simp

end ConnectionRecord

theorem InOrder.pairwise {rs : List ConnectionRecord} (h : InOrder rs) :
    rs.Pairwise fun a b => (a.compare b).isLE = true := by
  have htrans : Trans (fun a b : ConnectionRecord => (a.compare b).isLE = true)
      (fun a b => (a.compare b).isLE = true) (fun a b => (a.compare b).isLE = true) :=
    ⟨fun hab hbc => Std.TransCmp.isLE_trans hab hbc⟩
  refine List.isChain_iff_pairwise.1 ?_
  simpa only [InOrder, ConnectionRecord.isLE_iff] using h

/-- The same records are listed alike in order. -/
theorem sortRecords_eq_of_perm {rs rs' : List ConnectionRecord} (h : rs.Perm rs') :
    sortRecords rs = sortRecords rs' := by
  refine List.Perm.eq_of_pairwise (fun a b _ _ hab hba => ?_) (inOrder_sortRecords rs).pairwise
    (inOrder_sortRecords rs').pairwise
    ((perm_sortRecords rs).trans (h.trans (perm_sortRecords rs').symm))
  have hnot := ConnectionRecord.isLE_iff.1 hba
  refine ConnectionRecord.eq_of_compare ?_
  revert hab hnot
  cases a.compare b <;> simp

/-! ## Acceptance -/

theorem NodeRecord.Apart.symm {r r' : NodeRecord} (h : r.Apart r') : r'.Apart r :=
  ⟨h.1.symm, fun he => he ▸ h.2 he.symm⟩

namespace Snapshot

variable {c : Catalog} {owner : Option Signature} {s s' : Snapshot} {g g' : Graph Definition}
variable {id id' : Nat}

/-- Stored nodes that stand apart are found by their ids in whatever order they are listed. -/
theorem kind?_eq_of_perm (hnodes : s.nodes.Perm s'.nodes)
    (hapart : s.nodes.Pairwise NodeRecord.Apart) : s'.kind? c = s.kind? c := by
  funext n
  have hids : (s.nodes.map (·.id)).Nodup := List.pairwise_map.2 (hapart.imp fun h => h.1)
  rw [Snapshot.kind?, Snapshot.kind?, find?_eq_of_perm hnodes fun a ha b hb hna hnb =>
    List.inj_on_of_nodup_map hids ha hb (by simp_all)]

/-- Whether a snapshot is acceptable does not depend on the order of its records. -/
theorem Acceptable.perm (h : s.Acceptable c owner) (hnodes : s.nodes.Perm s'.nodes)
    (hconnections : s.connections.Perm s'.connections) : s'.Acceptable c owner where
  positive r hr := h.positive r (hnodes.symm.subset hr)
  apart := (hnodes.pairwise_iff fun h => h.symm).1 h.apart
  nodes r hr := h.nodes r (hnodes.symm.subset hr)
  connections r hr :=
    kind?_eq_of_perm (c := c) hnodes h.apart ▸ h.connections r (hconnections.symm.subset hr)

/-! ## What is rebuilt -/

/-- A record stands for one node at most. -/
theorem rightUnique_places (c : Catalog) : Relator.RightUnique (NodeRecord.Places c) := by
  rintro r n n' ⟨kind, hkind, -, rfl⟩ ⟨kind', hkind', -, rfl⟩
  rw [Except.ok.inj (hkind.symm.trans hkind')]

/-- Records that no other one excludes are all in the rebuilt graph. -/
theorem connections_rebuild (h : s.rebuild c id owner = .ok g)
    (hfree : s.connections.Pairwise fun r r' => ¬r.Excludes r') :
    (ofGraph g).connections = sortRecords s.connections := by
  obtain ⟨ns, g₀, G, G₁, -, -, hstart, hrestore, -, rfl⟩ := rebuild_restored h
  exact (hstart.restoreConnections_free hfree hrestore).ofGraph_release.2

/-- Graphs that are rebuilt from the same records have the same nodes, up to their ports. -/
theorem cores_eq_of_perm (h : s.rebuild c id owner = .ok g) (h' : s'.rebuild c id' owner = .ok g')
    (hnodes : s.nodes.Perm s'.nodes) : g'.nodes.map Node.core = g.nodes.map Node.core := by
  obtain ⟨ns, hns, hcores⟩ := rebuild_places h
  obtain ⟨ns', hns', hcores'⟩ := rebuild_places h'
  -- Each record stands for its node, wherever it is listed.
  obtain ⟨ms, hms, hperm⟩ := List.perm_comp_forall₂ hnodes.symm hns
  obtain rfl := List.right_unique_forall₂' (rightUnique_places c) hms hns'
  have hasc : ∀ {G : Graph Definition}, G.Ascending →
      (G.nodes.map Node.core).Pairwise fun a b => a.id.number < b.id.number := fun hG =>
    List.pairwise_map.2 hG
  exact List.Perm.eq_of_pairwise
    (fun a b _ _ hab hba => absurd hab (UInt32.not_lt.2 (UInt32.le_of_lt hba)))
    (hasc (staged_rebuild h').valid.ascending) (hasc (staged_rebuild h).valid.ascending)
    (hcores'.trans (hperm.trans hcores.symm))

end Snapshot

/-- What a node shows: its id and its ports, without their numbers. -/
def Node.face {κ : Type} (m : Node κ) : NodeId × List PortSpec × List PortSpec :=
  (m.id, m.inputs.map Port.spec, m.outputs.map Port.spec)

/-- What a node of a graph with the given connections shows, as its kind and the signature of the
owner declare it. -/
def Graph.storedFace (g : Graph Definition) (rs : List ConnectionRecord) (m : Node Definition) :
    NodeId × List PortSpec × List PortSpec :=
  (m.id, g.inputShape m fun group => arityOf (storedSlots rs m group), g.wantedOutputs m)

namespace Snapshot

variable {c : Catalog} {owner : Option Signature} {s s' : Snapshot} {g g' : Graph Definition}
variable {id id' : Nat}

/-- What the nodes of a rebuilt graph show follows from what is stored. -/
theorem faces_rebuild (h : s.rebuild c id owner = .ok g) :
    g.nodes.map Node.face =
      (g.nodes.map Node.core).map (g.storedFace (ofGraph g).connections) := by
  have hv := (staged_rebuild h).valid
  have hheld := (valid_rebuild (K := fun _ => True) (fun _ _ _ => trivial) h).2
  rw [List.map_map]
  refine List.map_congr_left fun m hm => ?_
  have hinputs := hv.inputs_of_trim hm (hheld m hm).2 (trim_rebuild h m hm)
  have houtputs := (hv.shaped m hm List.not_mem_nil).outputs
  rw [Node.face, hinputs, houtputs]
  rfl

/-- The order of the records of a snapshot does not matter, as long as no two of them are for one
value input or one control output: the rebuilt graphs have one snapshot, and their nodes the same
ports. -/
theorem rebuild_perm (h : s.rebuild c id owner = .ok g) (hnodes : s.nodes.Perm s'.nodes)
    (hconnections : s.connections.Perm s'.connections)
    (hfree : s.connections.Pairwise fun r r' => ¬r.Excludes r') (id' : Nat) :
    ∃ g', s'.rebuild c id' owner = .ok g' ∧ ofGraph g' = ofGraph g ∧
      g'.nodes.map Node.face = g.nodes.map Node.face := by
  obtain ⟨g', h'⟩ :=
    ((acceptable_of_rebuild h).perm hnodes hconnections).exists_rebuild id'
  have hfree' := (hconnections.pairwise_iff fun {r r'} hr hex => hr hex.symm).1 hfree
  have hcores := cores_eq_of_perm h h' hnodes
  have hofGraph : ofGraph g' = ofGraph g := by
    refine Snapshot.mk.injEq .. ▸ ⟨?_, ?_⟩
    · have hrecords := congrArg (List.map NodeRecord.ofNode) hcores
      rw [List.map_map, List.map_map] at hrecords
      exact hrecords
    · exact (connections_rebuild h' hfree').trans
        ((sortRecords_eq_of_perm hconnections.symm).trans (connections_rebuild h hfree).symm)
  refine ⟨g', h', hofGraph, ?_⟩
  have hsignature : g'.signature = g.signature :=
    (staged_rebuild h').signature.trans (staged_rebuild h).signature.symm
  have hface : g'.storedFace = g.storedFace := by
    funext rs m
    simp only [Graph.storedFace, inputShape, wantedOutputs, hsignature]
  rw [faces_rebuild h', faces_rebuild h, hcores, hofGraph, hface]

end Snapshot

/-- Two connections into one group, the one to its last slot first, and nodes out of order. -/
def scattered : Snapshot where
  nodes := [gatherRecord 3 "Gather" [("items[3]", .int 7)], gatherRecord 1 "Gather" [],
    gatherRecord 2 "Collect" []]
  connections := [⟨1, "item", 3, "items", 3, .value⟩, ⟨2, "item", 3, "items", 1, .value⟩,
    ⟨1, "exit", 2, "enter", 0, .control⟩]

/-- Backwards, the nodes and connections make the same graph. -/
theorem rebuild_scattered : ∃ g, scattered.rebuild renamedCatalog 1 none = .ok g ∧
    (g.nodes.map fun m => m.inputs.map fun p => (p.decl.name, p.slot)) =
      [[("enter", none), ("items", some 0)], [("enter", none), ("items", some 0)],
        [("enter", none), ("items", some 0), ("items", some 1), ("items", some 2),
          ("items", some 3), ("items", some 4)]] ∧
    ∃ g', Snapshot.rebuild renamedCatalog 2 none
        ⟨scattered.nodes.reverse, scattered.connections.reverse⟩ = .ok g' ∧
      ofGraph g' = ofGraph g ∧ g'.nodes.map Node.face = g.nodes.map Node.face := by
  obtain ⟨g, hg⟩ : ∃ g, scattered.rebuild renamedCatalog 1 none = .ok g := ⟨_, rfl⟩
  have hfree : scattered.connections.Pairwise fun r r' => ¬r.Excludes r' := by
    simp [scattered, ConnectionRecord.Excludes]
  refine ⟨g, hg, ?_, ?_⟩
  · obtain rfl := Except.ok.inj hg
    decide
  · exact Snapshot.rebuild_perm hg (List.reverse_perm _).symm (List.reverse_perm _).symm hfree 2

end EffectGraph
