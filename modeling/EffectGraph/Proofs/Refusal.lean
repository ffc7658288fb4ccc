import EffectGraph.Proofs.InPlace
import EffectGraph.Proofs.Shrinking
import EffectGraph.Proofs.Signing

/-!
# Refused edits leave the graph alone

Edits that write in place go on to fallible steps after their first store: they look up the node
that is to be reshaped, the port that has just been connected, the ids of new pseudo-nodes and the
ends of the connection between them. On a graph that keeps the invariant of edits none of these
steps fails, so an edit that fails has not written anything (`Reachable.procedure_refused`).

The one lemma for each edit (`Procedure.Follows`) says at the same time that the reshapes which the
edit asks for are flat.
-/

namespace EffectGraph

variable {κ : Type} [HasSignature κ]

namespace Graph

variable {g : Graph κ} {n : NodeId}

omit [HasSignature κ] in
theorem getNode_of_mem_nodeIds (hn : n ∈ g.nodeIds) : ∃ m, g.getNode n = .ok m := by
  obtain ⟨m, hm, hid⟩ := List.mem_map.1 hn
  cases hf : g.node? n with
  | some k => exact ⟨k, getNode_eq_ok.2 hf⟩
  | none => exact absurd hid (node?_eq_none_iff.1 hf m hm)

omit [HasSignature κ] in
theorem mem_nodeIds_of_node? {m : Node κ} (h : g.node? n = some m) : n ∈ g.nodeIds := by
  obtain ⟨hm, hid⟩ := node?_mem h
  exact List.mem_map.2 ⟨m, hm, hid⟩

theorem mem_nodeIds_of_mem_reshapeOne_snd (hg : g.Ascending) {k : NodeId}
    (hk : k ∈ (g.reshapeOne n).2) : k ∈ g.nodeIds := by
  obtain ⟨-, m, hm, hid, -⟩ := hasVariadic_of_mem_reshapeOne_snd hg hk
  exact List.mem_map.2 ⟨m, hm, hid⟩

theorem Ascending.keepIds_reshape {g : Graph κ} (hg : g.Ascending) (n : NodeId) :
    (g.reshape n).Ascending ∧ (g.reshape n).nodeIds = g.nodeIds :=
  reshape_induct (P := fun k => k.Ascending ∧ k.nodeIds = g.nodeIds)
    (fun _ b hk => ⟨hk.1.reshapeOne b, (reshapeOne_nodeIds hk.1).trans hk.2⟩) ⟨hg, rfl⟩ n

end Graph

/-! ## Shapes in place -/

namespace Procedure

open EffectGraph.Graph

variable {P : Graph κ → NodeId → Prop} {clean : Prop} {g : Graph κ} {n : NodeId}
  {stale : List NodeId}

theorem follows_reshapeOne (hn : n ∈ g.nodeIds) :
    (reshapeOne n).Follows P clean g (.ok (g.reshapeOne n)) := by
  obtain ⟨m, hm⟩ := getNode_of_mem_nodeIds hn
  refine .after_check_ok hm (.after_look ?_)
  exact (follows_write _).bind (follows_pure _)

theorem follows_reshapeNested (depth : Nat) (hg : g.Ascending) (hn : n ∈ g.nodeIds) :
    (reshapeNested depth n).Follows P clean g (.ok (Graph.reshapeNested depth g [n], ())) := by
  induction depth generalizing g n with
  | zero => exact (follows_reshapeOne hn).bind (follows_pure ())
  | succ depth ih =>
    refine (follows_reshapeOne hn).bind ?_
    show Follows _ _ _ _
      (.ok (Graph.reshapeNested depth (g.reshapeOne n).1 (g.reshapeOne n).2, ()))
    rw [reshapeNested_eq_foldl]
    -- The nodes of the graph stay the same throughout the loop, so each of the loop is found.
    have hids : ∀ k : Graph κ, k.Ascending ∧ k.nodeIds = g.nodeIds → ∀ a,
        (k.reshapeOne a).1.Ascending ∧ (k.reshapeOne a).1.nodeIds = g.nodeIds :=
      fun k hk a => ⟨hk.1.reshapeOne a, (reshapeOne_nodeIds hk.1).trans hk.2⟩
    refine follows_forM (I := fun k => k.Ascending ∧ k.nodeIds = g.nodeIds)
      (fun k hk a ha => ?_) (fun k hk a _ => ?_) (hids g ⟨hg, rfl⟩ n)
    · exact ih hk.1 (hk.2 ▸ mem_nodeIds_of_mem_reshapeOne_snd hg ha)
    · exact reshapeNested_induct (fun k b hk => hids k hk b) depth k [a] hk

theorem follows_reshape (hg : g.Ascending) (hn : n ∈ g.nodeIds) (h : P g n) :
    (reshape n).Follows P clean g (.ok (g.reshape n, ())) :=
  (follows_noteReshape h).bind <| .after_look <| follows_reshapeNested g.connections.length hg hn

/-- The nodes that are reshaped one after another are in shape, all of them. -/
theorem follows_refresh (hg : g.Valid []) (ns : List NodeId) :
    (refresh ns).Follows Flat clean g (.ok (g.refresh ns, ())) := by
  refine follows_forM (I := Valid []) (fun k hk a _ => ?_) (fun k hk a _ => ?_) hg
  · refine .after_look ?_
    by_cases hv : (k.node? a).any (·.hasVariadic) = true
    · have ha : a ∈ k.nodeIds := by
        cases hf : k.node? a with
        | none => simp [hf] at hv
        | some m => exact mem_nodeIds_of_node? hf
      rw [if_pos hv, if_pos hv]
      exact follows_reshape hk.ascending ha (hk.flat (by simp))
    · rw [if_neg hv, if_neg hv]
      exact follows_pure ()
  · split
    · exact hk.reshape a
    · exact hk

/-! ## Nodes in place -/

omit [HasSignature κ] in
theorem map_bind {ε α β γ : Type} (x : Except ε α) (f : α → Except ε β) (h : β → γ) :
    (x >>= f).map h = x >>= fun a => (f a).map h := by
  cases x <;> rfl

/-- A node may be added while nodes without variadic groups are still out of shape. -/
theorem follows_addNodeAt (hg : g.Valid stale)
    (hsingle : ∀ m ∈ g.nodes, m.id ∈ stale → m.hasVariadic = false) (n : NodeId)
    (kind : NodeKind κ) :
    (addNodeAt n kind).Follows Flat clean g ((g.addNodeAt n kind).map (·, ())) := by
  unfold addNodeAt Graph.addNodeAt
  by_cases hz : n.number = 0
  · rw [if_pos hz, if_pos hz]
    exact follows_throw _
  · rw [if_neg hz, if_neg hz]
    refine .after_look ?_
    cases hf : g.node? n with
    | some m => exact follows_throw _
    | none =>
      simp only [Option.isSome_none, Bool.false_eq_true, if_false, map_bind]
      refine .after_check fun _ hkind => (follows_write _).bind ?_
      obtain ⟨hentry, hresult⟩ := checkKind_eq_ok hkind
      have hinserted := hg.insertNode hf hz hentry hresult
      refine follows_reshape hinserted.ascending ?_ (hinserted.flat fun m hm hid hne => ?_)
      · exact List.mem_map.2 ⟨.fresh n kind, mem_insertNode.2 (.inl rfl), rfl⟩
      · rcases mem_insertNode.1 hm with rfl | hm
        · exact absurd rfl hne
        · exact hsingle m hm ((List.mem_cons.1 hid).resolve_left hne)

theorem follows_addNode (hg : g.Valid stale)
    (hsingle : ∀ m ∈ g.nodes, m.id ∈ stale → m.hasVariadic = false) (kind : NodeKind κ) :
    (addNode kind).Follows Flat clean g (g.addNode kind) := by
  have hat : (addNodeAt g.nextNodeId kind).Follows Flat clean g _ :=
    follows_addNodeAt hg hsingle g.nextNodeId kind
  have hpure : g.addNode kind = ((g.addNodeAt g.nextNodeId kind).map (·, ())).map
      fun p : Graph κ × Unit => (p.1, g.nextNodeId) := by
    show (g.addNodeAt g.nextNodeId kind >>= fun k => .ok (k, g.nextNodeId)) = _
    cases g.addNodeAt g.nextNodeId kind <;> rfl
  rw [hpure]
  exact .after_look (hat.map fun _ => g.nextNodeId)

omit [HasSignature κ] in
theorem follows_setPosition (n : NodeId) (p : Position) :
    (setPosition n p).Follows P clean g ((g.setPosition n p).map (·, ())) := by
  unfold setPosition Graph.setPosition
  rw [map_bind]
  exact .after_check fun _ _ => follows_write _

/-! ## Connections in place -/

theorem follows_sever (p : Connection → Bool) :
    (sever p).Follows P clean g (.ok (g.sever p, g.severed p)) :=
  .after_look ((follows_write _).bind (follows_pure _))

theorem follows_link (hg : g.Valid []) {j : Joint}
    (hj : g.Joins j.connection j.source j.destination) :
    (link j).Follows Flat clean g (.ok ((g.linked j).refresh (g.severed j.replaces ++
      match j.kind with | .value => [j.destination.node] | .control => []), ())) := by
  have hlinked := hg.linked hj
  refine (follows_sever j.replaces).bind ((follows_write _).bind ?_)
  show Follows _ _ _ (g.linked j) _
  cases hk : j.kind with
  | control =>
    rw [List.append_nil]
    exact follows_refresh hlinked _
  | value =>
    -- The destination is a port of the graph whatever connections are made or dropped.
    have hport : (g.linked j).getPort ((g.linked j).portId j.destination.port.index) =
        .ok j.destination :=
      getPort_eq_ok.2 (hlinked.wellFormed.port?_portId hj.destination_mem)
    exact .after_check_ok hport (follows_refresh hlinked _)

theorem follows_connect (hg : g.Valid []) (a b : PortId) :
    (connect a b).Follows Flat clean g ((g.connect a b).map (·, ())) := by
  unfold connect Graph.connect
  rw [map_bind]
  refine .after_check fun j hj => .after_look ?_
  have hjoins := Joins.of_checkConnection hj
  rcases join_eq g j with ⟨he, c, hc, hsource, hdestination⟩ | ⟨hnew, he⟩
  · have hany : (g.connections.any fun c => c.source = j.source.port.index &&
        c.destination = j.destination.port.index) = true :=
      List.any_eq_true.2 ⟨c, hc, by simp [hsource, hdestination]⟩
    rw [if_pos hany, he]
    exact follows_pure ()
  · have hany : ¬(g.connections.any fun c => c.source = j.source.port.index &&
        c.destination = j.destination.port.index) = true := by
      intro h
      obtain ⟨c, hc, hends⟩ := List.any_eq_true.1 h
      exact hnew c hc (by simpa using hends)
    rw [if_neg hany, he]
    exact follows_link hg hjoins

theorem follows_wire (hg : g.Valid []) (source : NodeId) (output : String)
    (destination : NodeId) (input : String) :
    (wire source output destination input).Follows Flat clean g
      ((g.wire source output destination input).map (·, ())) := by
  unfold wire Graph.wire
  simp only [map_bind]
  exact .after_check fun a _ => .after_check fun b _ => follows_connect hg a b

theorem follows_cut (hg : g.Valid []) (p : Connection → Bool) (except : List NodeId) :
    (cut p except).Follows Flat clean g (.ok (g.cut p except)) := by
  have hlength := List.length_eq_countP_add_countP p (l := g.connections)
  have hkept : (g.sever p).connections.length = g.connections.countP fun c => ¬p c = true := by
    rw [List.countP_eq_length_filter]
    simp [Graph.sever]
  have hcount : g.connections.length - (g.sever p).connections.length = g.connections.countP p := by
    omega
  refine .after_look ((follows_sever p).bind (.after_look ?_))
  rw [hcount]
  exact (follows_refresh (hg.sever p) _).bind (follows_pure _)

theorem follows_disconnect (hg : g.Valid []) (a b : PortId) :
    (disconnect a b).Follows Flat clean g (g.disconnect a b) := by
  unfold disconnect Graph.disconnect
  refine .after_check fun _ _ => .after_check fun _ _ => ?_
  exact (follows_cut hg (between a b) []).map fun count => decide (count ≠ 0)

theorem follows_isolatePort (hg : g.Valid []) (p : PortId) :
    (isolatePort p).Follows Flat clean g (g.isolatePort p) := by
  unfold isolatePort Graph.isolatePort
  exact .after_check fun _ _ => follows_cut hg _ []

theorem follows_isolateNode (hg : g.Valid []) (n : NodeId) :
    (isolateNode n).Follows Flat clean g (g.isolateNode n) := by
  unfold isolateNode Graph.isolateNode
  exact .after_check fun m _ => follows_cut hg (touchesNode m) [n]

theorem follows_removeNode (hg : g.Valid []) (n : NodeId) :
    (removeNode n).Follows Flat clean g (g.removeNode n) := by
  have hisolate : (isolateNode n).Follows Flat clean g _ := follows_isolateNode hg n
  cases hi : g.isolateNode n with
  | error e =>
    have hpure : g.removeNode n = .error e := by
      unfold Graph.removeNode
      rw [hi]
      rfl
    rw [hi] at hisolate
    rw [hpure]
    exact hisolate.bind_error
  | ok r =>
    obtain ⟨m, hm, rfl⟩ := isolateNode_eq_ok.1 hi
    have hids : (g.cut (touchesNode m) [n]).1.nodeIds = g.nodeIds :=
      (reshapes_refresh (hg.wellFormed.sever _) _).nodeIds
    -- The node is still there when it comes to be taken out.
    obtain ⟨k, hk⟩ : ∃ k, (g.cut (touchesNode m) [n]).1.getNode n = .ok k :=
      getNode_of_mem_nodeIds (hids ▸ mem_nodeIds_of_node? hm)
    have hpure : g.removeNode n = .ok ((g.cut (touchesNode m) [n]).1.without n, k) :=
      removeNode_eq_ok.2 ⟨m, hm, getNode_eq_ok.1 hk, rfl⟩
    rw [hi] at hisolate
    rw [hpure]
    refine hisolate.bind (.after_check_ok hk ?_)
    exact (follows_write _).bind (follows_pure k)

/-! ## Stored values in place -/

theorem follows_setConst (n : NodeId) (name : String) (v : Value) :
    (setConst n name v).Follows P clean g ((g.setConst n name v).map (·, ())) := by
  unfold setConst Graph.setConst
  rw [map_bind]
  refine .after_check fun m _ => ?_
  by_cases hc : (m.signature?.any fun s => (s.const? name).isSome) = true
  · rw [if_pos hc, if_pos hc]
    exact follows_write _
  · rw [if_neg hc, if_neg hc]
    exact follows_throw _

theorem follows_updateDefaults {f : Table SlotKey Value → Table SlotKey Value}
    (hg : (g.updateNode n (.mapDefaults f)).Valid [n]) (hn : n ∈ g.nodeIds) (isGroup : Bool) :
    (updateDefaults n f isGroup).Follows Flat clean g
      (.ok ((g.updateNode n (.mapDefaults f)).reshapeIf n isGroup, ())) := by
  refine (follows_write _).bind ?_
  cases isGroup with
  | false => exact follows_pure ()
  | true =>
    refine follows_reshape hg.ascending ?_ hg.flat_of_singleton
    rwa [nodeIds_updateNode (f := .mapDefaults f) fun _ => rfl]

theorem follows_setDefault (hg : g.Valid []) (n : NodeId) (k : SlotKey) (v : Value) :
    (setDefault n k v).Follows Flat clean g ((g.setDefault n k v).map (·, ())) := by
  unfold setDefault Graph.setDefault
  rw [map_bind]
  refine .after_check fun isGroup hcheck => ?_
  obtain ⟨m, d, hm, -, -, rfl, -⟩ := checkSlot_eq_ok.1 hcheck
  refine .after_check_ok (getNode_eq_ok.2 hm) ?_
  refine follows_updateDefaults ?_ (mem_nodeIds_of_node? hm) _
  exact hg.updateNode (fun _ => rfl) (fun _ => rfl) (fun _ => rfl) (fun _ => .inl rfl)
    fun m hm hid => hg.stored_insertDefault v hcheck hm hid

theorem follows_clearDefault (hg : g.Valid []) (n : NodeId) (k : SlotKey) :
    (clearDefault n k).Follows Flat clean g (g.clearDefault n k) := by
  unfold clearDefault Graph.clearDefault
  refine .after_check fun isGroup _ => .after_check fun m hm => ?_
  have hn := mem_nodeIds_of_node? (getNode_eq_ok.1 hm)
  refine (follows_updateDefaults ?_ hn isGroup).bind (follows_pure _)
  exact hg.updateNode (fun _ => rfl) (fun _ => rfl) (fun _ => rfl) (fun _ => .inl rfl)
    fun m hm _ => hg.stored_eraseDefault k hm

/-! ## Kinds in place -/

theorem follows_redefineNode (hg : g.Valid []) (kind : κ) (hn : n ∈ g.nodeIds) :
    (redefineNode kind n).Follows Flat clean g (.ok (g.redefineNode kind n, ())) := by
  obtain ⟨m, hm⟩ := getNode_of_mem_nodeIds hn
  have hturned := hg.turn kind n
  refine .after_check_ok hm ((follows_write _).bind ?_)
  refine follows_reshape hturned.ascending ?_ hturned.flat_of_singleton
  rwa [nodeIds_updateNode (f := .turn kind) fun _ => rfl]

theorem follows_redefine (hg : g.Valid []) (kind : κ) :
    (redefine kind).Follows Flat clean g (.ok (g.redefine kind)) := by
  refine .after_look ?_
  refine (follows_forM (t := fun g n => g.redefineNode kind n)
    (I := fun k => k.Valid [] ∧ k.nodeIds = g.nodeIds) (fun k hk a ha => ?_)
    (fun k hk a _ => ⟨hk.1.redefineNode kind a, ?_⟩) ⟨hg, rfl⟩).bind (follows_pure _)
  · obtain ⟨m, hm, rfl⟩ := List.mem_map.1 ha
    refine follows_redefineNode hk.1 kind ?_
    rw [hk.2]
    exact List.mem_map_of_mem (List.mem_filter.1 hm).1
  · have hturned := (hk.1.turn kind a).ascending
    have hids := nodeIds_updateNode (g := k) (n := a) (f := .turn kind) fun _ => rfl
    exact (hturned.keepIds_reshape a).2.trans (hids.trans hk.2)

/-! ## Signatures in place -/

theorem follows_ensure {present : Option NodeId} (hg : g.Valid (present.toList ++ stale))
    (hsingle : ∀ m ∈ g.nodes, m.id ∈ stale → m.hasVariadic = false) (kind : NodeKind κ)
    (hpresent : ∀ n, present = some n → n ∈ g.nodeIds) :
    (ensure kind present).Follows Flat clean g (g.ensure kind present) := by
  cases present with
  | some n =>
    refine (follows_reshape hg.ascending (hpresent n rfl) (hg.flat fun m hm hid hne => ?_)).bind
      (follows_pure none)
    exact hsingle m hm ((List.mem_cons.1 hid).resolve_left hne)
  | none =>
    have hadd : (addNode kind).Follows Flat clean g _ := follows_addNode hg hsingle kind
    have hmap := hadd.map some
    show Follows _ _ _ g (g.addNode kind >>= fun r => .ok (r.1, some r.2))
    cases ha : g.addNode kind with
    | error e =>
      rw [ha] at hmap
      exact hmap
    | ok r =>
      rw [ha] at hmap
      exact hmap

/-- The steps after the first store may fail, if no ids are left for new pseudo-nodes. -/
theorem follows_setSignature_lax (hg : g.Valid []) (s : Signature) :
    (setSignature s).Follows Flat False g ((g.setSignature s).map (·, ())) := by
  have hpseudo : ∀ m ∈ g.nodes, m.id ∈ g.resultNode?.toList → m.hasVariadic = false :=
    fun m hm hid => not_hasVariadic (hg.pseudo_not_action hm (List.mem_append_right _ hid))
  unfold Graph.setSignature
  simp only [map_bind]
  refine (follows_write _).bind_lax (.after_look ?_)
  refine (follows_ensure (hg.signed s) hpseudo .entry fun n hn => ?_).andThen fun entry hentry => ?_
  · obtain ⟨m, hm, rfl, -⟩ := mem_of_entryNode? hn
    exact List.mem_map_of_mem hm
  have hv := hg.ensure_entry hentry
  refine .after_look ((follows_ensure hv (by simp) .result fun n hn => ?_).andThen
    fun result hresult => ?_)
  · obtain ⟨m, hm, rfl, -⟩ := mem_of_resultNode? hn
    exact List.mem_map_of_mem hm
  have hv' := hg.ensure_both hentry hresult
  obtain ⟨g', e⟩ := entry
  obtain ⟨g'', t⟩ := result
  cases e <;> cases t
  case some.some e t => exact follows_wire hv' e exitName t enterName
  all_goals exact follows_pure ()

/-- None of them does as long as the port counter is in range, since then there are ids left. -/
theorem follows_setSignature (hg : g.Valid []) (hports : clean → g.nextPort < UInt32.size)
    (s : Signature) : (setSignature s).Follows Flat clean g ((g.setSignature s).map (·, ())) := by
  have hlax := follows_setSignature_lax hg s
  cases hs : g.setSignature s with
  | ok g' =>
    rw [hs] at hlax
    exact hlax
  | error e =>
    rw [hs] at hlax
    intro d hd hP
    obtain ⟨d', hrun, hP', -⟩ := hlax d hd hP
    refine ⟨d', hrun, hP', fun hclean => ?_⟩
    obtain ⟨g', hok⟩ := hg.setSignature_ok (hports hclean) s
    simp [hs] at hok

end Procedure

/-! ## Every edit -/

omit [HasSignature κ] in
theorem Procedure.Follows.forget {α : Type} {P : Graph κ → NodeId → Prop} {clean : Prop}
    {x : Procedure κ α} {g : Graph κ} {r : Except GraphError (Graph κ × α)}
    (h : x.Follows P clean g r) :
    (x >>= fun _ => pure ()).Follows P clean g ((r.map (·.1)).map (·, ())) := by
  have hmap := h.map fun _ => ()
  cases r <;> exact hmap

theorem Graph.Valid.follows_procedure {g : Graph κ} (h : g.Valid []) {clean : Prop}
    (hports : clean → g.nextPort < UInt32.size) (e : Edit κ) :
    e.procedure.Follows Graph.Flat clean g ((e.apply g).map (·, ())) := by
  cases e with
  | addNode kind => exact (Procedure.follows_addNode h (by simp) kind).forget
  | addNodeAt n kind => exact Procedure.follows_addNodeAt h (by simp) n kind
  | removeNode n => exact (Procedure.follows_removeNode h n).forget
  | setSignature s => exact Procedure.follows_setSignature h hports s
  | connect a b => exact Procedure.follows_connect h a b
  | wire source output destination input =>
    exact Procedure.follows_wire h source output destination input
  | disconnect a b => exact (Procedure.follows_disconnect h a b).forget
  | isolatePort p => exact (Procedure.follows_isolatePort h p).forget
  | isolateNode n => exact (Procedure.follows_isolateNode h n).forget
  | setConst n name v => exact Procedure.follows_setConst n name v
  | setDefault n k v => exact Procedure.follows_setDefault h n k v
  | clearDefault n k => exact (Procedure.follows_clearDefault h n k).forget
  | setPosition n p => exact Procedure.follows_setPosition n p
  | redefine kind => exact (Procedure.follows_redefine h kind).forget
  | clone id => exact Procedure.follows_write (·.clone id)

/-- An edit in place that fails on a reachable graph has done nothing to it: the graph is the one
from before, and no step after the first store has failed. One that succeeds leaves the graph that
the edit makes. The hypothesis is the range of the port counter, a number of 32 bits. -/
theorem Reachable.procedure_refused {K : Definition → Prop} {g : Graph Definition}
    (h : Reachable K g) (hports : g.nextPort < UInt32.size) (e : Edit Definition) :
    match e.procedure.run (.of g) with
    | .ok _ d => e.apply g = .ok d.graph
    | .error err d => e.apply g = .error err ∧ d = .of g := by
  have hfollows : e.procedure.Follows Graph.Flat True g _ :=
    h.valid.follows_procedure (fun _ => hports) e
  have hstart : (Draft.of g).Asks Graph.Flat := fun c hc => absurd hc List.not_mem_nil
  cases ha : e.apply g with
  | ok g' =>
    rw [ha] at hfollows
    obtain ⟨d, hrun, rfl, -⟩ := hfollows (.of g) rfl hstart
    rw [EStateM.run, hrun]
  | error err =>
    rw [ha] at hfollows
    obtain ⟨d, hrun, -, hclean⟩ := hfollows (.of g) rfl hstart
    rw [EStateM.run, hrun]
    exact ⟨rfl, hclean trivial⟩

/-- The limit of a group refuses a default, and a free slot takes a connection. -/
theorem procedure_refused_gatherChain : gatherChain.nextPort < UInt32.size ∧
    (Edit.setDefault ⟨2⟩ ⟨"items", some 256⟩ .null).procedure.run (.of gatherChain) =
      .error (.slotBeyondLimit ⟨2⟩ "items" 256) (.of gatherChain) ∧
    ∃ d, (Edit.connect ⟨0, 3⟩ ⟨0, 8⟩).procedure.run (.of gatherChain) = .ok () d ∧
      d.graph.connections = [⟨.value, 3, 5⟩, ⟨.value, 3, 8⟩] ∧
      (d.graph.variadicSlots ⟨2⟩ "items").length = 3 := by
  have hports : gatherChain.nextPort < UInt32.size := by decide
  have hrefused : ∀ (e : Edit Definition) (err : GraphError), e.apply gatherChain = .error err →
      e.procedure.run (.of gatherChain) = .error err (.of gatherChain) := by
    intro e err herr
    have h := reachable_gatherChain.procedure_refused hports e
    split at h
    next => simp [herr] at h
    next hrun =>
      obtain ⟨h, rfl⟩ := h
      rw [hrun, Except.error.inj (h.symm.trans herr)]
  have hdone : ∀ (e : Edit Definition) (g : Graph Definition), e.apply gatherChain = .ok g →
      ∃ d, e.procedure.run (.of gatherChain) = .ok () d ∧ d.graph = g := by
    intro e g hg
    have h := reachable_gatherChain.procedure_refused hports e
    split at h
    next d hrun => exact ⟨d, hrun, Except.ok.inj (h.symm.trans hg)⟩
    next => simp [hg] at h
  obtain ⟨d, hrun, hd⟩ := hdone (.connect ⟨0, 3⟩ ⟨0, 8⟩) _ rfl
  exact ⟨hports, hrefused _ _ rfl, d, hrun, by rw [hd]; decide, by rw [hd]; decide⟩

end EffectGraph
