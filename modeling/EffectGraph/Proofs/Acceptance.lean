import EffectGraph.Proofs.Endpoints
import EffectGraph.Proofs.Faithful

/-!
# Which snapshots can be rebuilt

A rebuild is a replay of edits, and later edits need slots that earlier ones have made. Even so it
depends on the records alone, one at a time, whether it succeeds (`Snapshot.Acceptable`). The nodes
are placed one after another; what each of them stores is checked against its kind. The slots that
connections end at are held open before any connection is made, so an end of a connection is there
exactly if the kind of its node declares it (`Staged.restoreConnection_iff`), whatever has been
restored before.
-/

namespace EffectGraph

open EffectGraph.Graph Snapshot

/-! ## What is asked of the records -/

/-- What a stored node of the given kind holds can be stored on such a node, and the node can be
there. -/
structure NodeRecord.Suits (owner : Option Signature) (r : NodeRecord)
    (kind : NodeKind Definition) : Prop where
  owned : (∃ d, kind = .action d) ∨ owner.isSome = true
  consts : ∀ name ∈ r.consts.keys, ∃ d, kind = .action d ∧
    (d.signature.const? name).isSome = true
  defaults : ∀ t ∈ r.defaults.keys, ∃ k, SlotKey.ofText? t = some k ∧ kind.HasSlot owner k

/-- A stored connection leads from an output to an input of another node, as the kinds of the two
nodes declare them. -/
def ConnectionRecord.Fits (owner : Option Signature) (kind? : UInt32 → Option (NodeKind Definition))
    (r : ConnectionRecord) : Prop :=
  ∃ a b p q, kind? r.sourceNode = some a ∧ kind? r.destNode = some b ∧
    a.exit? owner r.sourcePort = some p ∧ b.entrance? owner r.destPort (slotOf r) = some q ∧
    p.passes = r.kind ∧ r.sourceNode ≠ r.destNode ∧ p.Meets q

/-- Two stored nodes differ in their ids, and none but action nodes are of one kind. -/
def NodeRecord.Apart (r r' : NodeRecord) : Prop :=
  r.id ≠ r'.id ∧ (r.kind = r'.kind → ∃ name, r'.kind = .action name)

/-- The kind of the stored node with an id, by the catalog. -/
def Snapshot.kind? (c : Catalog) (s : Snapshot) (id : UInt32) : Option (NodeKind Definition) :=
  (s.nodes.find? fun r => r.id = id).bind fun r => (kindOf c r).toOption

/-- Each stored node can be placed and each stored connection can be made, one by one; ids are
positive and differ, and there is one Entry and one Return at most. -/
structure Snapshot.Acceptable (c : Catalog) (owner : Option Signature) (s : Snapshot) : Prop where
  positive : ∀ r ∈ s.nodes, r.id ≠ 0
  apart : s.nodes.Pairwise NodeRecord.Apart
  nodes : ∀ r ∈ s.nodes, ∃ kind, kindOf c r = .ok kind ∧ r.Suits owner kind
  connections : ∀ r ∈ s.connections, r.Fits owner (s.kind? c)

/-- A chain of steps succeeds exactly if its first step does and the rest does on the outcome. -/
theorem exists_bind_eq_ok {ε α β : Type} {x : Except ε α} {f : α → Except ε β} :
    (∃ b, (x >>= f) = .ok b) ↔ ∃ a, x = .ok a ∧ ∃ b, f a = .ok b := by
  simp only [bind_eq_ok]
  exact ⟨fun ⟨b, a, ha, hb⟩ => ⟨a, ha, b, hb⟩, fun ⟨a, ha, b, hb⟩ => ⟨b, a, ha, hb⟩⟩

/-- An element that is alone in passing a test is found in whatever order. -/
theorem find?_eq_of_perm {α : Type} {l l' : List α} {p : α → Bool} (h : l.Perm l')
    (hunique : ∀ a ∈ l, ∀ b ∈ l, p a = true → p b = true → a = b) : l.find? p = l'.find? p := by
  cases hl : l.find? p with
  | none =>
    exact (List.find?_eq_none.2 fun a ha => List.find?_eq_none.1 hl a (h.symm.subset ha)).symm
  | some a =>
    have ha := List.mem_of_find?_eq_some hl
    exact (find?_eq_of_unique (h.subset ha) (List.find?_some hl) fun b hb hpb =>
      hunique b (h.symm.subset hb) a ha hpb (List.find?_some hl)).symm

/-! ## Placing nodes -/

namespace Graph

variable {g : Graph Definition} {n : NodeId}

/-- A node of a kind may be added exactly if it is an action, or else the first of its kind in a
graph that is owned. -/
theorem checkKind_eq_ok_iff {kind : NodeKind Definition} :
    g.checkKind kind = .ok () ↔
      ((∃ d, kind = .action d) ∨ g.signature.isSome = true) ∧
        ∀ m ∈ g.nodes, m.kind = kind → ∃ d, kind = .action d := by
  cases kind with
  | action d => simp [checkKind]
  | entry =>
    have hnone := entryNode?_eq_none_iff (g := g)
    simp only [checkKind]
    cases hs : g.signature <;> cases he : g.entryNode? <;> simp_all
  | result =>
    have hnone := resultNode?_eq_none_iff (g := g)
    simp only [checkKind]
    cases hs : g.signature <;> cases he : g.resultNode? <;> simp_all

end Graph

/-- The kind of a stored node is that of the node that it stands for. -/
theorem Snapshot.kindOf_cases {c : Catalog} {r : NodeRecord} {kind : NodeKind Definition}
    (h : kindOf c r = .ok kind) : r.kind = .entry ∧ kind = .entry ∨
      r.kind = .result ∧ kind = .result ∨
        (∃ name, r.kind = .action name) ∧ ∃ d, kind = .action d := by
  unfold kindOf at h
  split at h
  next hk => exact .inl ⟨hk, (Except.ok.inj h).symm⟩
  next hk => exact .inr (.inl ⟨hk, (Except.ok.inj h).symm⟩)
  next name hk =>
    split at h
    next d _ => exact .inr (.inr ⟨⟨name, hk⟩, d, (Except.ok.inj h).symm⟩)
    next => simp at h

/-- Two stored nodes are of one pseudo-kind exactly if the nodes that they stand for are. -/
theorem Snapshot.action_of_kind_eq_iff {c : Catalog} {r r' : NodeRecord}
    {kind kind' : NodeKind Definition} (h : kindOf c r = .ok kind) (h' : kindOf c r' = .ok kind') :
    (kind = kind' → ∃ d, kind' = .action d) ↔
      (r.kind = r'.kind → ∃ name, r'.kind = .action name) := by
  rcases kindOf_cases h with ⟨hr, rfl⟩ | ⟨hr, rfl⟩ | ⟨⟨name, hr⟩, d, rfl⟩ <;>
    rcases kindOf_cases h' with ⟨hr', rfl⟩ | ⟨hr', rfl⟩ | ⟨⟨name', hr'⟩, d', rfl⟩ <;>
    simp [hr, hr']

namespace Snapshot

variable {c : Catalog} {owner : Option Signature} {g g' : Graph Definition}
variable {m : Node Definition} {ms : List (Node Definition)} {r : NodeRecord}

/-- What holds of the ids and kinds of the nodes placed holds of the graph's nodes. -/
theorem Laid.forall_iff (h : Laid owner ms g) {P : NodeId → NodeKind Definition → Prop} :
    (∀ k ∈ g.nodes, P k.id k.kind) ↔ ∀ k ∈ ms, P k.id k.kind := by
  have hmem : ∀ k, k ∈ g.nodes.map Node.core ↔ k ∈ ms := fun k => h.cores.mem_iff
  constructor
  · intro hP k hk
    obtain ⟨j, hj, rfl⟩ := List.mem_map.1 ((hmem k).2 hk)
    exact hP j hj
  · exact fun hP k hk => hP k.core ((hmem k.core).1 (List.mem_map_of_mem hk))

/-- The node placed last is found under its id, with its kind. -/
theorem Laid.node? (h : Laid owner (m :: ms) g) :
    ∃ k, g.node? m.id = some k ∧ k.kind = m.kind := by
  obtain ⟨k, hk, rfl⟩ := List.mem_map.1 (h.cores.symm.subset (.head ms))
  exact ⟨k, node?_of_mem h.valid.ascending hk, rfl⟩

/-- A node can be added under a new positive id. Pseudo-nodes are added to an owned graph only, and
only one of a kind. -/
theorem Laid.addNodeAt_iff (h : Laid owner ms g) {n : NodeId} {kind : NodeKind Definition} :
    (∃ g', g.addNodeAt n kind = .ok g') ↔
      n.number ≠ 0 ∧ ((∃ d, kind = .action d) ∨ owner.isSome = true) ∧
        ∀ k ∈ ms, k.id ≠ n ∧ (k.kind = kind → ∃ d, kind = .action d) := by
  have hall := h.forall_iff (P := fun id k => id ≠ n ∧ (k = kind → ∃ d, kind = .action d))
  simp only [addNodeAt_eq_ok, node?_eq_none_iff, checkKind_eq_ok_iff, h.signature, ← hall,
    exists_and_left, exists_eq', and_true]
  constructor
  · rintro ⟨hpos, hfree, howned, hlone⟩
    exact ⟨hpos, howned, fun k hk => ⟨hfree k hk, hlone k hk⟩⟩
  · rintro ⟨hpos, howned, hk⟩
    exact ⟨hpos, fun k h => (hk k h).1, howned, fun k h => (hk k h).2⟩

theorem Laid.exists_setPosition (h : Laid owner (m :: ms) g) (p : Position) :
    ∃ g', g.setPosition m.id p = .ok g' := by
  obtain ⟨k, hk, -⟩ := h.node?
  exact ⟨_, setPosition_eq_ok.2 ⟨⟨k, hk⟩, rfl⟩⟩

theorem Laid.setConst_iff (h : Laid owner (m :: ms) g) {name : String} {v : Value} :
    (∃ g', g.setConst m.id name v = .ok g') ↔
      ∃ d, m.kind = .action d ∧ (d.signature.const? name).isSome = true := by
  obtain ⟨k, hk, hkind⟩ := h.node?
  simp only [setConst_eq_ok, hk, Option.some.injEq, exists_eq_left', hkind, exists_and_left,
    exists_eq', and_true]
  rfl

theorem Laid.setDefault_iff (h : Laid owner (m :: ms) g) {k : SlotKey} {v : Value} :
    (∃ g', g.setDefault m.id k v = .ok g') ↔ m.kind.HasSlot owner k := by
  obtain ⟨j, hj, hkind⟩ := h.node?
  simp only [setDefault_eq_ok, checkSlot_eq_ok_iff, hj, Option.some.injEq, exists_eq_left', hkind,
    h.signature, exists_and_left, exists_eq', and_true]

/-- Constants can be stored if each of them can. -/
theorem Laid.restoreConsts_iff {es : List (String × Value)} (h : Laid owner (m :: ms) g) :
    (∃ g', Snapshot.restoreConsts m.id es g = .ok g') ↔
      ∀ e ∈ es, ∃ d, m.kind = .action d ∧ (d.signature.const? e.1).isSome = true := by
  induction es generalizing m g with
  | nil => simp [Snapshot.restoreConsts]
  | cons e es ih =>
    rw [Snapshot.restoreConsts, exists_bind_eq_ok, List.forall_mem_cons,
      ← h.setConst_iff (v := e.2)]
    constructor
    · rintro ⟨g₁, h₁, hrest⟩
      exact ⟨⟨g₁, h₁⟩, (ih (h.setConst h₁)).1 hrest⟩
    · rintro ⟨⟨g₁, h₁⟩, hrest⟩
      exact ⟨g₁, h₁, (ih (h.setConst h₁)).2 hrest⟩

/-- Defaults can be set if each of them can. -/
theorem Laid.restoreDefaults_iff {es : List (String × Value)} (h : Laid owner (m :: ms) g) :
    (∃ g', Snapshot.restoreDefaults m.id es g = .ok g') ↔
      ∀ e ∈ es, ∃ k, SlotKey.ofText? e.1 = some k ∧ m.kind.HasSlot owner k := by
  induction es generalizing m g with
  | nil => simp [Snapshot.restoreDefaults]
  | cons e es ih =>
    rw [Snapshot.restoreDefaults, List.forall_mem_cons]
    cases hk : SlotKey.ofText? e.1 with
    | none => simp
    | some k =>
      simp only [Option.some.injEq, exists_eq_left', exists_bind_eq_ok]
      rw [← h.setDefault_iff (v := e.2)]
      constructor
      · rintro ⟨g₁, h₁, hrest⟩
        exact ⟨⟨g₁, h₁⟩, (ih (h.setDefault h₁)).1 hrest⟩
      · rintro ⟨⟨g₁, h₁⟩, hrest⟩
        exact ⟨g₁, h₁, (ih (h.setDefault h₁)).2 hrest⟩

/-- A stored node can be placed beside those placed before exactly if its id is new and positive,
its kind is known, and what it stores suits the kind. -/
theorem Laid.placeNode_iff (h : Laid owner ms g) :
    (∃ g', Snapshot.placeNode c g r = .ok g') ↔
      r.id ≠ 0 ∧ ∃ kind, kindOf c r = .ok kind ∧ r.Suits owner kind ∧
        ∀ k ∈ ms, k.id ≠ ⟨r.id⟩ ∧ (k.kind = kind → ∃ d, kind = .action d) := by
  simp only [Snapshot.placeNode, exists_bind_eq_ok]
  constructor
  · rintro ⟨kind, hkind, g₁, h₁, g₂, h₂, g₃, h₃, hdefaults⟩
    have hl₁ := h.addNodeAt h₁
    have hl₂ := hl₁.setPosition h₂
    obtain ⟨hpos, howned, hothers⟩ := h.addNodeAt_iff.1 ⟨g₁, h₁⟩
    have hconsts := hl₂.restoreConsts_iff.1 ⟨g₃, h₃⟩
    have hslots := (hl₂.restoreConsts h₃).restoreDefaults_iff.1 hdefaults
    refine ⟨hpos, kind, hkind, ⟨howned, fun name hname => ?_, fun t ht => ?_⟩, hothers⟩
    · obtain ⟨e, he, rfl⟩ := List.mem_map.1 hname
      exact hconsts e he
    · obtain ⟨e, he, rfl⟩ := List.mem_map.1 ht
      exact hslots e he
  · rintro ⟨hpos, kind, hkind, hsuits, hothers⟩
    obtain ⟨g₁, h₁⟩ := h.addNodeAt_iff.2 ⟨hpos, hsuits.owned, hothers⟩
    have hl₁ := h.addNodeAt h₁
    obtain ⟨g₂, h₂⟩ := hl₁.exists_setPosition r.position
    have hl₂ := hl₁.setPosition h₂
    obtain ⟨g₃, h₃⟩ := hl₂.restoreConsts_iff.2 fun e he =>
      hsuits.consts e.1 (List.mem_map_of_mem he)
    have hdefaults := (hl₂.restoreConsts h₃).restoreDefaults_iff.2 fun e he =>
      hsuits.defaults e.1 (List.mem_map_of_mem he)
    exact ⟨kind, hkind, g₁, h₁, g₂, h₂, g₃, h₃, hdefaults⟩

/-- Two records stand apart exactly if the nodes that they stand for do. -/
theorem apart_iff_of_places {d : NodeRecord} {kind : NodeKind Definition}
    (hd : NodeRecord.Places c d m) (hkind : kindOf c r = .ok kind) :
    (m.id ≠ ⟨r.id⟩ ∧ (m.kind = kind → ∃ d, kind = .action d)) ↔ d.Apart r := by
  obtain ⟨kind', hkind', -, rfl⟩ := hd
  simp only [NodeRecord.node, Node.fresh, ne_eq, NodeId.mk.injEq, NodeRecord.Apart,
    action_of_kind_eq_iff hkind' hkind]

/-- A record stands apart from those placed before exactly if its node does. -/
theorem forall_apart_iff {done : List NodeRecord} {kind : NodeKind Definition}
    (hdone : List.Forall₂ (NodeRecord.Places c) done ms) (hkind : kindOf c r = .ok kind) :
    (∀ k ∈ ms, k.id ≠ ⟨r.id⟩ ∧ (k.kind = kind → ∃ d, kind = .action d)) ↔
      ∀ d ∈ done, d.Apart r := by
  induction hdone with
  | nil => simp
  | cons hd _ ih => simp only [List.forall_mem_cons, apart_iff_of_places hd hkind, ih]

/-- Stored nodes can be placed beside those placed before exactly if each of them can be, and any
two of them stand apart. -/
theorem Laid.placeNodes_iff {rs done : List NodeRecord} (h : Laid owner ms g)
    (hdone : List.Forall₂ (NodeRecord.Places c) done ms) :
    (∃ g', Snapshot.placeNodes c rs g = .ok g') ↔
      (∀ r ∈ rs, r.id ≠ 0 ∧ ∃ kind, kindOf c r = .ok kind ∧ r.Suits owner kind) ∧
        rs.Pairwise NodeRecord.Apart ∧ ∀ r ∈ rs, ∀ d ∈ done, d.Apart r := by
  induction rs generalizing ms done g with
  | nil => simp [Snapshot.placeNodes]
  | cons r rs ih =>
    rw [Snapshot.placeNodes, exists_bind_eq_ok, List.forall_mem_cons, List.pairwise_cons,
      List.forall_mem_cons]
    constructor
    · rintro ⟨g₁, h₁, hrest⟩
      obtain ⟨hpos, kind, hkind, hsuits, hapart⟩ := h.placeNode_iff.1 ⟨g₁, h₁⟩
      obtain ⟨n, hn, hlaid⟩ := h.placeNode h₁
      obtain ⟨hrs, hpairwise, hdone'⟩ := (ih hlaid (.cons hn hdone)).1 hrest
      exact ⟨⟨⟨hpos, kind, hkind, hsuits⟩, hrs⟩,
        ⟨fun x hx => hdone' x hx r (.head _), hpairwise⟩, (forall_apart_iff hdone hkind).1 hapart,
        fun x hx d hd => hdone' x hx d (.tail _ hd)⟩
    · rintro ⟨⟨⟨hpos, kind, hkind, hsuits⟩, hrs⟩, ⟨hhead, hpairwise⟩, hr, hdone'⟩
      obtain ⟨g₁, h₁⟩ := h.placeNode_iff.2
        ⟨hpos, kind, hkind, hsuits, (forall_apart_iff hdone hkind).2 hr⟩
      obtain ⟨n, hn, hlaid⟩ := h.placeNode h₁
      refine ⟨g₁, h₁, (ih hlaid (.cons hn hdone)).2 ⟨hrs, hpairwise, fun x hx d hd => ?_⟩⟩
      rcases List.mem_cons.1 hd with rfl | hd
      · exact hhead x hx
      · exact hdone' x hx d hd

end Snapshot

/-! ## Holding slots and restoring connections -/

namespace Graph

variable {g : Graph Definition} {n : NodeId} {name : String}

/-- The output found under a name is the port that its id denotes. -/
theorem Valid.output?_iff (h : g.Valid []) {d : PortDecl} :
    (∃ p, g.output? n name = some (g.portId p.index) ∧
        g.port? (g.portId p.index) = some ⟨n, .output, p⟩ ∧ p.decl = d) ↔
      ∃ m, g.node? n = some m ∧
        (m.outputs.find? fun p => p.decl.name = name).map (·.decl) = some d := by
  constructor
  · rintro ⟨p, hp, hport, rfl⟩
    obtain ⟨m, hm, hfind⟩ := Option.bind_eq_some_iff.1 hp
    obtain ⟨q, hq, hpq⟩ := Option.map_eq_some_iff.1 hfind
    have hq' := h.wellFormed.port?_portId
      (output_mem_allPorts (node?_mem hm).1 (List.mem_of_find?_eq_some hq))
    rw [hpq, hport] at hq'
    obtain rfl : q = p := (PlacedPort.mk.inj (Option.some.inj hq')).2.2.symm
    exact ⟨m, hm, by rw [hq, Option.map_some]⟩
  · rintro ⟨m, hm, hd⟩
    obtain ⟨p, hp, rfl⟩ := Option.map_eq_some_iff.1 hd
    obtain ⟨hmem, rfl⟩ := node?_mem hm
    exact ⟨p, by simp [output?, hm, hp], h.wellFormed.port?_portId
      (output_mem_allPorts hmem (List.mem_of_find?_eq_some hp)), rfl⟩

/-- The input found under a name and a slot is the port that its id denotes. -/
theorem Valid.input?_iff (h : g.Valid []) {slot : Option Nat} {d : PortDecl} :
    (∃ p, g.input? n name slot = some (g.portId p.index) ∧
        g.port? (g.portId p.index) = some ⟨n, .input, p⟩ ∧ p.decl = d) ↔
      ∃ m, g.node? n = some m ∧
        (m.inputs.find? fun p => p.decl.name = name && p.slot = slot).map (·.decl) = some d := by
  constructor
  · rintro ⟨p, hp, hport, rfl⟩
    obtain ⟨m, hm, hfind⟩ := Option.bind_eq_some_iff.1 hp
    obtain ⟨q, hq, hpq⟩ := Option.map_eq_some_iff.1 hfind
    have hq' := h.wellFormed.port?_portId
      (input_mem_allPorts (node?_mem hm).1 (List.mem_of_find?_eq_some hq))
    rw [hpq, hport] at hq'
    obtain rfl : q = p := (PlacedPort.mk.inj (Option.some.inj hq')).2.2.symm
    exact ⟨m, hm, by rw [hq, Option.map_some]⟩
  · rintro ⟨m, hm, hd⟩
    obtain ⟨p, hp, rfl⟩ := Option.map_eq_some_iff.1 hd
    obtain ⟨hmem, rfl⟩ := node?_mem hm
    exact ⟨p, by simp [input?, hm, hp], h.wellFormed.port?_portId
      (input_mem_allPorts hmem (List.mem_of_find?_eq_some hp)), rfl⟩

end Graph

/-- The slot that a fitting connection ends at is declared. -/
theorem ConnectionRecord.Fits.hasSlot {owner : Option Signature}
    {kind? : UInt32 → Option (NodeKind Definition)} {r : ConnectionRecord} (h : r.Fits owner kind?)
    {i : Nat} (hi : slotOf r = some i) :
    ∃ kind, kind? r.destNode = some kind ∧ kind.HasSlot owner ⟨r.destPort, some i⟩ := by
  obtain ⟨-, kind, -, q, -, hkind, -, hentrance, -⟩ := h
  refine ⟨kind, hkind, ?_⟩
  rw [hi] at hentrance
  obtain ⟨hfind, htest⟩ := Option.filter_eq_some_iff.1 hentrance
  obtain ⟨d, hd, hq⟩ := Option.bind_eq_some_iff.1 hfind
  cases kind with
  | action d' =>
    obtain rfl := Option.some.inj hd
    simp only [Bool.and_eq_true, decide_eq_true_eq] at htest
    exact ⟨⟨q, hq, htest.1⟩, fun j hj => Option.some.inj hj ▸ htest.2⟩
  | entry => simp [NodeKind.action?] at hd
  | result => simp [NodeKind.action?] at hd

namespace Snapshot

variable {c : Catalog} {owner : Option Signature} {kind? : UInt32 → Option (NodeKind Definition)}
variable {G G' : Graph Definition} {r : ConnectionRecord} {rs : List ConnectionRecord}

/-- The kinds of nodes by their ids do not depend on ports. -/
theorem kind_node? (G : Graph Definition) (n : NodeId) :
    (G.node? n).map (·.kind) =
      ((G.nodes.map Node.core).find? fun m => m.id = n).map (·.kind) := by
  rw [List.find?_map, Option.map_map]
  rfl

/-- The nodes have been placed: the graph is valid, and its nodes are of the given kinds. -/
structure Staged (owner : Option Signature) (kind? : UInt32 → Option (NodeKind Definition))
    (G : Graph Definition) : Prop where
  valid : G.Valid []
  hook : G.hook = .standard
  signature : G.signature = owner
  kinds : ∀ n : NodeId, (G.node? n).map (·.kind) = kind? n.number

/-- The slots that the records end at are held open. -/
def Opened (rs : List ConnectionRecord) (G : Graph Definition) : Prop :=
  ∀ r ∈ rs, ∀ i, slotOf r = some i → Holds G ⟨r.destNode⟩ r.destPort i

theorem Staged.node? (h : Staged owner kind? G) {n : UInt32} {kind : NodeKind Definition} :
    kind? n = some kind ↔ ∃ m, G.node? ⟨n⟩ = some m ∧ m.kind = kind := by
  rw [← h.kinds ⟨n⟩, Option.map_eq_some_iff]

/-- Reshapes change ports only. -/
theorem Staged.of_reshapes {g : Graph Definition} (h : Staged owner kind? G)
    (hcores : g.nodes.map Node.core = G.nodes.map Node.core) (hhook : g.hook = G.hook)
    (hsignature : g.signature = G.signature) (hr : g.Reshapes G') (hv : G'.Valid []) :
    Staged owner kind? G' where
  valid := hv
  hook := hr.hook.trans (hhook.trans h.hook)
  signature := hr.signature.trans (hsignature.trans h.signature)
  kinds n := by rw [kind_node?, hr.cores, hcores, ← kind_node?, h.kinds]

theorem Staged.hold (h : Staged owner kind? G) {n : NodeId} {group : String} {i : Nat}
    (hhold : G.hold n group i = .ok G') : Staged owner kind? G' ∧ Holds G' n group i ∧
      ∀ k name j, Holds G k name j → Holds G' k name j := by
  have hv := h.valid.hold hhold
  obtain ⟨hcheck, rfl⟩ := hold_eq_ok.1 hhold
  obtain ⟨m, -, hm, -⟩ := checkSlot_eq_ok.1 hcheck
  obtain ⟨hmem, hid⟩ := node?_mem hm
  have hwf : (G.updateNode n (raised group i)).WellFormed :=
    h.valid.wellFormed.updateNode (fun _ => rfl) (fun _ => rfl) fun _ => rfl
  have hr := reshapes_reshape hwf n
  have hcores : (G.updateNode n (raised group i)).nodes.map Node.core =
      G.nodes.map Node.core := by
    simp only [Graph.updateNode, List.map_map]
    refine List.map_congr_left fun k _ => ?_
    by_cases hk : k.id = n <;> simp [hk, Node.core, Node.bare, raised]
  refine ⟨h.of_reshapes hcores rfl rfl hr hv, ?_, fun k name j hj => hj.raised.of_reshapes hr⟩
  refine Holds.of_reshapes ⟨_, mem_nodes_updateNode.2 ⟨m, hmem, rfl⟩, ?_⟩ hr
  rw [if_pos hid]
  exact ⟨hid, get?_held_raised m group i⟩

/-- A slot can be held open exactly if the kind of its node declares it. -/
theorem Staged.hold_iff (h : Staged owner kind? G) {n : UInt32} {group : String} {i : Nat} :
    (∃ G', G.hold ⟨n⟩ group i = .ok G') ↔
      ∃ kind, kind? n = some kind ∧ kind.HasSlot owner ⟨group, some i⟩ := by
  have hcheck := checkSlot_eq_ok_iff (g := G) (n := ⟨n⟩) (k := ⟨group, some i⟩)
  rw [h.signature] at hcheck
  simp only [hold_eq_ok, exists_and_left, exists_eq', and_true, h.node?]
  refine hcheck.trans ⟨?_, ?_⟩
  · rintro ⟨m, hm, hslot⟩
    exact ⟨m.kind, ⟨m, hm, rfl⟩, hslot⟩
  · rintro ⟨kind, ⟨m, hm, rfl⟩, hslot⟩
    exact ⟨m, hm, hslot⟩

/-- The slots that records end at can be held open if the kinds of their nodes declare them. -/
theorem Staged.holdSlots_iff (h : Staged owner kind? G) :
    (∃ G', holdSlots rs G = .ok G') ↔
      ∀ r ∈ rs, ∀ i, slotOf r = some i →
        ∃ kind, kind? r.destNode = some kind ∧ kind.HasSlot owner ⟨r.destPort, some i⟩ := by
  induction rs generalizing G with
  | nil => simp [Snapshot.holdSlots]
  | cons r rs ih =>
    rw [Snapshot.holdSlots, List.forall_mem_cons]
    cases hslot : slotOf r with
    | none => simp [ih h]
    | some i =>
      simp only [Option.some.injEq, forall_eq', exists_bind_eq_ok]
      rw [← h.hold_iff]
      constructor
      · rintro ⟨G₁, h₁, hrest⟩
        exact ⟨⟨G₁, h₁⟩, (ih (h.hold h₁).1).1 hrest⟩
      · rintro ⟨⟨G₁, h₁⟩, hrest⟩
        exact ⟨G₁, h₁, (ih (h.hold h₁).1).2 hrest⟩

/-- Afterwards the slots are open. -/
theorem Staged.holdSlots (h : Staged owner kind? G) (hs : Snapshot.holdSlots rs G = .ok G') :
    Staged owner kind? G' ∧ Opened rs G' ∧ ∀ k name j, Holds G k name j → Holds G' k name j := by
  induction rs generalizing G with
  | nil =>
    obtain rfl := Except.ok.inj hs
    exact ⟨h, by simp [Opened], fun _ _ _ hj => hj⟩
  | cons r rs ih =>
    rw [Snapshot.holdSlots] at hs
    split at hs
    next hslot =>
      obtain ⟨hstaged, hopened, hkeep⟩ := ih h hs
      exact ⟨hstaged, List.forall_mem_cons.2 ⟨by simp [hslot], hopened⟩, hkeep⟩
    next i hslot =>
      obtain ⟨G₁, h₁, h₂⟩ := bind_eq_ok.1 hs
      obtain ⟨hstaged₁, hheld, hkeep₁⟩ := h.hold h₁
      obtain ⟨hstaged, hopened, hkeep⟩ := ih hstaged₁ h₂
      refine ⟨hstaged, List.forall_mem_cons.2 ⟨fun j hj => ?_, hopened⟩,
        fun k name j hj => hkeep k name j (hkeep₁ k name j hj)⟩
      obtain rfl := Option.some.inj (hslot.symm.trans hj)
      exact hkeep _ _ _ hheld

/-- A connection changes neither kinds nor the slots that are held open. -/
theorem Staged.connect (h : Staged owner kind? G) (hopened : Opened rs G) {a b : PortId}
    (hc : G.connect a b = .ok G') : Staged owner kind? G' ∧ Opened rs G' := by
  have hv := h.valid.connect hc
  obtain ⟨j, hcheck, rfl⟩ := connect_eq_ok.1 hc
  rcases join_eq G j with ⟨he, -⟩ | ⟨-, he⟩
  · rw [he]
    exact ⟨h, hopened⟩
  · have hlinked := h.valid.linked (.of_checkConnection hcheck)
    rw [he] at hv ⊢
    have hr := reshapes_refresh hlinked.wellFormed
    exact ⟨h.of_reshapes (g := G.linked j) rfl rfl rfl (hr _) hv,
      fun r hr' i hi => Holds.of_reshapes (G := G.linked j) (hopened r hr' i hi) (hr _)⟩

/-- The output of a node under a name, as the kind of the node declares it. -/
theorem Staged.exit_iff (h : Staged owner kind? G) {n : UInt32} {name : String} {d : PortDecl} :
    (∃ p, G.output? ⟨n⟩ name = some (G.portId p.index) ∧
        G.port? (G.portId p.index) = some ⟨⟨n⟩, .output, p⟩ ∧ p.decl = d) ↔
      ∃ kind, kind? n = some kind ∧ kind.exit? owner name = some d := by
  have hdecl : ∀ m, G.node? ⟨n⟩ = some m →
      (m.outputs.find? fun p => p.decl.name = name).map (·.decl) = m.kind.exit? owner name :=
    fun m hm => h.signature ▸ (h.valid.shaped m (node?_mem hm).1 List.not_mem_nil).find?_outputs
  simp only [h.valid.output?_iff, h.node?]
  constructor
  · rintro ⟨m, hm, hd⟩
    exact ⟨m.kind, ⟨m, hm, rfl⟩, hdecl m hm ▸ hd⟩
  · rintro ⟨_, ⟨m, hm, rfl⟩, hd⟩
    exact ⟨m, hm, (hdecl m hm).trans hd⟩

/-- The input of a node under a name and a slot, as the kind of the node declares it. A slot has to
be held open, and the kind has to declare it. -/
theorem Staged.entrance_iff (h : Staged owner kind? G) {n : UInt32} {name : String}
    {slot : Option Nat} {d : PortDecl}
    (hslot : ∀ i, slot = some i → Holds G ⟨n⟩ name i ∧
      ∃ kind, kind? n = some kind ∧ kind.HasSlot owner ⟨name, some i⟩) :
    (∃ p, G.input? ⟨n⟩ name slot = some (G.portId p.index) ∧
        G.port? (G.portId p.index) = some ⟨⟨n⟩, .input, p⟩ ∧ p.decl = d) ↔
      ∃ kind, kind? n = some kind ∧ kind.entrance? owner name slot = some d := by
  have hdecl : ∀ m, G.node? ⟨n⟩ = some m →
      (m.inputs.find? fun p => p.decl.name = name && p.slot = slot).map (·.decl) =
        m.kind.entrance? owner name slot := by
    intro m hm
    obtain ⟨hmem, hid⟩ := node?_mem hm
    rw [← h.signature]
    refine (h.valid.shaped m hmem List.not_mem_nil).find?_input fun i hi => ?_
    obtain ⟨⟨k, hk, hkid, j, hj, hij⟩, kind, hkind, hhas⟩ := hslot i hi
    obtain rfl := h.valid.ascending.id_inj hk hmem (hkid.trans hid.symm)
    obtain ⟨k', hk', rfl⟩ := h.node?.1 hkind
    obtain rfl := Option.some.inj (hm.symm.trans hk')
    exact ⟨⟨j, .inr hj, hij⟩, h.signature ▸ hhas⟩
  simp only [h.valid.input?_iff, h.node?]
  constructor
  · rintro ⟨m, hm, hd⟩
    exact ⟨m.kind, ⟨m, hm, rfl⟩, hdecl m hm ▸ hd⟩
  · rintro ⟨_, ⟨m, hm, rfl⟩, hd⟩
    exact ⟨m, hm, (hdecl m hm).trans hd⟩

/-- A stored connection can be restored exactly if it fits the kinds of its nodes, whatever has been
restored before. -/
theorem Staged.restoreConnection_iff (h : Staged owner kind? G)
    (hslot : ∀ i, slotOf r = some i → Holds G ⟨r.destNode⟩ r.destPort i ∧
      ∃ kind, kind? r.destNode = some kind ∧ kind.HasSlot owner ⟨r.destPort, some i⟩) :
    (∃ G', restoreConnection G r = .ok G') ↔ r.Fits owner kind? := by
  simp only [restoreConnection_eq_ok, connect_eq_ok]
  constructor
  · rintro ⟨G', a, b, q, ha, hb, hq, hkind, j, hj, -⟩
    obtain ⟨s, hs, hout, hsnode, -, rfl⟩ := output?_eq_some ha
    obtain ⟨t, ht, hin, htnode, -, rfl⟩ := input?_eq_some hb
    have hsport := h.valid.wellFormed.port?_portId hs
    have htport := h.valid.wellFormed.port?_portId ht
    obtain rfl := Option.some.inj (hsport.symm.trans hq)
    obtain ⟨node, side, p⟩ := s
    obtain ⟨node', side', p'⟩ := t
    subst hout hin hsnode htnode
    obtain ⟨kind, hk, hexit⟩ := h.exit_iff.1 ⟨p, ha, hsport, rfl⟩
    obtain ⟨kind', hk', hentrance⟩ := (h.entrance_iff hslot).1 ⟨p', hb, htport, rfl⟩
    obtain ⟨hne, hmeets⟩ := (checkConnection_iff hsport htport h.hook).1 ⟨j, hj⟩
    exact ⟨kind, kind', p.decl, p'.decl, hk, hk', hexit, hentrance, hkind,
      fun he => hne (congrArg NodeId.mk he), hmeets⟩
  · rintro ⟨kind, kind', d, d', hk, hk', hexit, hentrance, hkind, hne, hmeets⟩
    obtain ⟨p, ha, hsport, rfl⟩ := h.exit_iff.2 ⟨kind, hk, hexit⟩
    obtain ⟨p', hb, htport, rfl⟩ := (h.entrance_iff hslot).2 ⟨kind', hk', hentrance⟩
    obtain ⟨j, hj⟩ := (checkConnection_iff hsport htport h.hook).2
      ⟨fun he => hne (congrArg NodeId.number he), hmeets⟩
    exact ⟨_, _, _, _, ha, hb, hsport, hkind, j, hj, rfl⟩

/-- Stored connections can be restored if each of them can. -/
theorem Staged.restoreConnections_iff (h : Staged owner kind? G) (hopened : Opened rs G)
    (hslots : ∀ r ∈ rs, ∀ i, slotOf r = some i →
      ∃ kind, kind? r.destNode = some kind ∧ kind.HasSlot owner ⟨r.destPort, some i⟩) :
    (∃ G', restoreConnections rs G = .ok G') ↔ ∀ r ∈ rs, r.Fits owner kind? := by
  induction rs generalizing G with
  | nil => simp [restoreConnections]
  | cons r rs ih =>
    have hone := h.restoreConnection_iff fun i hi =>
      ⟨hopened r (.head _) i hi, hslots r (.head _) i hi⟩
    have hnext : ∀ G₁, restoreConnection G r = .ok G₁ →
        ((∃ G', restoreConnections rs G₁ = .ok G') ↔ ∀ r ∈ rs, r.Fits owner kind?) := by
      intro G₁ h₁
      obtain ⟨a, b, -, -, -, -, -, hc⟩ := restoreConnection_eq_ok.1 h₁
      obtain ⟨hstaged, hopened₁⟩ := h.connect hopened hc
      exact ih hstaged (fun x hx => hopened₁ x (.tail _ hx)) fun x hx => hslots x (.tail _ hx)
    rw [restoreConnections, exists_bind_eq_ok, List.forall_mem_cons, ← hone]
    constructor
    · rintro ⟨G₁, h₁, hrest⟩
      exact ⟨⟨G₁, h₁⟩, (hnext G₁ h₁).1 hrest⟩
    · rintro ⟨⟨G₁, h₁⟩, hrest⟩
      exact ⟨G₁, h₁, (hnext G₁ h₁).2 hrest⟩

/-- The kinds of the nodes placed are those that the catalog has for their records. -/
theorem find?_kind_of_places {ss : List NodeRecord} {ns : List (Node Definition)}
    (h : List.Forall₂ (NodeRecord.Places c) ss ns) (n : NodeId) :
    (ns.find? fun m => m.id = n).map (·.kind) =
      (ss.find? fun x => x.id = n.number).bind fun x => (kindOf c x).toOption := by
  induction h with
  | nil => rfl
  | @cons x _ _ _ hx _ ih =>
    obtain ⟨kind, hkind, -, rfl⟩ := hx
    have hid : (x.node kind).id = n ↔ x.id = n.number := by
      cases n
      simp [NodeRecord.node, Node.fresh]
    by_cases hn : x.id = n.number
    · simp only [List.find?_cons, hid, hn, decide_true, Option.map_some, Option.bind_some, hkind]
      rfl
    · simpa only [List.find?_cons, hid, hn, decide_false] using ih

/-- Once the nodes are placed, the slots can be held open and the connections be made. -/
theorem Laid.staged {s : Snapshot} {ns : List (Node Definition)} {g : Graph Definition}
    (h : Laid owner ns g) (hns : List.Forall₂ (NodeRecord.Places c) s.nodes ns) :
    Staged owner (s.kind? c) g where
  valid := h.valid
  hook := h.hook
  signature := h.signature
  kinds n := by
    have hids : ((g.nodes.map Node.core).map (·.id)).Nodup := by
      have hnodup := h.valid.ascending.nodup_ids
      rw [List.map_map]
      exact hnodup
    rw [kind_node?, find?_eq_of_perm h.cores fun a ha b hb hna hnb => List.inj_on_of_nodup_map hids
      ha hb (by simp_all), find?_kind_of_places hns]
    rfl

theorem Staged.restoreConnections (h : Staged owner kind? G) (hopened : Opened rs G)
    (hr : Snapshot.restoreConnections rs G = .ok G') : Staged owner kind? G' :=
  (restoreConnections_induct (P := fun k => Staged owner kind? k ∧ Opened rs k)
    (fun _ _ _ _ hk hc => hk.1.connect hk.2 hc) hr ⟨h, hopened⟩).1

theorem Staged.release (h : Staged owner kind? G) : Staged owner kind? G.release := by
  have hcores : G.unheld.nodes.map Node.core = G.nodes.map Node.core := by
    simp only [unheld, List.map_map]
    rfl
  exact h.of_reshapes hcores rfl rfl h.valid.reshapes_release h.valid.release

/-- The records of nodes of a snapshot are placed exactly if each can be and any two stand apart. -/
theorem exists_placeNodes_iff (id : Nat) {s : Snapshot} :
    (∃ g, placeNodes c s.nodes (canvas id owner) = .ok g) ↔
      (∀ r ∈ s.nodes, r.id ≠ 0 ∧ ∃ kind, kindOf c r = .ok kind ∧ r.Suits owner kind) ∧
        s.nodes.Pairwise NodeRecord.Apart := by
  have hplace : (∃ g, placeNodes c s.nodes (canvas id owner) = .ok g) ↔ _ :=
    (Laid.canvas id owner).placeNodes_iff .nil
  simpa only [List.not_mem_nil, false_imp_iff, implies_true, and_true] using hplace

/-- The nodes that are placed are of the kinds of their records. -/
theorem staged_placeNodes {id : Nat} {s : Snapshot}
    (h : placeNodes c s.nodes (canvas id owner) = .ok G) : Staged owner (s.kind? c) G := by
  obtain ⟨ns, hns, hlaid⟩ := (Laid.canvas id owner).placeNodes h
  rw [List.append_nil] at hlaid
  exact hlaid.staged hns

/-- A rebuilt graph has the hook, the signature and the kinds of nodes that it is rebuilt with. -/
theorem staged_rebuild {id : Nat} {s : Snapshot} (h : s.rebuild c id owner = .ok G) :
    Staged owner (s.kind? c) G := by
  obtain ⟨g₁, g₂, g₃, h₁, h₂, h₃, rfl⟩ := rebuild_eq_ok.1 h
  obtain ⟨hstaged, hopened, -⟩ := (staged_placeNodes h₁).holdSlots h₂
  exact (hstaged.restoreConnections hopened h₃).release

/-- A snapshot that is rebuilt is acceptable. -/
theorem acceptable_of_rebuild {id : Nat} {s : Snapshot} (h : s.rebuild c id owner = .ok G) :
    s.Acceptable c owner := by
  obtain ⟨g₁, g₂, g₃, h₁, h₂, h₃, -⟩ := rebuild_eq_ok.1 h
  obtain ⟨hnodes, hapart⟩ := (exists_placeNodes_iff id).1 ⟨g₁, h₁⟩
  have hstaged := staged_placeNodes h₁
  have hslots := hstaged.holdSlots_iff.1 ⟨g₂, h₂⟩
  obtain ⟨hstaged₂, hopened, -⟩ := hstaged.holdSlots h₂
  exact ⟨fun r hr => (hnodes r hr).1, hapart, fun r hr => (hnodes r hr).2,
    (hstaged₂.restoreConnections_iff hopened hslots).1 ⟨g₃, h₃⟩⟩

/-- An acceptable snapshot is rebuilt: slots that are held open stay, so no step takes away what a
later one needs. -/
theorem Acceptable.exists_rebuild {s : Snapshot} (h : s.Acceptable c owner) (id : Nat) :
    ∃ g, s.rebuild c id owner = .ok g := by
  obtain ⟨g₁, h₁⟩ := (exists_placeNodes_iff id).2
    ⟨fun r hr => ⟨h.positive r hr, h.nodes r hr⟩, h.apart⟩
  have hstaged := staged_placeNodes h₁
  have hslots := fun r hr i hi => (h.connections r hr).hasSlot (i := i) hi
  obtain ⟨g₂, h₂⟩ := hstaged.holdSlots_iff.2 hslots
  obtain ⟨hstaged₂, hopened, -⟩ := hstaged.holdSlots h₂
  obtain ⟨g₃, h₃⟩ := (hstaged₂.restoreConnections_iff hopened hslots).2 h.connections
  exact ⟨_, rebuild_eq_ok.2 ⟨g₁, g₂, g₃, h₁, h₂, h₃, rfl⟩⟩

/-- The rebuild accepts exactly the snapshots whose records are acceptable one by one. -/
theorem rebuild_succeeds_iff (c : Catalog) (id : Nat) (owner : Option Signature) (s : Snapshot) :
    (∃ g, s.rebuild c id owner = .ok g) ↔ s.Acceptable c owner :=
  ⟨fun ⟨_, h⟩ => acceptable_of_rebuild h, fun h => h.exists_rebuild id⟩

end Snapshot

end EffectGraph
