import EffectGraph.Proofs.Keys
import EffectGraph.Proofs.Records
import EffectGraph.Proofs.Restoring

/-!
# Placing the nodes of a snapshot

A node is stored without its ports, which follow from its kind and from what it stores
(`Node.core`). The nodes of a valid graph can be placed one after another into a blank graph, each
with everything it stores: its constants and defaults are declared by its kind, and the text of a
slot key is read back as that key (`Placed.placeNodes`). Entry and Return are placed like the other
nodes if the graph is owned by a definition; Return may store defaults for the outputs of its
signature.
-/

namespace EffectGraph

open EffectGraph.Graph

/-- A node without its ports and the slots it holds open. -/
def Node.core {κ : Type} (n : Node κ) : Node κ := { n.bare with held := .empty }

theorem cores_of_bare {κ : Type} {ns ms : List (Node κ)}
    (h : ns.map Node.bare = ms.map Node.bare) : ns.map Node.core = ms.map Node.core := by
  have hcores := congrArg (List.map Node.core) h
  rw [List.map_map, List.map_map] at hcores
  exact hcores

/-- Reshapes change ports only. -/
theorem Graph.Reshapes.cores {κ : Type} {g g' : Graph κ} (h : g.Reshapes g') :
    g'.nodes.map Node.core = g.nodes.map Node.core := cores_of_bare h.bare

/-- An update commutes with a map that keeps ids and that the change of the node commutes with. -/
theorem Graph.map_updateNode {κ : Type} {F f : Node κ → Node κ} (hid : ∀ k, (F k).id = k.id)
    (hf : ∀ k, F (f k) = f (F k)) (g : Graph κ) (n : NodeId) :
    (g.updateNode n f).nodes.map F =
      (g.nodes.map F).map fun k => if k.id = n then f k else k := by
  simp only [Graph.updateNode, List.map_map]
  refine List.map_congr_left fun k _ => ?_
  simp only [Function.comp_apply, hid]
  split
  · exact hf k
  · rfl

/-- Only the node with the id is changed. -/
theorem map_update_of_ne {κ : Type} {f : Node κ → Node κ} {ns : List (Node κ)} {n : NodeId}
    (h : ∀ k ∈ ns, k.id ≠ n) : (ns.map fun k => if k.id = n then f k else k) = ns :=
  (List.map_congr_left fun k hk => if_neg (h k hk)).trans (List.map_id' ns)

/-- A kind of method that the catalog knows under its name, without brackets in the names of its
inputs. -/
structure Definition.Storable (c : Catalog) (d : Definition) : Prop where
  method : ∃ m, MethodDecl.define m = .ok d
  plain : ∀ p ∈ d.signature.inputs, '[' ∉ p.name.toList
  known : c.get? d.name = some d

/-- The declarations that the inputs of a node of the kind go back to, in a graph that is owned by a
definition with the given signature. -/
def NodeKind.slots (owner : Option Signature) : NodeKind Definition → List PortDecl
  | .action d => d.signature.inputs
  | .entry => []
  | .result => owner.elim [] (·.outputs)

theorem Graph.slotDecl?_eq (g : Graph Definition) (n : Node Definition) (name : String) :
    g.slotDecl? n name = (n.kind.slots g.signature).find? fun d => d.name = name := by
  unfold slotDecl? NodeKind.slots
  cases n.kind with
  | action d => rfl
  | entry => rfl
  | result => cases g.signature <;> rfl

/-- What the node stores goes back to declarations: constants to those of its kind, defaults to its
inputs, in a graph that is owned by a definition with the given signature. -/
structure Node.Declared (owner : Option Signature) (n : Node Definition) : Prop where
  consts : ∀ name ∈ n.consts.keys, ∃ d, n.kind = .action d ∧
    (d.signature.const? name).isSome = true
  defaults : ∀ k ∈ n.defaults.keys, ∃ p,
    ((n.kind.slots owner).find? fun d => d.name = k.name) = some p ∧ p.isVariadic = k.index.isSome

/-- An action node of a valid graph stores what its kind declares. -/
theorem Node.Stored.declared {n : Node Definition} (hs : n.Stored) {d : Definition}
    (hkind : n.kind = .action d) (owner : Option Signature) : n.Declared owner where
  consts name hname := ⟨d, hkind, hs.consts d hkind name hname⟩
  defaults k hk := by
    obtain ⟨p, hp, hgroup⟩ := (Option.any_eq_true _ _).1 (hs.defaults d hkind k hk)
    rw [hkind]
    exact ⟨p, hp, by simpa using hgroup⟩

/-- Where no declaration has a bracket in its name, the slot keys of all defaults are legible. -/
theorem Node.Declared.legible {owner : Option Signature} {n : Node Definition}
    (h : n.Declared owner) (hplain : ∀ p ∈ n.kind.slots owner, '[' ∉ p.name.toList) :
    ∀ k ∈ n.defaults.keys, k.Legible := by
  intro k hk
  obtain ⟨p, hp, -⟩ := h.defaults k hk
  have hname : p.name = k.name := by simpa using List.find?_some hp
  exact .of_not_mem (hname ▸ hplain p (List.mem_of_find?_eq_some hp))

/-- The node can be placed again from what is stored of it, in a graph that is owned by a definition
with the given signature: the catalog knows its kind, which declares what the node stores, and the
slot keys of its defaults are legible. -/
structure Node.Restorable (c : Catalog) (owner : Option Signature) (n : Node Definition) : Prop
    extends n.Declared owner where
  kind : Snapshot.kindOf c (.ofNode n) = .ok n.kind
  owned : (∃ d, n.kind = .action d) ∨ owner.isSome = true
  legible : ∀ k ∈ n.defaults.keys, k.Legible
  below : ∀ k ∈ n.defaults.keys, ∀ i, k.index = some i → i < slotLimit

/-- The catalog finds the kind of an action node under its name. -/
theorem Snapshot.kindOf_ofNode {c : Catalog} {d : Definition} {n : Node Definition}
    (hkind : n.kind = .action d) (hget : c.get? d.name = some d) :
    kindOf c (.ofNode n) = .ok n.kind := by
  have hrecord : (NodeRecord.ofNode n).kind = .action d.name := by
    simp only [NodeRecord.ofNode, StoredKind.ofKind, hkind]
    rfl
  simp only [kindOf, hrecord, hget, hkind]

/-- An action node of a kind that can be stored can be placed again. -/
theorem Definition.Storable.restorable {c : Catalog} {d : Definition} {n : Node Definition}
    (hd : d.Storable c) (hkind : n.kind = .action d) (hs : n.Stored) (owner : Option Signature) :
    n.Restorable c owner where
  toDeclared := hs.declared hkind owner
  kind := Snapshot.kindOf_ofNode hkind hd.known
  owned := .inl ⟨d, hkind⟩
  legible := (hs.declared hkind owner).legible (by rw [hkind]; exact hd.plain)
  below := hs.below

namespace Snapshot

variable {c : Catalog} {owner : Option Signature} {ns : List (Node Definition)}
variable {m n : Node Definition} {d : Definition} {g : Graph Definition}

/-- While nodes are placed: the graph is valid and without connections, and its nodes without their
ports are the given ones. -/
structure Placed (owner : Option Signature) (ns : List (Node Definition)) (g : Graph Definition) :
    Prop where
  valid : g.Valid []
  bare : g.nodes.map Node.bare = ns
  hook : g.hook = .standard
  signature : g.signature = owner
  connections : g.connections = []

theorem Placed.canvas (id : Nat) (owner : Option Signature) : Placed owner [] (canvas id owner) :=
  ⟨valid_empty id .standard owner, rfl, rfl, rfl, rfl⟩

theorem Placed.cores (h : Placed owner (ns.map Node.core) g) :
    g.nodes.map Node.core = ns.map Node.core := by
  have hcores := congrArg (List.map Node.core) h.bare
  rw [List.map_map, List.map_map] at hcores
  exact hcores

/-- The node placed last is found under its id. -/
theorem Placed.node? (h : Placed owner (ns ++ [m]) g) :
    ∃ k, g.node? m.id = some k ∧ k.bare = m := by
  have hmem : m ∈ g.nodes.map Node.bare := h.bare ▸ List.mem_append_right _ (.head _)
  obtain ⟨k, hk, rfl⟩ := List.mem_map.1 hmem
  exact ⟨k, node?_of_mem h.valid.ascending hk, rfl⟩

/-- An edit of what the node placed last stores. -/
theorem Placed.updateNode (h : Placed owner (ns ++ [m]) g) {f : Node Definition → Node Definition}
    (hf : ∀ k, (f k).bare = f k.bare) :
    (g.updateNode m.id f).nodes.map Node.bare = ns ++ [f m] := by
  -- Ids differ, so the update leaves the nodes placed before alone.
  have hids : g.nodeIds = (ns ++ [m]).map (·.id) := by
    rw [← h.bare, List.map_map]
    rfl
  have hnodup := hids ▸ h.valid.ascending.nodup_ids
  rw [List.map_append, List.nodup_append] at hnodup
  have hold : ∀ k ∈ ns, k.id ≠ m.id := fun k hk =>
    hnodup.2.2 _ (List.mem_map_of_mem hk) _ (List.mem_singleton.2 rfl)
  rw [g.map_updateNode (F := Node.bare) (fun _ => rfl) hf, h.bare, List.map_append,
    map_update_of_ne hold]
  simp

theorem Placed.setPosition (h : Placed owner (ns ++ [m]) g) (p : Position) :
    ∃ g', g.setPosition m.id p = .ok g' ∧
      Placed owner (ns ++ [{ m with position := p }]) g' := by
  obtain ⟨k, hk, -⟩ := h.node?
  have hset : g.setPosition m.id p = .ok _ := setPosition_eq_ok.2 ⟨⟨k, hk⟩, rfl⟩
  exact ⟨_, hset, h.valid.setPosition hset, h.updateNode fun _ => rfl, h.hook, h.signature,
    h.connections⟩

theorem Placed.setConst (h : Placed owner (ns ++ [m]) g) (hkind : m.kind = .action d)
    {name : String} (hname : (d.signature.const? name).isSome = true) (v : Value) :
    ∃ g', g.setConst m.id name v = .ok g' ∧
      Placed owner (ns ++ [{ m with consts := m.consts.insert name v }]) g' := by
  obtain ⟨k, hk, hbare⟩ := h.node?
  have haction : k.kind = .action d := (congrArg Node.kind hbare).trans hkind
  have hset : g.setConst m.id name v = .ok _ :=
    setConst_eq_ok.2 ⟨⟨k, hk, d, haction, hname⟩, rfl⟩
  exact ⟨_, hset, h.valid.setConst hset, h.updateNode fun _ => rfl, h.hook, h.signature,
    h.connections⟩

/-- A default may be set under a slot key that the kind declares, below the limit. -/
theorem Placed.setDefault (h : Placed owner (ns ++ [m]) g) {k : SlotKey} {p : PortDecl}
    (hp : ((m.kind.slots owner).find? fun d => d.name = k.name) = some p)
    (hgroup : p.isVariadic = k.index.isSome) (hlimit : ∀ i, k.index = some i → i < slotLimit)
    (v : Value) :
    ∃ g', g.setDefault m.id k v = .ok g' ∧
      Placed owner (ns ++ [m.mapDefaults (·.insert k v)]) g' := by
  obtain ⟨j, hj, hbare⟩ := h.node?
  have hkind : j.bare.kind = m.kind := congrArg Node.kind hbare
  have hdecl : g.slotDecl? j k.name = some p := by
    rw [slotDecl?_eq, ← j.bare_kind, hkind, h.signature, hp]
  have hcheck : g.checkSlot m.id k = .ok k.index.isSome :=
    checkSlot_eq_ok.2 ⟨j, p, hj, hdecl, hgroup, rfl, hlimit⟩
  have hset : g.setDefault m.id k v = .ok _ := setDefault_eq_ok.2 ⟨hcheck, rfl⟩
  have hreshapes := h.valid.reshapes_updateDefaults (n := m.id) k.index.isSome fun t => t.insert k v
  refine ⟨_, hset, h.valid.setDefault hset, ?_, hreshapes.hook.trans h.hook,
    hreshapes.signature.trans h.signature, ?_⟩
  · rw [hreshapes.bare]
    exact h.updateNode fun _ => rfl
  · exact List.sublist_nil.1 (h.connections ▸ hreshapes.connections)

theorem Placed.restoreConsts {es : List (String × Value)} (h : Placed owner (ns ++ [m]) g)
    (hes : ∀ e ∈ es, ∃ d, m.kind = .action d ∧ (d.signature.const? e.1).isSome = true) :
    ∃ g', restoreConsts m.id es g = .ok g' ∧
      Placed owner
        (ns ++ [{ m with consts := es.foldl (fun t e => t.insert e.1 e.2) m.consts }]) g' := by
  induction es generalizing m g with
  | nil => exact ⟨g, rfl, h⟩
  | cons e es ih =>
    obtain ⟨d, hkind, hname⟩ := hes e (.head _)
    obtain ⟨g₁, h₁, hp₁⟩ := h.setConst hkind hname e.2
    obtain ⟨g₂, h₂, hp₂⟩ := ih hp₁ fun x hx => hes x (.tail _ hx)
    exact ⟨g₂, bind_eq_ok.2 ⟨g₁, h₁, h₂⟩, hp₂⟩

/-- The slot key and the value that a stored default stands for. -/
def readDefault? (e : String × Value) : Option (SlotKey × Value) :=
  (SlotKey.ofText? e.1).map fun k => (k, e.2)

theorem Placed.restoreDefaults {es : List (String × Value)} (h : Placed owner (ns ++ [m]) g)
    (hes : ∀ e ∈ es, ∃ k, SlotKey.ofText? e.1 = some k ∧
      (∃ p, ((m.kind.slots owner).find? fun d => d.name = k.name) = some p ∧
        p.isVariadic = k.index.isSome) ∧ ∀ i, k.index = some i → i < slotLimit) :
    ∃ g', restoreDefaults m.id es g = .ok g' ∧
      Placed owner (ns ++ [m.mapDefaults fun t =>
        (es.filterMap readDefault?).foldl (fun t e => t.insert e.1 e.2) t]) g' := by
  induction es generalizing m g with
  | nil => exact ⟨g, rfl, h⟩
  | cons e es ih =>
    obtain ⟨k, hk, ⟨p, hp, hgroup⟩, hlimit⟩ := hes e (.head _)
    obtain ⟨g₁, h₁, hp₁⟩ := h.setDefault hp hgroup hlimit e.2
    obtain ⟨g₂, h₂, hp₂⟩ := ih hp₁ fun x hx => hes x (.tail _ hx)
    refine ⟨g₂, ?_, ?_⟩
    · simp only [Snapshot.restoreDefaults, hk]
      exact bind_eq_ok.2 ⟨g₁, h₁, h₂⟩
    · have hread : readDefault? e = some (k, e.2) := by simp [readDefault?, hk]
      rw [List.filterMap_cons_some hread]
      exact hp₂

theorem insertNode_eq_append {m : Node Definition} {ns : List (Node Definition)}
    (h : ∀ k ∈ ns, k.id.number < m.id.number) : insertNode m ns = ns ++ [m] := by
  induction ns with
  | nil => rfl
  | cons k ks ih =>
    rw [insertNode, if_neg (UInt32.not_lt.2 (UInt32.le_of_lt (h k (.head _)))),
      ih fun j hj => h j (.tail _ hj), List.cons_append]

/-- Nodes stand in order: by their ids, and none but action nodes are of one kind. -/
def Precedes (a b : Node Definition) : Prop :=
  a.id.number < b.id.number ∧ (a.kind = b.kind → ∃ d, b.kind = .action d)

/-- A node with the highest id is placed last. -/
theorem Placed.addNodeAt (h : Placed owner ns g) (hn : n.Restorable c owner)
    (hpos : n.id.number ≠ 0) (hlast : ∀ k ∈ ns, Precedes k n) :
    ∃ g', g.addNodeAt n.id n.kind = .ok g' ∧ Placed owner (ns ++ [.fresh n.id n.kind]) g' := by
  have hprecedes : ∀ k ∈ g.nodes, Precedes k n := fun k hk =>
    hlast k.bare (h.bare ▸ List.mem_map_of_mem hk)
  have hbefore : ∀ k ∈ g.nodes, k.id.number < n.id.number := fun k hk => (hprecedes k hk).1
  have hfree : g.node? n.id = none :=
    node?_eq_none_iff.2 fun k hk => ne_of_number_lt (hbefore k hk)
  -- A pseudo-node is the first of its kind, in a graph that is owned.
  have hcheck : g.checkKind n.kind = .ok () := by
    have hfirst : (∃ d, n.kind = .action d) ∨ g.signature.isSome = true ∧
        ∀ k ∈ g.nodes, k.kind ≠ n.kind := by
      by_cases ha : ∃ d, n.kind = .action d
      · exact .inl ha
      · exact .inr ⟨h.signature ▸ hn.owned.resolve_left ha,
          fun k hk he => ha ((hprecedes k hk).2 he)⟩
    unfold checkKind
    cases hk : n.kind with
    | action d => rfl
    | entry =>
      obtain ⟨hsome, hnone⟩ := hfirst.resolve_left (by simp [hk])
      simp [entryNode?_eq_none_iff.2 (hk ▸ hnone), Option.isSome_iff_ne_none.1 hsome]
    | result =>
      obtain ⟨hsome, hnone⟩ := hfirst.resolve_left (by simp [hk])
      simp [resultNode?_eq_none_iff.2 (hk ▸ hnone), Option.isSome_iff_ne_none.1 hsome]
  have hadd : g.addNodeAt n.id n.kind = .ok _ := addNodeAt_eq_ok.2 ⟨hpos, hfree, hcheck, rfl⟩
  have hreshapes := h.valid.reshapes_place hadd
  refine ⟨_, hadd, h.valid.addNodeAt hadd, ?_, hreshapes.hook.trans h.hook,
    hreshapes.signature.trans h.signature, ?_⟩
  · rw [hreshapes.bare, insertNode_eq_append (m := .fresh n.id n.kind) hbefore,
      List.map_append, h.bare]
    rfl
  · exact List.sublist_nil.1 (h.connections ▸ hreshapes.connections)

/-! ## Stored nodes -/

/-- The slot keys of the defaults of a node can be read back from their texts. -/
theorem ofText?_text_of_mem (hn : n.Restorable c owner) {k : SlotKey}
    (hk : k ∈ n.defaults.keys) : SlotKey.ofText? k.text = some k :=
  (hn.legible k hk).ofText?_text fun i hi => Nat.lt_trans (hn.below k hk i hi) (by decide)

section Read

variable (hread : ∀ k ∈ n.defaults.keys, SlotKey.ofText? k.text = some k)

include hread

/-- Slot keys that can be read back from their texts have different texts. -/
theorem nodup_texts : (n.defaults.keys.map SlotKey.text).Nodup :=
  n.defaults.nodup_keys.map_on fun j hj k hk he =>
    Option.some.inj ((hread j hj).symm.trans (he ▸ hread k hk))

/-- The stored defaults of a node are its defaults under the texts of their keys. -/
theorem perm_defaults_ofNode : (NodeRecord.ofNode n).defaults.entries.Perm
    (n.defaults.entries.map fun e => (e.1.text, e.2)) := by
  refine Table.perm_entries_ofList ?_
  have htexts : (n.defaults.entries.map fun e => (e.1.text, e.2)).map (·.1) =
      n.defaults.keys.map SlotKey.text := by
    simp [Table.keys, Function.comp_def]
  rw [htexts]
  exact nodup_texts hread

/-- The stored defaults of a node stand for its defaults one by one. -/
theorem perm_readDefault? : ((NodeRecord.ofNode n).defaults.entries.map readDefault?).Perm
    (n.defaults.entries.map some) := by
  have heach : (n.defaults.entries.map fun e => (e.1.text, e.2)).map readDefault? =
      n.defaults.entries.map some := by
    rw [List.map_map]
    refine List.map_congr_left fun e he => ?_
    simp [readDefault?, hread e.1 (List.mem_map_of_mem (f := (·.1)) he)]
  exact heach ▸ (perm_defaults_ofNode hread).map readDefault?

/-- The defaults of a node are those that its stored defaults stand for. -/
theorem ofList_readDefault? :
    .ofList ((NodeRecord.ofNode n).defaults.entries.filterMap readDefault?) = n.defaults := by
  have hperm := (perm_readDefault? hread).filterMap id
  rw [List.filterMap_map, List.filterMap_map, Function.id_comp, Function.id_comp,
    List.filterMap_some] at hperm
  exact Table.ofList_of_perm hperm

end Read

/-- A stored node is placed with everything that it stores. -/
theorem Placed.placeNode (h : Placed owner ns g) (hn : n.Restorable c owner)
    (hpos : n.id.number ≠ 0) (hlast : ∀ k ∈ ns, Precedes k n) :
    ∃ g', placeNode c g (.ofNode n) = .ok g' ∧ Placed owner (ns ++ [n.core]) g' := by
  obtain ⟨g₁, h₁, hp₁⟩ := h.addNodeAt hn hpos hlast
  obtain ⟨g₂, h₂, hp₂⟩ := hp₁.setPosition n.position
  obtain ⟨g₃, h₃, hp₃⟩ := hp₂.restoreConsts fun e he => hn.consts e.1 (List.mem_map_of_mem he)
  have hread : ∀ k ∈ n.defaults.keys, SlotKey.ofText? k.text = some k :=
    fun k hk => ofText?_text_of_mem hn hk
  have htexts : ∀ e ∈ (NodeRecord.ofNode n).defaults.entries, ∃ k,
      SlotKey.ofText? e.1 = some k ∧
        (∃ p, ((n.kind.slots owner).find? fun d => d.name = k.name) = some p ∧
          p.isVariadic = k.index.isSome) ∧ ∀ i, k.index = some i → i < slotLimit := by
    intro e he
    obtain ⟨x, hx, rfl⟩ := List.mem_map.1 ((perm_defaults_ofNode hread).subset he)
    have hx : x.1 ∈ n.defaults.keys := List.mem_map_of_mem hx
    exact ⟨x.1, hread x.1 hx, hn.defaults x.1 hx, hn.below x.1 hx⟩
  obtain ⟨g₄, h₄, hp₄⟩ := hp₃.restoreDefaults htexts
  refine ⟨g₄, placeNode_eq_ok.2 ⟨_, g₁, g₂, g₃, hn.kind, h₁, h₂, h₃, h₄⟩, ?_⟩
  have hconsts : .ofList n.consts.entries = n.consts := Table.ofList_of_perm (.refl _)
  have hdefaults := ofList_readDefault? hread
  -- What the steps have made of the fresh node is the stored node.
  have hcore : n.core = Node.mapDefaults (fun t =>
      ((NodeRecord.ofNode n).defaults.entries.filterMap readDefault?).foldl
        (fun t e => t.insert e.1 e.2) t)
      { Node.fresh n.id n.kind with
        position := n.position
        consts := n.consts.entries.foldl (fun t e => t.insert e.1 e.2) .empty } := by
    rw [Table.ofList] at hconsts hdefaults
    simp only [Node.core, Node.bare, Node.mapDefaults, Node.fresh, hconsts, hdefaults]
  rw [hcore]
  exact hp₄

/-- The nodes of a graph are placed in turn. -/
theorem Placed.placeNodes {ns : List (Node Definition)}
    (hnodes : ∀ n ∈ ns, n.id.number ≠ 0 ∧ n.Restorable c owner) {done : List (Node Definition)}
    (hordered : (done ++ ns).Pairwise Precedes) (h : Placed owner (done.map Node.core) g) :
    ∃ g', placeNodes c (ns.map .ofNode) g = .ok g' ∧
      Placed owner ((done ++ ns).map Node.core) g' := by
  induction ns generalizing done g with
  | nil => exact ⟨g, rfl, by rwa [List.append_nil]⟩
  | cons n ns ih =>
    obtain ⟨hpos, hn⟩ := hnodes n (.head _)
    have hlast : ∀ k ∈ done.map Node.core, Precedes k n := by
      intro k hk
      obtain ⟨a, ha, rfl⟩ := List.mem_map.1 hk
      exact (List.pairwise_append.1 hordered).2.2 a ha n (.head _)
    obtain ⟨g₁, h₁, hp₁⟩ := h.placeNode hn hpos hlast
    have hp₁ : Placed owner ((done ++ [n]).map Node.core) g₁ := by
      rw [List.map_append]
      exact hp₁
    have hrest : (done ++ [n] ++ ns).Pairwise Precedes := by
      rwa [List.append_assoc]
    obtain ⟨g₂, h₂, hp₂⟩ := ih (fun k hk => hnodes k (.tail _ hk)) hrest hp₁
    rw [List.append_assoc] at hp₂
    exact ⟨g₂, bind_eq_ok.2 ⟨g₁, h₁, h₂⟩, hp₂⟩

end Snapshot

/-- The nodes of a valid graph stand in order. -/
theorem Graph.Valid.precedes {g : Graph Definition} (h : g.Valid []) :
    g.nodes.Pairwise Snapshot.Precedes := by
  refine List.Pairwise.imp_of_mem (fun {a b} ha hb hlt => ⟨hlt, fun he => ?_⟩) h.ascending
  have hne : a ≠ b := fun he => UInt32.lt_irrefl _ (he ▸ hlt)
  cases hk : b.kind with
  | action d => exact ⟨d, rfl⟩
  | entry => exact absurd (h.loneEntry a ha b hb (he.trans hk) hk) hne
  | result => exact absurd (h.loneResult a ha b hb (he.trans hk) hk) hne

end EffectGraph
