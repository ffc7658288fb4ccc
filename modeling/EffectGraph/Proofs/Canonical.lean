import EffectGraph.Bytes.Snapshots
import EffectGraph.Json.Snapshots
import EffectGraph.Proofs.Keys
import EffectGraph.Proofs.Leftovers
import EffectGraph.Proofs.Reordering

/-!
# Snapshots are canonical

A graph keeps its connections in the order of editing, its ports under numbers, and what a node
stores in tables that may be listed in any order. None of this is seen in a snapshot: it follows
from what there is under each id (`Node.profile`) and from the connections by name (`Graph.wires`),
counted with multiplicity (`Reachable.ofGraph_canonical`). However the tables are listed, the
snapshot is the same, as the texts of slot keys differ if no name has an opening bracket
(`Snapshot.Takes.eq_ofGraph`).
-/

namespace EffectGraph

open EffectGraph.Graph Snapshot

/-! ## Connections by name -/

/-- A connection by the names of its ends. -/
structure Wire where
  source : NodeId
  output : String
  destination : NodeId
  /-- The name of the input, and its place in a group. -/
  input : SlotKey
  kind : ConnectionKind
  deriving DecidableEq

/-- The record of a connection by name. -/
def Wire.record (w : Wire) : ConnectionRecord where
  sourceNode := w.source.number
  sourcePort := w.output
  destNode := w.destination.number
  destPort := w.input.name
  destSlot := (w.input.index.elim 0 (· + 1)).toUInt32
  kind := w.kind

section Wires

variable {κ : Type}

/-- The names of the ends of a connection. -/
def Graph.wire? (g : Graph κ) (c : Connection) : Option Wire := do
  let source ← g.portAt? c.source
  let destination ← g.portAt? c.destination
  some ⟨source.node, source.port.decl.name, destination.node, destination.port.key, c.kind⟩

/-- The connections of a graph by name, in the order in which they were made. -/
def Graph.wires (g : Graph κ) : List Wire := g.connections.filterMap g.wire?

theorem ConnectionRecord.ofConnection?_eq (g : Graph κ) (c : Connection) :
    ofConnection? g c = (g.wire? c).map Wire.record := by
  unfold ofConnection? Graph.wire?
  cases g.portAt? c.source with
  | none => rfl
  | some source =>
    cases g.portAt? c.destination with
    | none => rfl
    | some destination => rfl

theorem Graph.records_eq (g : Graph κ) :
    g.connections.filterMap (ConnectionRecord.ofConnection? g) = g.wires.map Wire.record := by
  rw [wires, List.map_filterMap]
  exact List.filterMap_congr fun c _ => ConnectionRecord.ofConnection?_eq g c

end Wires

/-! ## Nodes -/

/-- What a node is apart from its id and its ports. -/
structure NodeProfile where
  kindName : String
  /-- Whether the node is Entry or Return, which a kind may be called as well. -/
  isPseudo : Bool
  position : Position
  consts : Table String Value
  defaults : Table SlotKey Value
  deriving DecidableEq

def Node.profile (n : Node Definition) : NodeProfile where
  kindName := n.kind.name
  isPseudo := n.kind.action?.isNone
  position := n.position
  consts := n.consts
  defaults := n.defaults

theorem StoredKind.ofKind_eq {a b : NodeKind Definition} (hname : a.name = b.name)
    (hpseudo : a.action?.isNone = b.action?.isNone) : ofKind a = ofKind b := by
  cases a <;> cases b <;> simp [NodeKind.action?] at hpseudo
  · exact congrArg StoredKind.action hname
  · rfl
  · exact absurd hname (by decide)
  · exact absurd hname (by decide)
  · rfl

theorem NodeRecord.ofNode_eq {m n : Node Definition} (hid : m.id = n.id)
    (hprofile : m.profile = n.profile) : ofNode m = ofNode n := by
  obtain ⟨hname, hpseudo, hposition, hconsts, hdefaults⟩ := NodeProfile.mk.inj hprofile
  unfold ofNode
  rw [hid, hposition, StoredKind.ofKind_eq hname hpseudo, hconsts, hdefaults]

variable {g h : Graph Definition}

/-- Two graphs have nodes under the same ids, and each of them one profile in both. -/
def Graph.SameNodes (g h : Graph Definition) : Prop :=
  ∀ n, (g.node? n).map Node.profile = (h.node? n).map Node.profile

theorem Graph.SameNodes.symm (hsame : g.SameNodes h) : h.SameNodes g := fun n => (hsame n).symm

/-- Graphs that list the same of their nodes have the same of each node. -/
theorem Graph.map_node?_eq {α : Type} {f : Node Definition → α}
    (he : g.nodes.map (fun m => (m.id, f m)) = h.nodes.map fun m => (m.id, f m)) (n : NodeId) :
    (g.node? n).map f = (h.node? n).map f := by
  have hfind : ∀ k : Graph Definition, (k.node? n).map f =
      ((k.nodes.map fun m => (m.id, f m)).find? fun e => e.1 = n).map (·.2) := by
    intro k
    rw [List.find?_map, Option.map_map]
    rfl
  rw [hfind, hfind, he]

/-- A node has a counterpart, of which the same is stored. -/
theorem Graph.SameNodes.exists_mem (hsame : g.SameNodes h) (hg : g.Ascending) {m : Node Definition}
    (hm : m ∈ g.nodes) : ∃ n ∈ h.nodes, n.id = m.id ∧ n.profile = m.profile := by
  have hfound := hsame m.id
  rw [node?_of_mem hg hm, Option.map_some] at hfound
  obtain ⟨n, hn, hprofile⟩ := Option.map_eq_some_iff.1 hfound.symm
  obtain ⟨hn, hid⟩ := node?_mem hn
  exact ⟨n, hn, hid, hprofile⟩

theorem Graph.Ascending.records (hg : g.Ascending) :
    (g.nodes.map NodeRecord.ofNode).Pairwise fun a b => a.id < b.id :=
  List.pairwise_map.2 hg

/-- Nodes are stored in the order of their ids, so graphs with the same nodes store the same. -/
theorem Graph.SameNodes.records_eq (hsame : g.SameNodes h) (hg : g.Ascending) (hh : h.Ascending) :
    g.nodes.map NodeRecord.ofNode = h.nodes.map NodeRecord.ofNode := by
  have hnodup : ∀ {k : Graph Definition}, k.Ascending → (k.nodes.map NodeRecord.ofNode).Nodup := by
    intro k hk
    refine hk.records.imp fun {a b} hlt he => ?_
    rw [he] at hlt
    exact UInt32.lt_irrefl _ hlt
  have hperm : (g.nodes.map NodeRecord.ofNode).Perm (h.nodes.map NodeRecord.ofNode) := by
    refine (List.perm_ext_iff_of_nodup (hnodup hg) (hnodup hh)).2 fun r => ?_
    simp only [List.mem_map]
    constructor
    · rintro ⟨m, hm, rfl⟩
      obtain ⟨n, hn, hid, hprofile⟩ := hsame.exists_mem hg hm
      exact ⟨n, hn, NodeRecord.ofNode_eq hid hprofile⟩
    · rintro ⟨n, hn, rfl⟩
      obtain ⟨m, hm, hid, hprofile⟩ := hsame.symm.exists_mem hh hn
      exact ⟨m, hm, NodeRecord.ofNode_eq hid hprofile⟩
  exact hperm.eq_of_pairwise (fun a b _ _ hab hba => absurd hab (UInt32.lt_asymm hba)) hg.records
    hh.records

/-! ## Tables in any order -/

/-- A record of a node for which its tables have been listed in some order. -/
structure NodeRecord.Lists (r : NodeRecord) (n : Node Definition) : Prop where
  id : r.id = n.id.number
  position : r.position = n.position
  kind : r.kind = .ofKind n.kind
  consts : ∃ es : List (String × Value), es.Perm n.consts.entries ∧ r.consts = .ofList es
  /-- Of two slots whose keys have one text the later one counts. -/
  defaults : ∃ es : List (SlotKey × Value), es.Perm n.defaults.entries ∧
    r.defaults = .ofList (es.map fun e => (e.1.text, e.2))

/-- A snapshot of a graph for which the tables of its nodes have been listed in some order and the
records of its connections been put in order. -/
structure Snapshot.Takes (s : Snapshot) (g : Graph Definition) : Prop where
  nodes : List.Forall₂ NodeRecord.Lists s.nodes g.nodes
  connections : s.connections.Perm (g.wires.map Wire.record)
  inOrder : InOrder s.connections

theorem Snapshot.takes_ofGraph (g : Graph Definition) : (ofGraph g).Takes g where
  nodes := by
    refine List.forall₂_map_left_iff.2 (List.forall₂_same.2 fun n _ => ?_)
    exact ⟨rfl, rfl, rfl, ⟨_, .refl _, (Table.ofList_of_perm (.refl _)).symm⟩, _, .refl _, rfl⟩
  connections := g.records_eq ▸ perm_sortRecords _
  inOrder := inOrder_sortRecords _

theorem NodeRecord.Lists.eq_ofNode {n : Node Definition} {r : NodeRecord} (hr : r.Lists n)
    (hn : n.Stored) (hnames : ∀ k ∈ n.defaults.keys, '[' ∉ k.name.toList) : r = ofNode n := by
  obtain ⟨id, position, kind, consts, defaults⟩ := r
  obtain ⟨rfl, rfl, rfl, ⟨es, hes, rfl⟩, fs, hfs, rfl⟩ := hr
  have hentries := Snapshot.perm_defaults_ofNode fun k hk =>
    (SlotKey.Legible.of_not_mem (hnames k hk)).ofText?_text fun i hi =>
      Nat.lt_trans (hn.below k hk i hi) (by decide)
  rw [Table.ofList_of_perm hes, Table.ofList_of_perm ((hfs.map _).trans hentries.symm)]
  rfl

theorem NodeRecord.eq_map_ofNode {rs : List NodeRecord} {ns : List (Node Definition)}
    (h : List.Forall₂ Lists rs ns) (hstored : ∀ n ∈ ns, n.Stored)
    (hnames : ∀ n ∈ ns, ∀ k ∈ n.defaults.keys, '[' ∉ k.name.toList) : rs = ns.map ofNode := by
  induction h with
  | nil => rfl
  | cons hr _ ih =>
    rw [List.map_cons, ← hr.eq_ofNode (hstored _ (.head _)) (hnames _ (.head _)),
      ← ih (fun n hn => hstored n (.tail _ hn)) fun n hn => hnames n (.tail _ hn)]

/-- However the tables are listed, there is one snapshot of a graph. -/
theorem Snapshot.Takes.eq_ofGraph {s : Snapshot} (hs : s.Takes g) (hg : g.Valid [])
    (hnames : ∀ n ∈ g.nodes, ∀ k ∈ n.defaults.keys, '[' ∉ k.name.toList) : s = ofGraph g := by
  have hconnections : s.connections = sortRecords (g.wires.map Wire.record) :=
    hs.inOrder.sortRecords.symm.trans (sortRecords_eq_of_perm hs.connections)
  rw [← g.records_eq] at hconnections
  exact congrArg₂ Snapshot.mk (NodeRecord.eq_map_ofNode hs.nodes hg.stored hnames) hconnections

/-- The inner graph of a definition whose signature once declared a group and an output that is
called like the first slot of the group. Return keeps the defaults of both. -/
def outlived : Graph Definition :=
  [.setSignature ⟨"Owner", [], [], [.value "a[0]" .int, .variadic "a" .int]⟩,
    .setDefault ⟨2⟩ ⟨"a[0]", none⟩ (.int 1), .setDefault ⟨2⟩ ⟨"a", some 0⟩ (.int 2),
    .setSignature ⟨"Owner", [], [], []⟩].foldl Edit.perform (.empty 0 .standard)

/-- The two slot keys have one text, so it depends on the listing of the table which default is
stored, although the names of the ports that are left have no bracket. -/
theorem takes_outlived : Reachable (fun _ => True) outlived ∧
    (∀ n ∈ outlived.nodes, ∀ p ∈ n.ports, '[' ∉ p.decl.name.toList) ∧
    ∃ s t : Snapshot, s.Takes outlived ∧ t.Takes outlived ∧ s ≠ t := by
  -- The second snapshot comes from listing the defaults backwards.
  refine ⟨.foldl (fun _ _ _ _ => trivial) (.blank 0 .standard), by decide, ofGraph outlived,
    ⟨outlived.nodes.map fun n =>
      { NodeRecord.ofNode n with
        defaults := .ofList (n.defaults.entries.reverse.map fun e => (e.1.text, e.2)) },
      (ofGraph outlived).connections⟩, takes_ofGraph _, ?_, by decide +kernel⟩
  obtain ⟨-, hconnections, hinOrder⟩ := takes_ofGraph outlived
  refine ⟨List.forall₂_map_left_iff.2 (List.forall₂_same.2 fun n _ => ?_), hconnections, hinOrder⟩
  exact ⟨rfl, rfl, rfl, ⟨_, .refl _, (Table.ofList_of_perm (.refl _)).symm⟩, _,
    List.reverse_perm _, rfl⟩

/-! ## One snapshot -/

/-- The snapshot of a graph depends on its nodes and on its connections by name. -/
theorem Graph.SameNodes.ofGraph_eq (hsame : g.SameNodes h) (hg : g.Ascending) (hh : h.Ascending)
    (hwires : g.wires.Perm h.wires) : ofGraph g = ofGraph h := by
  refine congrArg₂ Snapshot.mk (hsame.records_eq hg hh) ?_
  rw [g.records_eq, h.records_eq]
  exact sortRecords_eq_of_perm (hwires.map _)

/-- Every declared input of an action node has a port. -/
theorem Graph.Shaped.exists_port {n : Node Definition} (hn : g.Shaped n) {d : Definition}
    (hkind : n.kind = .action d) {c : PortDecl} (hc : c ∈ d.signature.inputs) :
    ∃ p ∈ n.inputs, p.decl = c := by
  obtain ⟨w, hw, hbounds, -⟩ := hn.inputs
  obtain ⟨s, hs⟩ : ∃ s, s ∈ slotSpecs w c := by
    unfold slotSpecs
    split
    · exact ⟨_, List.mem_map_of_mem (List.mem_range.2 (hbounds c.name).1)⟩
    · exact ⟨_, .head _⟩
  have hmem : s ∈ n.inputs.map Port.spec := by
    rw [hw, inputShape, hkind]
    exact .tail _ (List.mem_flatMap.2 ⟨c, hc, hs⟩)
  obtain ⟨p, hp, rfl⟩ := List.mem_map.1 hmem
  exact ⟨p, hp, (mem_slotSpecs hs).1⟩

/-- The name of a slot that has a default is that of a port, except on Return. -/
theorem Reachable.names_of_defaults {K : Definition → Prop} (hg : Reachable K g)
    (hports : ∀ n ∈ g.nodes, ∀ p ∈ n.ports, '[' ∉ p.decl.name.toList)
    (hresult : ∀ n ∈ g.nodes, n.kind = .result → ∀ k ∈ n.defaults.keys, '[' ∉ k.name.toList)
    (n : Node Definition) (hn : n ∈ g.nodes) (k : SlotKey) (hk : k ∈ n.defaults.keys) :
    '[' ∉ k.name.toList := by
  rcases (hg.within n hn).defaults k hk with ⟨d, hkind⟩ | ⟨hkind, -⟩
  · obtain ⟨c, hc, -⟩ :=
      (Option.any_eq_true _ _).1 ((hg.valid.stored n hn).defaults d hkind k hk)
    obtain ⟨p, hp, rfl⟩ := (hg.valid.shaped n hn List.not_mem_nil).exists_port hkind
      (List.mem_of_find?_eq_some hc)
    have hname : p.decl.name = k.name := of_decide_eq_true (List.find?_some hc :)
    exact hname ▸ hports n hn p (List.mem_append_left _ hp)
  · exact hresult n hn hkind k hk

/-- Two graphs that have been edited in whatever ways have one snapshot, and so one JSON text and
the same bytes or neither, if their nodes are the same but for the ports and their connections are
the same by name, each as often. The order in which tables are listed leaves no trace either, if
there is no opening bracket in the name of a port or in the name of a default that Return may have
kept without a port. -/
theorem Reachable.ofGraph_canonical {K K' : Definition → Prop} (hg : Reachable K g)
    (hh : Reachable K' h) (hsame : g.SameNodes h) (hwires : g.wires.Perm h.wires) :
    ofGraph g = ofGraph h ∧ (ofGraph g).jsonText = (ofGraph h).jsonText ∧
      (ofGraph g).encode = (ofGraph h).encode ∧
      ((∀ n ∈ g.nodes, ∀ p ∈ n.ports, '[' ∉ p.decl.name.toList) →
        (∀ n ∈ g.nodes, n.kind = .result → ∀ k ∈ n.defaults.keys, '[' ∉ k.name.toList) →
        ∀ s t : Snapshot, s.Takes g → t.Takes h →
          s = t ∧ s.jsonText = t.jsonText ∧ s.encode = t.encode) := by
  have heq := hsame.ofGraph_eq hg.valid.ascending hh.valid.ascending hwires
  refine ⟨heq, congrArg _ heq, congrArg _ heq, fun hports hresult s t hs ht => ?_⟩
  have hnames := hg.names_of_defaults hports hresult
  have hnames' : ∀ n ∈ h.nodes, ∀ k ∈ n.defaults.keys, '[' ∉ k.name.toList := by
    intro n hn k hk
    obtain ⟨m, hm, -, hprofile⟩ := hsame.symm.exists_mem hh.valid.ascending hn
    have hdefaults : m.defaults = n.defaults := congrArg (·.defaults) hprofile
    exact hnames m hm k (hdefaults ▸ hk)
  have hst : s = t :=
    (hs.eq_ofGraph hg.valid hnames).trans (heq.trans (ht.eq_ofGraph hh.valid hnames').symm)
  exact ⟨hst, congrArg _ hst, congrArg _ hst⟩

/-- A value and control go from one node to another. -/
def straight : Graph Definition :=
  [.addNode (.action .gather), .addNode (.action .gather), .connect ⟨0, 3⟩ ⟨0, 5⟩,
    .connect ⟨0, 2⟩ ⟨0, 4⟩, .setDefault ⟨2⟩ ⟨"items", some 1⟩ (.int 7)].foldl
    Edit.perform (.empty 0 .standard)

/-- The same, after a third node has been connected and removed. -/
def winding : Graph Definition :=
  [.addNode (.action .gather), .addNode (.action .gather), .addNode (.action .gather),
    .connect ⟨5, 11⟩ ⟨5, 5⟩, .connect ⟨5, 2⟩ ⟨5, 4⟩, .setDefault ⟨2⟩ ⟨"items", some 1⟩ .null,
    .removeNode ⟨3⟩, .setDefault ⟨2⟩ ⟨"items", some 1⟩ (.int 7), .connect ⟨5, 3⟩ ⟨5, 5⟩].foldl
    Edit.perform (.empty 5 .standard)

/-- The connections have been made in another order and the ports have other numbers, but the
snapshot is the same. -/
theorem ofGraph_canonical_winding : straight.wires ≠ winding.wires ∧
    straight.allPorts.map (·.port.index) ≠ winding.allPorts.map (·.port.index) ∧
    ofGraph straight = ofGraph winding ∧
    ∀ s t : Snapshot, s.Takes straight → t.Takes winding → s = t := by
  have hkinds : ∀ es : List (Edit Definition), (∀ e ∈ es, ∀ k, e.offers = some k → k = .gather) →
      ∀ id, Reachable (· = .gather) (es.foldl Edit.perform (.empty id .standard)) :=
    fun es hes id => .foldl hes (.blank id .standard)
  have hstraight : Reachable (· = .gather) straight :=
    hkinds _ (by simp [Edit.offers, NodeKind.action?, eq_comm]) 0
  have hwinding : Reachable (· = .gather) winding :=
    hkinds _ (by simp [Edit.offers, NodeKind.action?, eq_comm]) 5
  have hsame : straight.SameNodes winding := map_node?_eq (by decide +kernel)
  have hwires : straight.wires.Perm winding.wires := by decide +kernel
  have hports : ∀ n ∈ straight.nodes, ∀ p ∈ n.ports, '[' ∉ p.decl.name.toList := by decide +kernel
  have hresult : ∀ n ∈ straight.nodes, n.kind.action?.isSome = true := by decide +kernel
  obtain ⟨hsnapshot, -, -, htakes⟩ := hstraight.ofGraph_canonical hwinding hsame hwires
  refine ⟨by decide +kernel, by decide +kernel, hsnapshot, fun s t hs ht =>
    (htakes hports (fun n hn hkind => ?_) s t hs ht).1⟩
  exact absurd (hresult n hn) (by simp [hkind, NodeKind.action?])

/-- The kind of a method without parameters. -/
def Definition.namesake (name : String) : Definition where
  signature := ⟨name, [], [], []⟩
  obsoleteNames := []
  obsoleteMessage := none
  behaviour := .method ⟨[], none, fun _ => .pure (.ok .empty)⟩

theorem built_namesake (name : String) : (Definition.namesake name).Built :=
  .method (m := { name := name, body := some fun _ => .pure (.ok .empty) })
    (define_eq_ok.2 ⟨_, rfl, checkParams_eq_ok.2 (by simp), rfl⟩)

/-- Entry and Return, joined as they are made. -/
def pseudoPair : Graph Definition :=
  (Edit.setSignature ⟨"Owner", [], [], []⟩).perform (.empty 0 .standard)

/-- Two nodes of kinds that are called like Entry and Return, joined in the same way. -/
def namesakePair : Graph Definition :=
  [.addNode (.action (.namesake "Entry")), .addNode (.action (.namesake "Return")),
    .connect ⟨0, 1⟩ ⟨0, 2⟩].foldl Edit.perform (.empty 0 .standard)

/-- The names of the kinds do not tell pseudo-nodes from nodes of kinds that are called like them,
while the snapshot does. -/
theorem ofGraph_differs_namesakePair :
    Reachable Definition.Built pseudoPair ∧ Reachable Definition.Built namesakePair ∧
    (∀ n, (pseudoPair.node? n).map (fun m => { m.profile with isPseudo := false }) =
      (namesakePair.node? n).map fun m => { m.profile with isPseudo := false }) ∧
    pseudoPair.wires.Perm namesakePair.wires ∧
    (∀ g ∈ [pseudoPair, namesakePair], ∀ n ∈ g.nodes, ∀ p ∈ n.ports, '[' ∉ p.decl.name.toList) ∧
    ofGraph pseudoPair ≠ ofGraph namesakePair := by
  have hpseudo : Reachable Definition.Built pseudoPair :=
    .edited _ (by simp [Edit.offers]) (.blank 0 .standard)
  have hnamesake : Reachable Definition.Built namesakePair := by
    refine .foldl (fun e he k hk => ?_) (.blank 0 .standard)
    simp only [List.mem_cons, List.not_mem_nil, or_false] at he
    rcases he with rfl | rfl | rfl
    · obtain rfl := Option.some.inj hk
      exact built_namesake "Entry"
    · obtain rfl := Option.some.inj hk
      exact built_namesake "Return"
    · simp [Edit.offers] at hk
  exact ⟨hpseudo, hnamesake, map_node?_eq (by decide +kernel), by decide +kernel,
    by decide +kernel, by decide +kernel⟩

end EffectGraph
