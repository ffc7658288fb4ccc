import EffectGraph.Proofs.Leftovers
import EffectGraph.Proofs.Rewiring

/-!
# Defaults under the texts of their slots

A snapshot stores the defaults of a node under the texts of their slot keys. Nothing keeps a kind
from having brackets in the names of its inputs, and then a text may be read as another key, or as
none. A rebuild gives every node its defaults back exactly if all of their keys are legible
(`Reachable.keepsDefaults_iff`). Otherwise it fails, or it puts a default under another slot
(`moved_misreadShelf`).
-/

namespace EffectGraph

open EffectGraph.Graph Snapshot

/-- The slot keys of all defaults are legible. -/
def Graph.Legible (g : Graph Definition) : Prop := ∀ n ∈ g.nodes, ∀ k ∈ n.defaults.keys, k.Legible

instance (g : Graph Definition) : Decidable g.Legible :=
  inferInstanceAs (Decidable (∀ n ∈ g.nodes, ∀ k ∈ n.defaults.keys, k.Legible))

/-- Each node of a graph is in another one as well, and has its defaults there. -/
def Graph.KeepsDefaults (g g' : Graph Definition) : Prop :=
  ∀ n ∈ g.nodes, (g'.node? n.id).map (·.defaults) = some n.defaults

/-- What a rebuild asks of a graph, apart from the texts of slot keys: the catalog knows the kinds
of its nodes, which tell their ports apart; the defaults are for slots that are there; and the
connections may be made under the standard conversions. -/
structure Graph.KnownTo (c : Catalog) (g : Graph Definition) : Prop where
  kinds : ∀ n ∈ g.nodes, kindOf c (.ofNode n) = .ok n.kind
  addressable : g.Addressable
  defaults : ∀ n ∈ g.nodes, g.AcceptsDefaults n
  wired : g.WiredUnder .standard

/-- The slot key of a default that is read is legible. -/
theorem Snapshot.legible_of_readDefault? {x : String × Value} {e : SlotKey × Value}
    (h : readDefault? x = some e) : e.1.Legible := by
  obtain ⟨k, hk, rfl⟩ := Option.map_eq_some_iff.1 h
  exact (SlotKey.legible_of_ofText? hk).1

namespace NodeRecord

/-- The defaults that a stored node is rebuilt with. -/
def readDefaults (r : NodeRecord) : Table SlotKey Value :=
  .ofList (r.defaults.entries.filterMap readDefault?)

theorem legible_of_mem_readDefaults {r : NodeRecord} {k : SlotKey} (hk : k ∈ r.readDefaults.keys) :
    k.Legible := by
  obtain ⟨e, he, rfl⟩ := (Table.mem_keys_foldl_insert.1 hk).resolve_left Table.not_mem_keys_empty
  obtain ⟨x, -, hx⟩ := List.mem_filterMap.1 he
  exact legible_of_readDefault? hx

end NodeRecord

namespace Snapshot

variable {c : Catalog} {id : Nat} {owner : Option Signature} {s : Snapshot}
variable {g g' : Graph Definition} {n : Node Definition}

/-- The nodes of a rebuilt graph have the ids that are stored and the defaults that are read. -/
theorem perm_defaults_rebuild (h : s.rebuild c id owner = .ok g') :
    (g'.nodes.map fun m => (m.id, m.defaults)).Perm
      (s.nodes.map fun r => (⟨r.id⟩, r.readDefaults)) := by
  obtain ⟨ns, hns, hcores⟩ := rebuild_places h
  have hread : (s.nodes.map fun r => ((⟨r.id⟩ : NodeId), r.readDefaults)) =
      ns.map fun m => (m.id, m.defaults) := by
    rw [← List.forall₂_eq_eq_eq, List.forall₂_map_left_iff, List.forall₂_map_right_iff]
    refine hns.imp fun r m hm => ?_
    obtain ⟨kind, -, -, rfl⟩ := hm
    rfl
  have hlisted := hcores.map fun m => (m.id, m.defaults)
  rw [List.map_map] at hlisted
  exact hread ▸ hlisted

/-- A node is rebuilt with the defaults that are read from what is stored of it. -/
theorem defaults_rebuild (h : (ofGraph g).rebuild c id owner = .ok g') (hn : n ∈ g.nodes) :
    (g'.node? n.id).map (·.defaults) = some (NodeRecord.ofNode n).readDefaults := by
  have hmem : (n.id, (NodeRecord.ofNode n).readDefaults) ∈
      (ofGraph g).nodes.map fun r => ((⟨r.id⟩ : NodeId), r.readDefaults) := by
    simp only [ofGraph, List.map_map]
    exact List.mem_map.2 ⟨n, hn, rfl⟩
  obtain ⟨m, hm, he⟩ := List.mem_map.1 ((perm_defaults_rebuild h).symm.subset hmem)
  obtain ⟨hid, hdefaults⟩ := Prod.mk.inj he
  have hasc := (staged_rebuild h).valid.ascending
  rw [← hid, node?_of_mem hasc hm, Option.map_some, hdefaults]

end Snapshot

section Stored

variable {n : Node Definition}

/-- The slot keys of a node are read back from their texts exactly if they are legible. -/
theorem Node.Stored.ofText?_text_iff (hn : n.Stored) :
    (∀ k ∈ n.defaults.keys, SlotKey.ofText? k.text = some k) ↔
      ∀ k ∈ n.defaults.keys, k.Legible :=
  forall₂_congr fun k hk => SlotKey.ofText?_text_iff fun i hi =>
    Nat.lt_trans (hn.below k hk i hi) (by decide)

/-- What is read from the stored form of a node is what it had stored exactly if its slot keys are
legible. -/
theorem Node.Stored.readDefaults_eq_iff (hn : n.Stored) :
    (NodeRecord.ofNode n).readDefaults = n.defaults ↔ ∀ k ∈ n.defaults.keys, k.Legible := by
  constructor
  · intro h k hk
    exact NodeRecord.legible_of_mem_readDefaults (h ▸ hk)
  · exact fun h => ofList_readDefault? (hn.ofText?_text_iff.2 h)

/-- The stored defaults of a node stand for its defaults one by one exactly if its slot keys are
legible. -/
theorem Node.Stored.perm_readDefault?_iff (hn : n.Stored) :
    ((NodeRecord.ofNode n).defaults.entries.map readDefault?).Perm (n.defaults.entries.map some) ↔
      ∀ k ∈ n.defaults.keys, k.Legible := by
  constructor
  · intro h k hk
    obtain ⟨e, he, rfl⟩ := List.mem_map.1 hk
    obtain ⟨x, -, hx⟩ := List.mem_map.1 (h.symm.subset (List.mem_map_of_mem he))
    exact legible_of_readDefault? hx
  · exact fun h => perm_readDefault? (hn.ofText?_text_iff.2 h)

end Stored

variable {K : Definition → Prop} {g : Graph Definition}

/-- A catalog knows a reachable graph with the standard hook if it knows the kinds of its nodes and
these are those of methods. -/
theorem Reachable.knownTo (h : Reachable K g) (hhook : g.hook = .standard) {c : Catalog}
    (hkinds : ∀ n ∈ g.nodes, ∃ d, n.kind = .action d ∧ (∃ m, MethodDecl.define m = .ok d) ∧
      c.get? d.name = some d) : g.KnownTo c where
  kinds n hn :=
    let ⟨_, hkind, _, hget⟩ := hkinds n hn
    kindOf_ofNode hkind hget
  addressable := addressable_of_nodes fun n hn =>
    let ⟨d, hkind, ⟨_, hm⟩, _⟩ := hkinds n hn
    ⟨d, hkind, define_addressable hm⟩
  defaults n hn := (h.valid.acceptsDefaults_iff (h.within n hn) hn).2 fun hresult => by
    obtain ⟨d, hkind, -⟩ := hkinds n hn
    simp [hkind] at hresult
  wired _ _ _ _ hj hvalue := hhook ▸ hj.feeds hvalue

/-- A slot key is read back from its text exactly if it is legible. So the stored defaults of a node
stand for its defaults one by one exactly if all their keys are legible, and then their texts
differ; and a graph that is rebuilt from a snapshot has the defaults of the original under the same
slots exactly if all their keys are legible. This includes that the graph is rebuilt at all, where
the catalog knows it. -/
theorem Reachable.keepsDefaults_iff (h : Reachable K g) :
    (∀ k : SlotKey, (∀ i, k.index = some i → i < SlotKey.indexBound) →
      (SlotKey.ofText? k.text = some k ↔ k.Legible)) ∧
    (∀ n ∈ g.nodes,
      (((NodeRecord.ofNode n).defaults.entries.map readDefault?).Perm
          (n.defaults.entries.map some) ↔
        ∀ k ∈ n.defaults.keys, k.Legible) ∧
      ((∀ k ∈ n.defaults.keys, k.Legible) → (n.defaults.keys.map SlotKey.text).Nodup)) ∧
    (∀ c id owner g', (ofGraph g).rebuild c id owner = .ok g' → (g.KeepsDefaults g' ↔ g.Legible)) ∧
    ∀ c id, g.KnownTo c →
      ((∃ g', (ofGraph g).rebuild c id g.signature = .ok g' ∧ g.KeepsDefaults g') ↔ g.Legible) := by
  have hstored := h.valid.stored
  have hkeeps : ∀ c id owner g', (ofGraph g).rebuild c id owner = .ok g' →
      (g.KeepsDefaults g' ↔ g.Legible) := by
    intro c id owner g' hg'
    refine forall₂_congr fun n hn => ?_
    rw [defaults_rebuild hg' hn, Option.some.injEq]
    exact (hstored n hn).readDefaults_eq_iff
  refine ⟨fun k hk => SlotKey.ofText?_text_iff hk, fun n hn => ?_, hkeeps, fun c id hc => ?_⟩
  · exact ⟨(hstored n hn).perm_readDefault?_iff,
      fun hlegible => nodup_texts ((hstored n hn).ofText?_text_iff.2 hlegible)⟩
  · refine ⟨fun ⟨g', hg', hkept⟩ => (hkeeps c id _ g' hg').1 hkept, fun hlegible => ?_⟩
    have hnodes : ∀ n ∈ g.nodes, n.Restorable c g.signature := fun n hn =>
      h.restorable hn (hc.defaults n hn) (hc.kinds n hn) (hlegible n hn)
    obtain ⟨g', hg', -⟩ :=
      rebuild_of_wiredUnder h.valid hc.addressable hnodes (.inr rfl) hc.wired id
    exact ⟨g', hg', (hkeeps c id _ g' hg').2 hlegible⟩

/-- A kind with brackets in the names of two of its inputs. One of them is called like the first
slot of the group. -/
def MethodDecl.shelve : MethodDecl where
  name := "Shelve"
  params := [.input (.value "book[0]" .int), .input (.value "[note" .int),
    .input (.variadic "book" .int)]
  body := some fun _ => .pure (.ok .empty)

def Definition.shelve : Definition where
  signature := MethodDecl.shelve.signature
  obsoleteNames := []
  obsoleteMessage := none
  behaviour := .method ⟨MethodDecl.shelve.params, none, fun _ => .pure (.ok .empty)⟩

def shelfCatalog : Catalog := Catalog.empty.register .shelve

/-- A node with a default under each of the given slot keys. -/
def shelfWith (ks : List SlotKey) : Graph Definition :=
  (.addNode (.action .shelve) :: ks.map fun k => .setDefault ⟨1⟩ k (.int 7)).foldl Edit.perform
    (.empty 0 .standard)

theorem reachable_shelfWith (ks : List SlotKey) : Reachable (· = .shelve) (shelfWith ks) := by
  refine .foldl (fun e he k hk => ?_) (.blank 0 .standard)
  rcases List.mem_cons.1 he with rfl | he
  · exact (Option.some.inj hk).symm
  · obtain ⟨j, -, rfl⟩ := List.mem_map.1 he
    exact nomatch hk

/-- The inputs that have defaults can be told apart by their texts. -/
def tidyShelf : Graph Definition := shelfWith [⟨"[note", none⟩, ⟨"book", some 0⟩]

/-- The input that has a default is called like a slot. -/
def misreadShelf : Graph Definition := shelfWith [⟨"book[0]", none⟩]

/-- An opening bracket does no harm in the name of a single input that does not end in a closing
one, nor do the brackets of an input without a default. -/
theorem keepsDefaults_tidyShelf :
    tidyShelf.nodes.map (·.defaults.entries) =
      [[(⟨"[note", none⟩, .int 7), (⟨"book", some 0⟩, .int 7)]] ∧
    ∃ g, (ofGraph tidyShelf).rebuild shelfCatalog 1 none = .ok g ∧ tidyShelf.KeepsDefaults g := by
  have hreachable : Reachable (· = .shelve) tidyShelf := reachable_shelfWith _
  have hdefine : MethodDecl.shelve.define = .ok .shelve :=
    define_eq_ok.2 ⟨_, rfl, checkParams_eq_ok.2 (by decide), rfl⟩
  have hknown : tidyShelf.KnownTo shelfCatalog := by
    refine hreachable.knownTo rfl fun n hn => ?_
    obtain ⟨d, hd⟩ := hreachable.exists_action rfl hn
    obtain rfl := (hreachable.invariant.2 n hn).1 d hd
    exact ⟨_, hd, ⟨_, hdefine⟩, rfl⟩
  exact ⟨by decide +kernel,
    (hreachable.keepsDefaults_iff.2.2.2 shelfCatalog 1 hknown).2 (by decide +kernel)⟩

/-- The text of the input is read as the key of the slot that it is called like, and the rebuild
puts the default there. -/
theorem moved_misreadShelf :
    SlotKey.ofText? (SlotKey.text ⟨"book[0]", none⟩) = some ⟨"book", some 0⟩ ∧
    misreadShelf.nodes.map (·.defaults.entries) = [[(⟨"book[0]", none⟩, .int 7)]] ∧
    ∃ g, (ofGraph misreadShelf).rebuild shelfCatalog 1 none = .ok g ∧
      g.nodes.map (·.defaults.entries) = [[(⟨"book", some 0⟩, .int 7)]] :=
  ⟨by decide +kernel, by decide +kernel, _, rfl, by decide +kernel⟩

end EffectGraph
