import EffectGraph.Proofs.Acceptance

/-!
# Snapshots of graphs with a hook of their own

A snapshot does not say which conversions a graph was wired under, and a rebuild checks its
connections under the standard ones. So a graph is rebuilt from its snapshot exactly if its value
connections may be made under the standard conversions too (`Reachable.rebuild_ofGraph_iff`), and
then nothing of it is lost. A graph with a connection that only its own hook allows is refused
(`refused_dealt`).
-/

namespace EffectGraph

open EffectGraph.Graph Snapshot

variable {c : Catalog} {g : Graph Definition}

/-- The kind of a stored node of a graph whose nodes can be placed again. -/
theorem Snapshot.kind?_ofGraph (hg : g.Ascending)
    (hkinds : ∀ n ∈ g.nodes, kindOf c (.ofNode n) = .ok n.kind) {m : Node Definition}
    (hm : m ∈ g.nodes) : (ofGraph g).kind? c m.id.number = some m.kind := by
  have hfind : (ofGraph g).nodes.find? (fun r => r.id = m.id.number) = some (.ofNode m) := by
    refine find?_eq_of_unique (List.mem_map_of_mem hm) (by simp [NodeRecord.ofNode]) ?_
    intro r hr hid
    obtain ⟨k, hk, rfl⟩ := List.mem_map.1 hr
    have hnumber : k.id.number = m.id.number := of_decide_eq_true hid
    rw [hg.id_inj hk hm (congrArg NodeId.mk hnumber)]
  rw [Snapshot.kind?, hfind, Option.bind_some, hkinds m hm]
  rfl

/-- If the record of a connection fits, so do the ports that it joins. -/
theorem Graph.Joins.meets (hg : g.Valid []) (ha : g.Addressable)
    (hkinds : ∀ n ∈ g.nodes, kindOf c (.ofNode n) = .ok n.kind) {owner : Option Signature}
    (howner : (∀ m ∈ g.nodes, ∃ d, m.kind = .action d) ∨ owner = g.signature) {e : Connection}
    {s d : PlacedPort} (hj : g.Joins e s d)
    (hfits : (ConnectionRecord.ofEnds e.kind s d).Fits owner ((ofGraph g).kind? c)) :
    s.port.decl.Meets d.port.decl := by
  obtain ⟨m, hm, hid, hp⟩ := exists_of_output hj.source_mem hj.source_output
  obtain ⟨k, hk, hkid, hq⟩ := exists_of_input hj.destination_mem hj.destination_input
  -- The declarations that the record names are those of the ports.
  have hexit : m.kind.exit? owner s.port.decl.name = some s.port.decl := by
    rw [← (hg.shaped m hm List.not_mem_nil).exit?_eq (ha m hm) hp]
    rcases howner with hactions | rfl
    · obtain ⟨a, ha⟩ := hactions m hm
      rw [ha, NodeKind.exit?_action]
    · rfl
  have hentrance : k.kind.entrance? owner d.port.decl.name d.port.slot = some d.port.decl := by
    rw [← (hg.shaped k hk List.not_mem_nil).entrance?_eq (ha k hk) hq
      (hg.slots_inputs hk d.port hq)]
    rcases howner with hactions | rfl
    · obtain ⟨a, ha⟩ := hactions k hk
      rw [ha, NodeKind.entrance?_action]
    · rfl
  obtain ⟨a, b, p, q, hsource, hdest, hexit', hentrance', -, -, hmeets⟩ := hfits
  rw [slotOf_ofEnds _ _ (hg.slots d hj.destination_mem)] at hentrance'
  simp only [ConnectionRecord.ofEnds, hid, hkid, kind?_ofGraph hg.ascending hkinds hm,
    kind?_ofGraph hg.ascending hkinds hk, Option.some.injEq] at hsource hdest hexit' hentrance'
  subst hsource hdest
  rwa [Option.some.inj (hexit.symm.trans hexit'), Option.some.inj (hentrance.symm.trans hentrance')]

/-- A valid graph all of whose nodes can be placed again is rebuilt only if its value connections
may be made under the standard conversions. -/
theorem Snapshot.wiredUnder_of_rebuild (hg : g.Valid []) (ha : g.Addressable)
    {owner : Option Signature} (hnodes : ∀ n ∈ g.nodes, n.Restorable c owner)
    (howner : (∀ m ∈ g.nodes, ∃ d, m.kind = .action d) ∨ owner = g.signature) {id : Nat}
    {r : Graph Definition} (h : (ofGraph g).rebuild c id owner = .ok r) :
    g.WiredUnder .standard := by
  intro e he s d hj hvalue
  have hfits := (acceptable_of_rebuild h).connections _
    (hg.wellFormed.mem_records he ⟨s, d, hj, rfl⟩)
  have hmeets := hj.meets hg ha (fun n hn => (hnodes n hn).kind) howner hfits
  refine hmeets.2 (Bool.eq_false_iff.2 fun hcontrol => ?_)
  exact absurd (hj.source_control.1 hcontrol) (by simp [hvalue])

/-- A valid graph all of whose nodes can be placed again is rebuilt as it was if its value
connections may be made under the standard conversions. -/
theorem Snapshot.rebuild_of_wiredUnder (hg : g.Valid []) (ha : g.Addressable)
    {owner : Option Signature} (hnodes : ∀ n ∈ g.nodes, n.Restorable c owner)
    (howner : (∀ m ∈ g.nodes, ∃ d, m.kind = .action d) ∨ owner = g.signature)
    (hwired : g.WiredUnder .standard) (id : Nat) :
    ∃ r, (ofGraph g).rebuild c id owner = .ok r ∧ ofGraph r = ofGraph g := by
  -- A snapshot does not know of hooks, so that of the graph with the standard one is the same.
  have hsame : ofGraph { g with hook := .standard } = ofGraph g := rfl
  obtain ⟨G, hG, hrestored⟩ := exists_restored (hg.rehook hwired) rfl ha hnodes howner id
  exact ⟨_, hsame ▸ hG, hrestored.ofGraph_eq⟩

/-- A reachable graph, all of whose nodes are of method kinds that the catalog knows, is rebuilt
from its snapshot exactly if its value connections may be made under the standard conversions,
whatever hook it was wired under; and whenever it is rebuilt, the rebuilt graph has the same
snapshot. -/
theorem Reachable.rebuild_ofGraph_iff {K : Definition → Prop} (h : Reachable K g)
    (hkinds : ∀ n ∈ g.nodes, ∃ d, n.kind = .action d ∧ d.Storable c) (id : Nat) :
    ((∃ r, (ofGraph g).rebuild c id none = .ok r) ↔ g.WiredUnder .standard) ∧
      ∀ r, (ofGraph g).rebuild c id none = .ok r → ofGraph r = ofGraph g := by
  have ha := addressable_of_nodes (addressable_of_storable hkinds)
  have hnodes : ∀ n ∈ g.nodes, n.Restorable c none := by
    intro n hn
    obtain ⟨d, hkind, hd⟩ := hkinds n hn
    exact hd.restorable hkind (h.valid.stored n hn) none
  have hactions : ∀ n ∈ g.nodes, ∃ d, n.kind = .action d := fun n hn =>
    (hkinds n hn).imp fun _ hd => hd.1
  have hwired : ∀ r, (ofGraph g).rebuild c id none = .ok r → g.WiredUnder .standard := fun _ hr =>
    wiredUnder_of_rebuild h.valid ha hnodes (.inl hactions) hr
  have hrebuilt := fun hw => rebuild_of_wiredUnder h.valid ha hnodes (.inl hactions) hw id
  refine ⟨⟨fun ⟨r, hr⟩ => hwired r hr, fun hw => ?_⟩, fun r hr => ?_⟩
  · obtain ⟨r, hr, -⟩ := hrebuilt hw
    exact ⟨r, hr⟩
  · obtain ⟨r', hr', hsame⟩ := hrebuilt (hwired r hr)
    rwa [Except.ok.inj (hr.symm.trans hr')]

/-- A hook that turns cards into buffs. -/
def ConversionHook.dealing : ConversionHook where
  convert?
    | .card n, .buff => some (.buff n)
    | _, _ => none
  canConvert
    | .card, .buff => true
    | _, _ => false

/-- A kind that takes a buff and deals a card. -/
def MethodDecl.deal : MethodDecl where
  name := "Deal"
  params := [.out (.value "card" .card), .input (.value "buff" .buff)]
  body := some fun _ => .pure (.ok .empty)

def Definition.deal : Definition where
  signature := MethodDecl.deal.signature
  obsoleteNames := []
  obsoleteMessage := none
  behaviour := .method ⟨MethodDecl.deal.params, none, fun _ => .pure (.ok .empty)⟩

/-- A catalog of the kinds of the examples. -/
def dealingCatalog : Catalog := (Catalog.empty.register .gather).register .deal

theorem storable_dealing : Definition.gather.Storable dealingCatalog ∧
    Definition.deal.Storable dealingCatalog :=
  ⟨⟨⟨.gather, define_eq_ok.2 ⟨_, rfl, checkParams_eq_ok.2 (by decide), rfl⟩⟩, by decide, rfl⟩,
    ⟨⟨.deal, define_eq_ok.2 ⟨_, rfl, checkParams_eq_ok.2 (by decide), rfl⟩⟩, by decide, rfl⟩⟩

/-- A card leads to a group of any values, in a graph with the hook for cards. -/
def dealtOut : Graph Definition :=
  [.addNode (.action .deal), .addNode (.action .gather), .connect ⟨0, 3⟩ ⟨0, 5⟩].foldl
    Edit.perform (.empty 0 .dealing)

/-- The hook has not been needed, and the graph is rebuilt. -/
theorem rebuild_dealtOut : dealtOut.connections = [⟨.value, 3, 5⟩] ∧
    ∃ r, (ofGraph dealtOut).rebuild dealingCatalog 1 none = .ok r ∧
      dealtOut.WiredUnder .standard ∧ ofGraph r = ofGraph dealtOut := by
  have hreachable : Reachable (fun d => d = .gather ∨ d = .deal) dealtOut :=
    .foldl (by simp [Edit.offers, NodeKind.action?, eq_comm]) (.blank 0 .dealing)
  have hactions : (dealtOut.nodes.all fun n => n.kind.action?.isSome) = true := by decide
  have hkinds : ∀ n ∈ dealtOut.nodes, ∃ d, n.kind = .action d ∧ d.Storable dealingCatalog := by
    intro n hn
    have hkind := List.all_eq_true.1 hactions n hn
    cases hk : n.kind with
    | action d =>
      rcases (hreachable.invariant.2 n hn).1 d hk with rfl | rfl
      · exact ⟨_, rfl, storable_dealing.1⟩
      · exact ⟨_, rfl, storable_dealing.2⟩
    | entry => simp [hk, NodeKind.action?] at hkind
    | result => simp [hk, NodeKind.action?] at hkind
  obtain ⟨r, hr⟩ : ∃ r, (ofGraph dealtOut).rebuild dealingCatalog 1 none = .ok r := ⟨_, rfl⟩
  have hrebuilt := hreachable.rebuild_ofGraph_iff hkinds 1
  exact ⟨by decide, r, hr, hrebuilt.1.1 ⟨r, hr⟩, hrebuilt.2 r hr⟩

/-- The card of one node leads to the buff of another, by the hook of the graph. -/
def dealt : Graph Definition :=
  [.addNode (.action .deal), .addNode (.action .deal), .connect ⟨0, 3⟩ ⟨0, 5⟩].foldl
    Edit.perform (.empty 0 .dealing)

/-- The connection that the hook allows is refused by the rebuild. -/
theorem refused_dealt : Reachable (· = .deal) dealt ∧ dealt.connections = [⟨.value, 3, 5⟩] ∧
    ∃ p q, (ofGraph dealt).rebuild dealingCatalog 1 none =
      .error (.cannotConnect p q (.types .card .buff)) :=
  ⟨.foldl (by simp [Edit.offers, NodeKind.action?, eq_comm]) (.blank 0 .dealing), by decide,
    _, _, rfl⟩

end EffectGraph
