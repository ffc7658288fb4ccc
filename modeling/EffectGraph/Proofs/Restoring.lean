import EffectGraph.Proofs.Kinds
import EffectGraph.Snapshot.Basic

/-!
# Rebuilding keeps the invariant

A graph is rebuilt from a snapshot by edits only: nodes are added, stored values set, slots held
open, connections made, and the slots released. What each of these edits keeps, the rebuild keeps
(`placeNodes_induct` and its companions), and so every graph that is rebuilt is valid.
-/

namespace EffectGraph

open EffectGraph.Graph

namespace Snapshot

variable {c : Catalog} {P : Graph Definition → Prop} {g g' : Graph Definition}

/-! ## Steps of a rebuild -/

theorem restoreConsts_induct {n : NodeId}
    (step : ∀ g g' name v, P g → g.setConst n name v = .ok g' → P g') {es : List (String × Value)}
    (h : restoreConsts n es g = .ok g') (hg : P g) : P g' := by
  induction es generalizing g with
  | nil =>
    obtain rfl := Except.ok.inj h
    exact hg
  | cons e es ih =>
    obtain ⟨g₁, h₁, h₂⟩ := bind_eq_ok.1 h
    exact ih h₂ (step g g₁ e.1 e.2 hg h₁)

theorem restoreDefaults_induct {n : NodeId}
    (step : ∀ g g' k v, P g → g.setDefault n k v = .ok g' → P g') {es : List (String × Value)}
    (h : restoreDefaults n es g = .ok g') (hg : P g) : P g' := by
  induction es generalizing g with
  | nil =>
    obtain rfl := Except.ok.inj h
    exact hg
  | cons e es ih =>
    rw [restoreDefaults] at h
    split at h
    · simp at h
    next k _ =>
      obtain ⟨g₁, h₁, h₂⟩ := bind_eq_ok.1 h
      exact ih h₂ (step g g₁ k e.2 hg h₁)

theorem placeNode_eq_ok {r : NodeRecord} :
    placeNode c g r = .ok g' ↔ ∃ kind g₁ g₂ g₃, kindOf c r = .ok kind ∧
      g.addNodeAt ⟨r.id⟩ kind = .ok g₁ ∧ g₁.setPosition ⟨r.id⟩ r.position = .ok g₂ ∧
      restoreConsts ⟨r.id⟩ r.consts.entries g₂ = .ok g₃ ∧
      restoreDefaults ⟨r.id⟩ r.defaults.entries g₃ = .ok g' := by
  simp only [placeNode, bind_eq_ok]
  constructor
  · rintro ⟨kind, hk, g₁, h₁, g₂, h₂, g₃, h₃, h⟩
    exact ⟨kind, g₁, g₂, g₃, hk, h₁, h₂, h₃, h⟩
  · rintro ⟨kind, g₁, g₂, g₃, hk, h₁, h₂, h₃, h⟩
    exact ⟨kind, hk, g₁, h₁, g₂, h₂, g₃, h₃, h⟩

theorem placeNodes_induct (step : ∀ g g' r, P g → placeNode c g r = .ok g' → P g')
    {rs : List NodeRecord} (h : placeNodes c rs g = .ok g') (hg : P g) : P g' := by
  induction rs generalizing g with
  | nil =>
    obtain rfl := Except.ok.inj h
    exact hg
  | cons r rs ih =>
    obtain ⟨g₁, h₁, h₂⟩ := bind_eq_ok.1 h
    exact ih h₂ (step g g₁ r hg h₁)

theorem holdSlots_induct
    (step : ∀ g g' n group i, P g → g.hold n group i = .ok g' → P g')
    {rs : List ConnectionRecord} (h : holdSlots rs g = .ok g') (hg : P g) : P g' := by
  induction rs generalizing g with
  | nil =>
    obtain rfl := Except.ok.inj h
    exact hg
  | cons r rs ih =>
    rw [holdSlots] at h
    split at h
    · exact ih h hg
    next i _ =>
      obtain ⟨g₁, h₁, h₂⟩ := bind_eq_ok.1 h
      exact ih h₂ (step g g₁ _ _ i hg h₁)

theorem restoreConnection_eq_ok {r : ConnectionRecord} :
    restoreConnection g r = .ok g' ↔ ∃ a b q, g.output? ⟨r.sourceNode⟩ r.sourcePort = some a ∧
      g.input? ⟨r.destNode⟩ r.destPort (slotOf r) = some b ∧ g.port? a = some q ∧
      (if q.port.decl.isControl then ConnectionKind.control else .value) = r.kind ∧
      g.connect a b = .ok g' := by
  simp only [restoreConnection, bind_eq_ok, getOutput_eq_ok, getInput_eq_ok, getPort_eq_ok]
  constructor
  · rintro ⟨a, ha, b, hb, q, hq, h⟩
    by_cases hk : (if q.port.decl.isControl then ConnectionKind.control else .value) = r.kind
    · rw [if_neg (not_not.2 hk)] at h
      exact ⟨a, b, q, ha, hb, hq, hk, h⟩
    · rw [if_pos hk] at h
      exact absurd h (by simp)
  · rintro ⟨a, b, q, ha, hb, hq, hk, h⟩
    exact ⟨a, ha, b, hb, q, hq, (if_neg (not_not.2 hk)).trans h⟩

theorem restoreConnections_induct
    (step : ∀ g g' a b, P g → g.connect a b = .ok g' → P g')
    {rs : List ConnectionRecord} (h : restoreConnections rs g = .ok g') (hg : P g) : P g' := by
  induction rs generalizing g with
  | nil =>
    obtain rfl := Except.ok.inj h
    exact hg
  | cons r rs ih =>
    obtain ⟨g₁, h₁, h₂⟩ := bind_eq_ok.1 h
    obtain ⟨a, b, -, -, -, -, -, hc⟩ := restoreConnection_eq_ok.1 h₁
    exact ih h₂ (step g g₁ a b hg hc)

theorem rebuild_eq_ok {id : Nat} {s : Option Signature} {snapshot : Snapshot} :
    snapshot.rebuild c id s = .ok g' ↔ ∃ g₁ g₂ g₃,
      placeNodes c snapshot.nodes (canvas id s) = .ok g₁ ∧
      holdSlots snapshot.connections g₁ = .ok g₂ ∧
      restoreConnections snapshot.connections g₂ = .ok g₃ ∧ g₃.release = g' := by
  simp only [rebuild, bind_eq_ok, Except.ok.injEq]
  constructor
  · rintro ⟨g₁, h₁, g₂, h₂, g₃, h₃, h⟩
    exact ⟨g₁, g₂, g₃, h₁, h₂, h₃, h⟩
  · rintro ⟨g₁, g₂, g₃, h₁, h₂, h₃, h⟩
    exact ⟨g₁, h₁, g₂, h₂, g₃, h₃, h⟩

/-! ## Validity -/

/-- The kind of a stored action node is a definition of the catalog. -/
theorem kindOf_eq_action {r : NodeRecord} {d : Definition} (h : kindOf c r = .ok (.action d)) :
    ∃ name, c.get? name = some d := by
  unfold kindOf at h
  split at h
  · simp at h
  · simp at h
  next name _ =>
    split at h
    next d' hd => exact ⟨name, by simp_all⟩
    next => simp at h

/-- What holds while a graph is rebuilt: it is valid and its nodes are of given kinds. -/
structure Underway (K : Definition → Prop) (g : Graph Definition) : Prop where
  valid : g.Valid []
  kinds : g.Every fun kind _ => ∀ k, kind = .action k → K k

variable {K : Definition → Prop}

theorem Underway.canvas (id : Nat) (s : Option Signature) : Underway K (canvas id s) :=
  ⟨valid_empty id .standard s, by simp [Every, Snapshot.canvas, Graph.empty]⟩

theorem Underway.placeNode (hc : ∀ name d, c.get? name = some d → K d) (hg : Underway K g)
    {r : NodeRecord} (h : placeNode c g r = .ok g') : Underway K g' := by
  obtain ⟨kind, g₁, g₂, g₃, hkind, h₁, h₂, h₃, h₄⟩ := placeNode_eq_ok.1 h
  have hK : ∀ k, kind = .action k → K k := by
    rintro k rfl
    obtain ⟨name, hname⟩ := kindOf_eq_action hkind
    exact hc name k hname
  have hg₁ : Underway K g₁ := ⟨hg.valid.addNodeAt h₁, hg.kinds.addNodeAt hg.valid hK h₁⟩
  have hg₂ : Underway K g₂ := ⟨hg₁.valid.setPosition h₂, hg₁.kinds.setPosition h₂⟩
  have hg₃ : Underway K g₃ := restoreConsts_induct
    (fun _ _ _ _ hg hs => ⟨hg.valid.setConst hs, hg.kinds.setConst hs⟩) h₃ hg₂
  exact restoreDefaults_induct
    (fun _ _ _ _ hg hs => ⟨hg.valid.setDefault hs, hg.kinds.setDefault hg.valid hs⟩) h₄ hg₃

/-- A rebuilt graph is valid, its nodes are of kinds of the catalog, and no slot is held open. -/
theorem valid_rebuild (hc : ∀ name d, c.get? name = some d → K d) {id : Nat}
    {s : Option Signature} {snapshot : Snapshot} (h : snapshot.rebuild c id s = .ok g') :
    g'.Valid [] ∧ g'.Every fun kind held => (∀ k, kind = .action k → K k) ∧ held = .empty := by
  obtain ⟨g₁, g₂, g₃, h₁, h₂, h₃, rfl⟩ := rebuild_eq_ok.1 h
  have hg₁ : Underway K g₁ :=
    placeNodes_induct (fun _ _ _ hg hp => hg.placeNode hc hp) h₁ (.canvas id s)
  have hg₂ : Underway K g₂ := holdSlots_induct
    (fun _ _ _ _ _ hg hh => ⟨hg.valid.hold hh, hg.kinds.hold hg.valid hh⟩) h₂ hg₁
  have hg₃ : Underway K g₃ := restoreConnections_induct
    (fun _ _ _ _ hg hj => ⟨hg.valid.connect hj, hg.kinds.connect hg.valid hj⟩) h₃ hg₂
  exact ⟨hg₃.valid.release, hg₃.kinds.release hg₃.valid⟩

end Snapshot

end EffectGraph
