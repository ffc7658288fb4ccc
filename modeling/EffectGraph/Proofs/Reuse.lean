import EffectGraph.Graph.Shape
import Mathlib.Data.List.Perm.Basic

/-!
# Giving a side of a node its wanted ports

`reusePorts` hands out every old port at most once, makes new ones under numbers that were free, and
drops as many old ports of a declaration as there are more of than wanted.
-/

namespace EffectGraph

/-- What a port stands for, apart from its number. -/
def Port.spec (p : Port) : PortSpec := ⟨p.decl, p.slot⟩

theorem PortSpec.fits_iff {s : PortSpec} {p : Port} : s.fits p = true ↔ p.spec = s := by
  cases s
  simp [PortSpec.fits, Port.spec]

theorem perm_cons_eraseP {α : Type} {f : α → Bool} {l : List α} {a : α}
    (h : l.find? f = some a) : l.Perm (a :: l.eraseP f) := by
  induction l with
  | nil => simp at h
  | cons b l ih =>
    rw [List.find?_cons] at h
    by_cases hb : f b = true
    · simp only [hb] at h
      rw [List.eraseP_cons_of_pos hb, Option.some.inj h]
    · simp only [hb] at h
      rw [List.eraseP_cons_of_neg hb]
      exact ((ih h).cons b).trans (.swap a b _)

/-- The ports handed out are the wanted ones in order. -/
theorem reusePorts_specs (ss : List PortSpec) (old : List Port) (next : Nat) :
    (reusePorts ss old next).ports.map Port.spec = ss := by
  induction ss generalizing old next with
  | nil => rfl
  | cons s ss ih =>
    rw [reusePorts]
    split
    next p hp => simp [ih, PortSpec.fits_iff.1 (List.find?_some hp)]
    next => simp [ih, Port.spec]

/-- Old ports are handed out once or dropped, and what else is handed out is new. -/
theorem reusePorts_perm (ss : List PortSpec) (old : List Port) (next : Nat) :
    ∃ fresh : List Port,
      ((reusePorts ss old next).ports ++ (reusePorts ss old next).dropped).Perm (old ++ fresh) ∧
      fresh.map (·.index) = List.range' next fresh.length ∧
      (reusePorts ss old next).nextPort = next + fresh.length := by
  induction ss generalizing old next with
  | nil => exact ⟨[], by simp [reusePorts], rfl, rfl⟩
  | cons s ss ih =>
    rw [reusePorts]
    split
    next p hp =>
      obtain ⟨fresh, hperm, hnum, hnext⟩ := ih (old.eraseP s.fits) next
      -- The old port that fits moves to the front of what is left of the old ports.
      have hold := (perm_cons_eraseP hp).symm.append_right fresh
      exact ⟨fresh, (hperm.cons p).trans hold, hnum, hnext⟩
    next =>
      obtain ⟨fresh, hperm, hnum, hnext⟩ := ih old (next + 1)
      refine ⟨⟨next, s.decl, s.slot⟩ :: fresh, (hperm.cons _).trans List.perm_middle.symm, ?_, ?_⟩
      · rw [List.map_cons, hnum, List.length_cons, List.range'_succ]
      · simp only [hnext, List.length_cons]
        omega

/-- Of each declaration and slot as many old ports are dropped as there are more of than wanted. -/
theorem reusePorts_count (ss : List PortSpec) (old : List Port) (next : Nat) (s : PortSpec) :
    ((reusePorts ss old next).dropped.map Port.spec).count s =
      (old.map Port.spec).count s - ss.count s := by
  induction ss generalizing old next with
  | nil => simp [reusePorts]
  | cons t ss ih =>
    rw [reusePorts]
    split
    next p hp =>
      have hspec : p.spec = t := PortSpec.fits_iff.1 (List.find?_some hp)
      have hperm := (perm_cons_eraseP hp).map Port.spec
      rw [ih, hperm.count_eq, List.map_cons, hspec, List.count_cons, List.count_cons]
      omega
    next hnone =>
      rw [ih, List.count_cons]
      by_cases hts : t = s
      · subst hts
        have hzero : (old.map Port.spec).count t = 0 := by
          refine List.count_eq_zero.2 fun hmem => ?_
          obtain ⟨p, hp, hpt⟩ := List.mem_map.1 hmem
          exact List.find?_eq_none.1 hnone p hp (PortSpec.fits_iff.2 hpt)
        omega
      · simp [hts]

theorem mem_of_mem_reusePorts {ss : List PortSpec} {old : List Port} {next : Nat} {p : Port}
    (h : p ∈ (reusePorts ss old next).ports) : p ∈ old ∨ next ≤ p.index := by
  obtain ⟨fresh, hperm, hnum, -⟩ := reusePorts_perm ss old next
  rcases List.mem_append.1 (hperm.subset (List.mem_append_left _ h)) with hp | hp
  · exact .inl hp
  · have : p.index ∈ List.range' next fresh.length := hnum ▸ List.mem_map_of_mem hp
    exact .inr (List.mem_range'_1.1 this).1

theorem mem_old_of_mem_dropped {ss : List PortSpec} {old : List Port} {next : Nat} {p : Port}
    (h : p ∈ (reusePorts ss old next).dropped) : p ∈ old := by
  induction ss generalizing old next with
  | nil => exact h
  | cons s ss ih =>
    rw [reusePorts] at h
    split at h
    next => exact List.mem_of_mem_eraseP (ih h)
    next => exact ih h

theorem mem_reusePorts_of_mem_old (ss : List PortSpec) {old : List Port} (next : Nat) {p : Port}
    (h : p ∈ old) : p ∈ (reusePorts ss old next).ports ∨ p ∈ (reusePorts ss old next).dropped := by
  obtain ⟨fresh, hperm, -⟩ := reusePorts_perm ss old next
  exact List.mem_append.1 (hperm.symm.subset (List.mem_append_left _ h))

end EffectGraph
