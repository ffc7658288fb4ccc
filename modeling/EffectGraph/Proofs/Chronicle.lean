import EffectGraph.Proofs.Conforming
import EffectGraph.Proofs.Congruence

/-!
# Runs with notes

The memory after a run does not show in what order and for what reason nodes were invoked. A noted
run (`noted`) keeps notes of that beside the state of the host, and apart for every flow: a flow
that is opened for a generated node has notes of its own. Without the notes a noted run is the run
itself (`erases_noted`).
-/

namespace EffectGraph

/-! ## Notes -/

/-- Why a node is invoked. -/
inductive Cause where
  /-- One of its outputs is read. -/
  | pull
  /-- Control has come to it. -/
  | push
  deriving DecidableEq

/-- A note on the run of a flow. -/
inductive Note where
  | begun (cause : Cause) (n : NodeId)
  /-- An invocation has completed, that is, it has not failed. -/
  | done (n : NodeId)
  deriving DecidableEq

/-- The notes on the flows of a run. The newest note on a flow comes first. -/
structure Chronicle where
  /-- The notes on the present flow. -/
  present : List Note
  /-- The notes on the flow that the node being invoked has opened. A node that opens none leaves
  none. -/
  inner : List Note
  /-- The notes on flows that are over. -/
  closed : List (List Note)

def Chronicle.empty : Chronicle := ⟨[], [], []⟩

variable {σ α β : Type}

namespace Machine

def chronicle (m : Machine (σ × Chronicle)) : Chronicle := m.host.2

def withChronicle (m : Machine (σ × Chronicle)) (c : Chronicle) : Machine (σ × Chronicle) :=
  { m with host := (m.host.1, c) }

/-- A machine without its notes. -/
def plain (m : Machine (σ × Chronicle)) : Machine σ := ⟨m.memory, m.log, m.host.1⟩

end Machine

namespace Exec

/-- Takes a note on the present flow. -/
def note (e : Note) : Exec (σ × Chronicle) Unit := fun m =>
  some (.ok (), m.withChronicle { m.chronicle with present := e :: m.chronicle.present })

/-- Takes a step of the inner flow, on which notes are taken meanwhile. -/
def aside (x : Exec (σ × Chronicle) α) : Exec (σ × Chronicle) α := fun m =>
  match x (m.withChronicle ⟨m.chronicle.inner, [], m.chronicle.closed⟩) with
  | none => none
  | some (r, m') => some (r, m'.withChronicle
      ⟨m.chronicle.present, m'.chronicle.present, m'.chronicle.closed⟩)

/-- Takes a step with a new inner flow, which is over after the step. -/
def nesting (x : Exec (σ × Chronicle) α) : Exec (σ × Chronicle) α := fun m =>
  match x (m.withChronicle { m.chronicle with inner := [] }) with
  | none => none
  | some (r, m') => some (r, m'.withChronicle
      ⟨m'.chronicle.present, m.chronicle.inner, m'.chronicle.inner :: m'.chronicle.closed⟩)

end Exec

/-- A host that takes no notice of the notes. -/
def Host.noted (host : Host σ) : Host (σ × Chronicle) := fun v state =>
  ((host v state.1).1, ((host v state.1).2, state.2))

namespace Engine

open Exec

/-- Takes notes before and after a node is invoked. -/
def noting (engine : Engine (σ × Chronicle)) (cause : Cause) : Engine (σ × Chronicle) := fun s t =>
  match t with
  | .invoke n => do
    note (.begun cause n)
    let exit ← engine s (.invoke n)
    note (.done n)
    return exit
  | .read p => engine s (.read p)
  | .follow p => engine s (.follow p)

/-- Carries out the tasks of the flows that a flow has opened aside. -/
def apart (engine : Engine (σ × Chronicle)) (s : Setting) : Engine (σ × Chronicle) := fun u t =>
  if u.callers = s.callers then engine u t else aside (engine u t)

/-- Carries out a task as `step` does, with notes. A read invokes nodes for the sake of values, and
following control does so for the sake of control. -/
def notedStep (engine : Engine (σ × Chronicle)) (host : Host σ) : Engine (σ × Chronicle) :=
  fun s t =>
    match t with
    | .read p => (engine.noting .pull).read s p
    | .invoke n => nesting ((engine.apart s).invoke s host.noted n)
    | .follow p => (engine.noting .push).follow s p

/-- The engine for the tasks that an allowance does not suffice for. They have no end, or they fail
with a given error, so that a run that does not end is broken off there. -/
def halting (stop : Option FlowError) : Engine σ := fun _ _ =>
  match stop with
  | none => exhausted
  | some e => fail e

end Engine

/-- The interpreter with notes, with its deepest tasks carried out by a given engine. -/
def noted (base : Engine (σ × Chronicle)) (host : Host σ) : Nat → Engine (σ × Chronicle)
  | 0 => base
  | n + 1 => Engine.notedStep (noted base host n) host

/-! ## Steps without notes -/

/-- A step with notes that does the same as another step. -/
def Erases (x : Exec (σ × Chronicle) α) (y : Exec σ α) : Prop :=
  ∀ m, y m.plain = (x m).map fun r => (r.1, r.2.plain)

namespace Erases

variable {x : Exec (σ × Chronicle) α} {y : Exec σ α}

theorem aside (h : Erases x y) : Erases (.aside x) y := by
  intro m
  have hm : y m.plain = _ := h (m.withChronicle ⟨m.chronicle.inner, [], m.chronicle.closed⟩)
  unfold Exec.aside
  rw [hm]
  cases x (m.withChronicle ⟨m.chronicle.inner, [], m.chronicle.closed⟩) <;> rfl

theorem nesting (h : Erases x y) : Erases (.nesting x) y := by
  intro m
  have hm : y m.plain = _ := h (m.withChronicle { m.chronicle with inner := [] })
  unfold Exec.nesting
  rw [hm]
  cases x (m.withChronicle { m.chronicle with inner := [] }) <;> rfl

/-- A step between two notes. -/
theorem between (before after : Note) (h : Erases x y) :
    Erases (do Exec.note before; let a ← x; Exec.note after; return a) y := by
  intro m
  have hm : y m.plain = _ :=
    h (m.withChronicle { m.chronicle with present := before :: m.chronicle.present })
  rw [hm]
  show _ = (Exec.bind x _ (m.withChronicle _)).map _
  unfold Exec.bind
  cases x (m.withChronicle { m.chronicle with present := before :: m.chronicle.present }) with
  | none => rfl
  | some r =>
    obtain ⟨r, m'⟩ := r
    cases r <;> rfl

end Erases

/-! ## The interpreter without notes -/

theorem Machine.projection_plain : Exec.Projection (Machine.plain (σ := σ)) where
  memory _ := rfl
  withMemory _ _ := rfl
  withEvent _ _ _ := rfl

/-- To do the same without notes is a relation that the interpreter respects. -/
theorem erases_congruence : Exec.Congruence fun x (y : Exec σ _) => Erases x y :=
  Machine.projection_plain.congruence

theorem erases_fullCongruence (host : Host σ) :
    Exec.FullCongruence host.noted host fun x y => Erases x y :=
  Machine.projection_plain.fullCongruence fun _ _ => rfl

namespace Engine

variable {engine : Engine (σ × Chronicle)} {engine' : Engine σ}
  (he : ∀ s t, Erases (engine s t) (engine' s t)) (s : Setting)

theorem erases_blame (n : NodeId) (define : String) (e : BodyError) :
    Erases (σ := σ) (α := α) (blame s n define e) (blame s n define e) := by
  intro m
  cases e with
  | flow e => rfl
  | action e =>
    simp only [blame]
    split <;> rfl

include he

theorem erases_noting (cause : Cause) (t : Task) :
    Erases (engine.noting cause s t) (engine' s t) := by
  cases t with
  | read p => exact he s _
  | invoke n => exact (he s (.invoke n)).between _ _
  | follow p => exact he s _

theorem erases_apart (u : Setting) (t : Task) : Erases (engine.apart s u t) (engine' u t) := by
  unfold apart
  split
  · exact he u t
  · exact (he u t).aside

theorem erases_notedStep (host : Host σ) (t : Task) :
    Erases (engine.notedStep host s t) (engine'.step host s t) := by
  have hC := erases_fullCongruence host
  cases t with
  | read p => exact erases_congruence.read (o := s.options) (erases_noting he s .pull) p
  | follow p => exact erases_congruence.follow (o := s.options) (erases_noting he s .push) p
  | invoke n =>
    refine Erases.nesting (hC.invoke (o := s.options) (p := s.options) rfl ?_ ?_ s rfl n)
    · exact fun u hu n define e => hu ▸ erases_blame u n define e
    · exact fun u hu t => hu ▸ erases_apart he s u t

end Engine

/-- Without the notes a noted run is the run itself, at every level and in every flow. -/
theorem erases_noted (stop : Option FlowError) (host : Host σ) (n : Nat) (s : Setting) (t : Task) :
    Erases (noted (.halting stop) host n s t) (levels (.halting stop) host n s t) := by
  induction n generalizing s t with
  | zero => cases stop <;> exact fun _ => rfl
  | succ n ih => exact Engine.erases_notedStep ih s host t

end EffectGraph
