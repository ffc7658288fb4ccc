import EffectGraph.Proofs.Reachable

/-!
# Histories of several graphs

A `World` holds all graphs made so far and the identity that the next one gets. An act makes a graph
(blank, with a signature, from a snapshot or as a clone) or calls an operation on one of those that
are there. A history is a list of acts, in which operations on different graphs may alternate in any
way.

An operation reads and writes the graph that it is called on and nothing else, so what a history
makes of a graph is what the operations addressed to it make of it on their own, with the replies
that they give on their own (`World.run_apart`).
-/

namespace EffectGraph

open EffectGraph.Graph

/-! ## Operations on a graph -/

/-- What an operation gives back besides the graph. -/
inductive Reply (κ : Type) where
  | done
  | node (n : NodeId)
  | removed (m : Node κ)
  | flag (b : Bool)
  | count (k : Nat)
  | value (v : Option Value)

section Operations

variable {κ : Type}

/-- Whether an edit changes the graph it is applied to; a clone is another graph. -/
def Edit.inPlace : Edit κ → Bool
  | clone _ => false
  | _ => true

/-- An operation on a graph: an edit, or the choice of another conversion hook. -/
inductive Operation (κ : Type) where
  | edit (e : Edit κ) (h : e.inPlace = true)
  | rehook (hook : ConversionHook)

variable [HasSignature κ]

/-- The graph after an edit and what the edit gives back, or the error with which it is refused. -/
def Edit.outcome (g : Graph κ) : Edit κ → Except GraphError (Graph κ × Reply κ)
  | addNode kind => (g.addNode kind).map fun r => (r.1, .node r.2)
  | addNodeAt n kind => (g.addNodeAt n kind).map fun g => (g, .node n)
  | removeNode n => (g.removeNode n).map fun r => (r.1, .removed r.2)
  | setSignature s => (g.setSignature s).map fun g => (g, .done)
  | connect a b => (g.connect a b).map fun g => (g, .done)
  | wire source output destination input =>
    (g.wire source output destination input).map fun g => (g, .done)
  | disconnect a b => (g.disconnect a b).map fun r => (r.1, .flag r.2)
  | isolatePort p => (g.isolatePort p).map fun r => (r.1, .count r.2)
  | isolateNode n => (g.isolateNode n).map fun r => (r.1, .count r.2)
  | setConst n name v => (g.setConst n name v).map fun g => (g, .done)
  | setDefault n k v => (g.setDefault n k v).map fun g => (g, .done)
  | clearDefault n k => (g.clearDefault n k).map fun r => (r.1, .value r.2)
  | setPosition n p => (g.setPosition n p).map fun g => (g, .done)
  | redefine kind => .ok ((g.redefine kind).1, .count (g.redefine kind).2)
  | clone i => .ok (g.clone i, .done)

theorem Edit.apply_eq (g : Graph κ) (e : Edit κ) : e.apply g = (e.outcome g).map (·.1) := by
  have hgraph : ∀ (r : Reply κ) (x : Except GraphError (Graph κ)),
      (x.map fun g => (g, r)).map (·.1) = x := fun r x => by cases x <;> rfl
  have hpair : ∀ {α : Type} (f : α → Reply κ) (x : Except GraphError (Graph κ × α)),
      (x.map fun r => (r.1, f r.2)).map (·.1) = x.map (·.1) := fun f x => by cases x <;> rfl
  cases e <;> simp only [apply, outcome, hgraph, hpair] <;> rfl

namespace Operation

/-- The graph after an operation and what the operation gives back, or the error with which it is
refused. -/
def outcome (g : Graph κ) : Operation κ → Except GraphError (Graph κ × Reply κ)
  | edit e _ => e.outcome g
  | rehook hook => .ok ({ g with hook := hook }, .done)

/-- The graph after an operation that may be refused. -/
def perform (g : Graph κ) (o : Operation κ) : Graph κ :=
  match o.outcome g with
  | .ok r => r.1
  | .error _ => g

/-- What an operation gives back, or the error with which it is refused. -/
def reply (g : Graph κ) (o : Operation κ) : Except GraphError (Reply κ) := (o.outcome g).map (·.2)

/-- What operations in turn give back. -/
def replies : Graph κ → List (Operation κ) → List (Except GraphError (Reply κ))
  | _, [] => []
  | g, o :: os => o.reply g :: replies (o.perform g) os

/-- What operations keep is kept also by those that are refused. -/
theorem perform_induct {P : Graph κ → Prop} {g : Graph κ} {o : Operation κ}
    (step : ∀ r, o.outcome g = .ok r → P r.1) (h : P g) : P (o.perform g) := by
  unfold perform
  split
  next r hr => exact step r hr
  next => exact h

end Operation

end Operations

/-! ## Worlds -/

/-- The graphs made so far, in the order in which they were made. -/
structure World where
  graphs : List (Graph Definition)
  /-- The identity that the next graph gets. -/
  nextId : Nat

/-- An act on the graphs that are there; a graph is given by its place among them. -/
inductive Act where
  | blank
  /-- Makes the graph of a definition with the given signature. -/
  | signed (s : Signature)
  /-- Rebuilds a stored graph. -/
  | rebuilt (c : Catalog) (owner : Option Signature) (s : Snapshot)
  | cloned (k : Nat)
  | called (k : Nat) (o : Operation Definition)

def Act.connected (k : Nat) (a b : PortId) : Act := called k (.edit (.connect a b) rfl)

def Act.disconnected (k : Nat) (a b : PortId) : Act := called k (.edit (.disconnect a b) rfl)

namespace World

/-- The world before the first graph. -/
def start (first : Nat) : World := ⟨[], first⟩

/-- The world after an attempt to make a graph, which uses up an identity also if it fails. -/
def enter (w : World) (made : Option (Graph Definition)) : World :=
  ⟨w.graphs ++ made.toList, w.nextId + 1⟩

def step (w : World) : Act → World
  | .blank => w.enter (some (.empty w.nextId .standard))
  | .signed s => w.enter (Graph.withSignature w.nextId .standard s).toOption
  | .rebuilt c owner s => w.enter (s.rebuild c w.nextId owner).toOption
  | .cloned k =>
    match w.graphs[k]? with
    | some g => w.enter (some (g.clone w.nextId))
    | none => w
  | .called k o => { w with graphs := w.graphs.modify k (o.perform ·) }

def run (w : World) (acts : List Act) : World := acts.foldl step w

/-- The port that an id denotes in the graph at a place. -/
def port? (w : World) (k : Nat) (p : PortId) : Option PlacedPort :=
  w.graphs[k]?.bind (·.port? p)

/-- What the operations called on the graph at a place in the course of acts give back. -/
def replies (k : Nat) : World → List Act → List (Except GraphError (Reply Definition))
  | _, [] => []
  | w, a :: acts =>
    match a with
    | .called j o =>
      (if j = k then (w.graphs[k]?.map fun g => o.reply g).toList else []) ++
        replies k (w.step (.called j o)) acts
    | a => replies k (w.step a) acts

end World

/-- The operations that acts address to the graph at a place. -/
def Act.callsOn (k : Nat) (acts : List Act) : List (Operation Definition) :=
  acts.filterMap fun
    | .called j o => if j = k then some o else none
    | _ => none

namespace World

variable {w : World} {k : Nat} {g : Graph Definition}

theorem run_cons (w : World) (a : Act) (acts : List Act) :
    w.run (a :: acts) = (w.step a).run acts := rfl

theorem run_append (w : World) (acts acts' : List Act) :
    w.run (acts ++ acts') = (w.run acts).run acts' := by
  rw [run, run, run, List.foldl_append]

theorem getElem?_enter (hg : w.graphs[k]? = some g) (made : Option (Graph Definition)) :
    (w.enter made).graphs[k]? = some g := by
  obtain ⟨hlt, -⟩ := List.getElem?_eq_some_iff.1 hg
  rw [enter, List.getElem?_append_left hlt, hg]

theorem getElem?_called (hg : w.graphs[k]? = some g) (j : Nat) (o : Operation Definition) :
    (w.step (.called j o)).graphs[k]? = some (if j = k then o.perform g else g) := by
  simp only [step, List.getElem?_modify, hg, Option.map_eq_map, Option.map_some]

/-- An act that is no operation on the graph at a place leaves the graph there alone. -/
theorem getElem?_step (hg : w.graphs[k]? = some g) {a : Act} (ha : ∀ j o, a ≠ .called j o) :
    (w.step a).graphs[k]? = some g := by
  cases a with
  | blank => exact getElem?_enter hg _
  | signed s => exact getElem?_enter hg _
  | rebuilt c owner s => exact getElem?_enter hg _
  | cloned j =>
    rw [step]
    split
    · exact getElem?_enter hg _
    · exact hg
  | called j o => exact absurd rfl (ha j o)

/-- Operations on other graphs do not matter: a history makes of a graph what the operations
addressed to it make of it on their own, and these give back the same. -/
theorem run_apart (hg : w.graphs[k]? = some g) (acts : List Act) :
    (w.run acts).graphs[k]? = some ((Act.callsOn k acts).foldl Operation.perform g) ∧
      w.replies k acts = Operation.replies g (Act.callsOn k acts) := by
  induction acts generalizing w g with
  | nil => exact ⟨hg, rfl⟩
  | cons a acts ih =>
    rw [run_cons]
    cases a with
    | called j o =>
      have hstep := getElem?_called hg j o
      by_cases hj : j = k
      · rw [if_pos hj] at hstep
        obtain ⟨hgraph, hreplies⟩ := ih hstep
        exact ⟨by simpa [Act.callsOn, hj] using hgraph,
          by simpa [Act.callsOn, replies, hj, hg, Operation.replies] using hreplies⟩
      · rw [if_neg hj] at hstep
        obtain ⟨hgraph, hreplies⟩ := ih hstep
        exact ⟨by simpa [Act.callsOn, hj] using hgraph,
          by simpa [Act.callsOn, replies, hj] using hreplies⟩
    | blank => exact ih (getElem?_step hg (by simp))
    | signed s => exact ih (getElem?_step hg (by simp))
    | rebuilt c owner s => exact ih (getElem?_step hg (by simp))
    | cloned j => exact ih (getElem?_step hg (by simp))

end World

end EffectGraph
