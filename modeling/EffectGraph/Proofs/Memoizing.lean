import EffectGraph.Proofs.Conforming

/-!
# Where values are memoized

The interpreter memoizes a value when it publishes an output of a node and when it populates Entry.
Both are outputs, so in a flow that nobody else writes to, a body no more than the host, inputs are
never memoized (`Graph.OutputsOnly`). Each read of an input is then had anew from what it is
connected to or from its default. Flows over inner graphs memoize in memories of their own, which
start with outputs of Entry (`outputsOnly_base`), so it does not matter here what bodies do inside
of generated kinds.
-/

namespace EffectGraph

open EffectGraph.Graph

/-- The methods that nodes of the graph run memoize no values of their own. -/
def Graph.Unwriting (g : Graph Definition) : Prop :=
  ∀ node ∈ g.nodes, ∀ d, node.kind = .action d → ∀ b, d.behaviour = .method b →
    ∀ c, (b.body c).Unwriting

theorem Definition.Made.built : ∀ {d : Definition}, d.Made → d.Built
  | _, .method h _ => .method h
  | _, .generated h _ => .generated h
  | _, .obsoleteNames names h => .obsoleteNames names h.built
  | _, .obsoleteMessage message h => .obsoleteMessage message h.built

theorem Reachable.unwriting {g : Graph Definition} (h : Reachable Definition.Made g) :
    g.Unwriting := by
  intro node hnode d hkind b hb
  have hbehaves := ((h.invariant.2 node hnode).1 d hkind).behaves
  rw [Definition.Behaves, hb] at hbehaves
  obtain ⟨_, _, -, -, -, hbody⟩ := hbehaves
  exact hbody

/-- No values are memoized but for outputs of nodes of the graph. -/
abbrev Graph.OutputsOnly (g : Graph Definition) : Scopes → Prop :=
  ScopesHold fun p _ => g.IsOutput p

theorem Graph.OutputsOnly.find?_input {g : Graph Definition} (hg : g.WellFormed) {scopes : Scopes}
    (h : g.OutputsOnly scopes) {q : PlacedPort} (hq : q ∈ g.allPorts)
    (hside : q.direction = .input) : scopes.find? (g.portId q.port.index) = none := by
  refine Option.eq_none_iff_forall_ne_some.2 fun v hv => ?_
  obtain ⟨node, hnode, r, hr, hid⟩ := h.find? hv
  have hsame := hg.port_inj hq (output_mem_allPorts hnode hr) (congrArg PortId.index hid)
  rw [hsame] at hside
  exact nomatch hside

variable {σ : Type} {s : Setting}

/-! ## Runs -/

theorem Task.meets_trivial (t : Task) (r : t.Result) : t.Meets (fun _ _ => True) r := by
  cases t <;> trivial

/-- Nothing is asked of the memory of a flow. -/
theorem Upholds.trivial {α : Type} (x : Exec σ α) {Q : α → Prop} (hQ : ∀ a, Q a) :
    Upholds (fun _ => True) x Q :=
  fun _ _ _ _ _ => ⟨.intro, fun a _ => hQ a⟩

theorem discipline_outputs : Discipline s s.graph.OutputsOnly fun _ _ => True where
  found _ _ := trivial
  kept h _ houtput := h.set houtput
  pulled _ _ _ _ := trivial
  unconnected _ _ _ := trivial
  entry _ _ _ _ _ _ := trivial

/-- At every level the interpreter memoizes values for outputs only. -/
theorem outputsOnly_exec (hs : s.graph.Unwriting) (host : Host σ) (k : Nat) (t : Task) :
    Upholds s.graph.OutputsOnly (exec host k s t) (t.Meets fun _ _ => True) := by
  induction k generalizing t with
  | zero => exact .exhausted
  | succ k ih =>
    cases t with
    | read p => exact Engine.upholds_read discipline_outputs ih p
    | follow p => exact Engine.upholds_follow ih p
    | invoke n =>
      refine Engine.upholds_invoke discipline_outputs n fun node d hnode hkind => ?_
      split
      next b hb =>
        refine Engine.upholds_invokeMethod discipline_outputs ih fun args _ => ?_
        have hbody := hs node (node?_mem hnode).1 d hkind b hb ⟨node.id, args, s.environment⟩
        have hrun := Engine.upholds_unwriting ih (fun _ h => h.push) (fun _ h => h.pop) host hbody
        exact hrun.mono fun _ _ _ _ _ _ _ _ _ _ => trivial
      next inner _ =>
        -- What the inner flow memoizes does not come into the memory of this one.
        exact Engine.upholds_invokeGenerated ih discipline_outputs (fun _ _ _ _ _ _ _ => trivial)
          node d (F := fun _ _ => True) (J := fun _ => True) (R := fun _ _ => True)
          (fun _ _ _ _ _ => trivial) (fun _ _ => trivial)
          fun t => .trivial _ t.meets_trivial

theorem outputsOnly_answer (hs : s.graph.Unwriting) (host : Host σ) (k : Nat) {q : Request}
    (hq : ∀ p v, q ≠ .write p v) :
    Upholds s.graph.OutputsOnly (Engine.answer (exec host k) s host q) fun _ => True :=
  Engine.upholds_answer (outputsOnly_exec hs host k) (fun _ h => h.push) (fun _ h => h.pop) host hq

theorem Visited.outputsOnly (hs : s.graph.Unwriting) {host : Host σ} {m : Machine σ}
    (hm : Visited s host m) : s.graph.OutputsOnly m.memory.scopes := by
  induction hm with
  | fresh => exact .empty
  | request k hq h _ ih => exact (outputsOnly_answer hs host k hq _ _ _ h ih).1

/-! ## Inner flows -/

/-- What is bound for the flow that a generated node opens is bound to outputs of Entry. -/
theorem outputsOnly_base {engine : Engine σ} {n : NodeId} {node : Node Definition}
    {inner : Graph Definition} {entry : NodeId} {inputs consts : List PortDecl} {f f' : Frame}
    {m m' : Machine σ}
    (hinputs : engine.bindInputs s n inner entry inputs .empty m = some (.ok f, m'))
    (hconsts : Engine.bindConsts s node inner entry consts f = .ok f') :
    inner.OutputsOnly (.base f') := by
  have hsupplies : Engine.Supplies s inner entry fun p _ => inner.IsOutput p :=
    fun _ _ _ hr => isOutput_of_output? (Engine.entryPort_eq_ok.1 hr).1
  have hempty : ∀ p v, (Table.empty : Frame).get? p = some v → inner.IsOutput p :=
    fun p v hv => by simp at hv
  have htasks : ∀ t, Upholds (fun _ => True) (engine s t) (t.Meets fun _ _ => True) :=
    fun t => .trivial _ t.meets_trivial
  have hbound := Engine.upholds_bindInputs htasks hsupplies n inputs hempty
  exact .base (hsupplies.bindConsts node consts ((hbound m _ m' hinputs trivial).2 f rfl) hconsts)

end EffectGraph
