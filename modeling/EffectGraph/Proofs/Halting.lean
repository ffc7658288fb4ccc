import EffectGraph.Proofs.Cycles

/-!
# Values are had in finitely many steps

The read of a value follows connections from node to node, and the connections may form cycles. What
brings it to an end is that a node which is being run is not run again, so that with every
invocation inside another fewer nodes are left. What is being run in the meantime is seen by a guard
(`guardedExec`): a guarded run has no end as soon as the guard refuses the nodes being run. It comes
to an end like the run itself if the guard lets nodes of the graph pass that are being run once
each. The results are put together in `Reachable.read_ends`.
-/

namespace EffectGraph

open EffectGraph.Graph

variable {σ : Type}

/-! ## Guarded runs -/

/-- A look at the nodes being run, innermost first. -/
abbrev Guard := List NodeId → Bool

/-- The nodes being run while a task is at work, innermost first. -/
def Task.stack : Task → List NodeId → List NodeId
  | invoke n, running => n :: running
  | read _, running => running
  | follow _, running => running

/-- Carries out a task as long as the guard lets the nodes pass that are being run before it, while
it is at work, and after it. -/
def guarded (guard : Guard) (engine : Engine σ) : Engine σ := fun s t m =>
  if guard m.memory.running = true ∧ guard (t.stack m.memory.running) = true then
    (engine s t m).filter fun r => guard r.2.memory.running
  else none

/-- The interpreter with a guard at every task. The nodes being run change with an invocation and
with its end, so that the guard sees all that are being run at any time. -/
def guardedExec (guard : Guard) (host : Host σ) : Nat → Engine σ
  | 0 => fun _ _ => Exec.exhausted
  | n + 1 => guarded guard (Engine.step (guardedExec guard host n) host)

theorem extends_guarded (guard : Guard) (engine : Engine σ) (s : Setting) (t : Task) :
    Exec.Extends (guarded guard engine s t) (engine s t) := by
  intro m r h
  unfold guarded at h
  split at h
  · exact (Option.filter_eq_some_iff.1 h).1
  · exact nomatch h

/-- Where a guarded run comes to an end, so does the run itself, in the same way. -/
theorem extends_guardedExec (guard : Guard) (host : Host σ) (k : Nat) (s : Setting) (t : Task) :
    Exec.Extends (guardedExec guard host k s t) (exec host k s t) := by
  induction k generalizing s t with
  | zero => exact fun m r h => nomatch h
  | succ k ih =>
    have hC := Exec.fullCongruence_extends host
    have hstep : Exec.Extends (Engine.step (guardedExec guard host k) host s t)
        (Engine.step (exec host k) host s t) :=
      hC.succ (o := s.options) (p := s.options) rfl (fun u hu _ _ _ => hu ▸ fun _ _ => id)
        (fun u hu t => hu ▸ ih u t) s rfl t
    exact fun m r h => hstep m r (extends_guarded guard _ s t m r h)

/-- A guard does not stop a task that settles while nodes are being run that it lets pass. -/
theorem Settles.guarded {guard : Guard} {engine : Engine σ} {s : Setting} {t : Task}
    {running : List NodeId} {Q : NodeId → Prop} (hbefore : guard running = true)
    (hwithin : guard (t.stack running) = true) (h : Settles running Q (engine s t)) :
    Settles running Q (guarded guard engine s t) := by
  rintro m rfl
  obtain ⟨r, m', hrun, hm', hr⟩ := h m rfl
  refine ⟨r, m', ?_, hm', hr⟩
  rw [EffectGraph.guarded, if_pos ⟨hbefore, hwithin⟩, hrun, Option.filter_some, hm', if_pos hbefore]

/-! ## Nodes run inside of others -/

/-- Nodes of a graph that are being run inside of others, innermost first, none of them twice. -/
structure Graph.Nested (g : Graph Definition) (outer inner : List NodeId) : Prop where
  nodup : (inner ++ outer).Nodup
  mem : ∀ n ∈ inner, n ∈ g.nodes.map (·.id)

namespace Graph.Nested

variable {g : Graph Definition} {outer inner : List NodeId}

theorem nil (h : outer.Nodup) : g.Nested outer [] := ⟨h, by simp⟩

theorem push (h : g.Nested outer inner) {n : Node Definition} (hn : n ∈ g.nodes)
    (hidle : n.id ∉ inner ++ outer) : g.Nested outer (n.id :: inner) := by
  refine ⟨List.nodup_cons.2 ⟨hidle, h.nodup⟩, fun a ha => ?_⟩
  rcases List.mem_cons.1 ha with rfl | ha
  · exact List.mem_map_of_mem hn
  · exact h.mem a ha

/-- There are no more of them than the graph has nodes. -/
theorem length_le (h : g.Nested outer inner) : inner.length ≤ g.nodes.length := by
  have hsub : inner.Subperm (g.nodes.map (·.id)) := (h.nodup.of_append_left).subperm h.mem
  simpa using hsub.length_le

end Graph.Nested

/-- A guard that lets nodes of the graph pass which are run once each. -/
theorem layered_guardedExec (s : Setting) (host : Host σ) {guard : Guard} {outer : List NodeId}
    (hguard : ∀ inner, s.graph.Nested outer inner → guard (inner ++ outer) = true) :
    Layered s host (fun running => ∃ inner, running = inner ++ outer ∧ s.graph.Nested outer inner)
      (guardedExec guard host) where
  push := by
    rintro _ n ⟨inner, rfl, h⟩ hn hidle
    exact ⟨n.id :: inner, rfl, h.push hn hidle⟩
  read := by
    rintro _ Q k p ⟨inner, rfl, h⟩ hread
    exact Settles.guarded (t := .read p) (hguard inner h) (hguard inner h) hread
  invoke := by
    rintro _ Q k n ⟨inner, rfl, h⟩ ⟨inner', hpush, h'⟩ hinvoke
    have hwithin : guard (n :: (inner ++ outer)) = true := hpush ▸ hguard inner' h'
    exact Settles.guarded (t := .invoke n) (hguard inner h) hwithin hinvoke

/-! ## Reads -/

/-- Over a graph of the kinds of the library, however its connections run, every read comes to an
end, with a value or with an error, in every flow that is not running a node twice. As many levels
suffice as three for each node and two more, at which the flow has come to the same end and leaves
the nodes noted that it was running. At no time in between is a node being run twice, and there are
no more invocations inside of one another than there are nodes: a guard that lets these pass does
not stop the run. -/
theorem Reachable.read_ends {s : Setting} (hg : Reachable Definition.Standard s.graph)
    (host : Host σ) {m : Machine σ} (hm : m.memory.running.Nodup) (p : PortId) :
    ∃ r m', m'.memory.running = m.memory.running ∧
      ∀ k, 3 * s.graph.nodes.length + 2 ≤ k →
        exec host k s (.read p) m = some (r, m') ∧
        ∀ guard : Guard, (∀ inner : List NodeId, (inner ++ m.memory.running).Nodup →
            (∀ n ∈ inner, n ∈ s.graph.nodes.map (·.id)) → inner.length ≤ s.graph.nodes.length →
              guard (inner ++ m.memory.running) = true) →
          guardedExec guard host k s (.read p) m = some (r, m') := by
  have hkinds : ∀ node ∈ s.graph.nodes, ∀ d, node.kind = .action d → d.Standard :=
    fun node hnode => (hg.invariant.2 node hnode).1
  obtain ⟨r, m', hrun, hm', -⟩ := (layered_exec s host).settles_read_above hg.valid hkinds trivial
    (Nat.le_refl _) p m rfl
  have hends : ∀ k, 3 * s.graph.nodes.length + 2 ≤ k →
      exec host k s (.read p) m = some (r, m') := fun k hk => exec_extends hk host s _ m _ hrun
  refine ⟨r, m', hm', fun k hk => ⟨hends k hk, fun guard hguard => ?_⟩⟩
  have hlayered := layered_guardedExec s host fun inner h =>
    hguard inner h.nodup h.mem h.length_le
  obtain ⟨r₁, m₁, hrun₁, -⟩ := hlayered.settles_read_above hg.valid hkinds
    ⟨[], rfl, .nil hm⟩ hk p m rfl
  have hsame := extends_guardedExec guard host k s (.read p) m _ hrun₁
  rw [hrun₁, ← hsame, hends k hk]

/-- A flow that is running the second of two nodes that feed each other comes to it again by way of
two more nodes, with a guard as well as without. -/
theorem read_ends_entangled : ∃ m', m'.memory.running = [⟨2⟩] ∧
    exec nullHost 17 (.top entangled .empty ⟨32, true⟩ .standard) (.read ⟨0, 11⟩)
      ⟨⟨.base .empty, [⟨2⟩]⟩, [], ()⟩ = some (.error (.cycle ⟨2⟩), m') ∧
    guardedExec (fun running => decide (running.Nodup ∧ running.length ≤ 6)) nullHost 17
      (.top entangled .empty ⟨32, true⟩ .standard) (.read ⟨0, 11⟩)
      ⟨⟨.base .empty, [⟨2⟩]⟩, [], ()⟩ = some (.error (.cycle ⟨2⟩), m') := by
  obtain ⟨r, m', hm', hends⟩ :=
    Reachable.read_ends (s := .top entangled .empty ⟨32, true⟩ .standard) reachable_entangled
      nullHost (m := ⟨⟨.base .empty, [⟨2⟩]⟩, [], ()⟩) (by decide) ⟨0, 11⟩
  obtain ⟨hrun, hguarded⟩ := hends 17 (by decide +kernel)
  have hresult : (exec nullHost 17 (.top entangled .empty ⟨32, true⟩ .standard) (.read ⟨0, 11⟩)
      ⟨⟨.base .empty, [⟨2⟩]⟩, [], ()⟩).map (·.1) = some (.error (.cycle ⟨2⟩)) := by
    decide +kernel
  rw [hrun] at hresult
  obtain rfl := Option.some.inj hresult
  refine ⟨m', hm', hrun, hguarded _ fun inner hnodup _ hlength => decide_eq_true ⟨hnodup, ?_⟩⟩
  have hnodes : entangled.nodes.length = 5 := by decide +kernel
  calc (inner ++ [(⟨2⟩ : NodeId)]).length = inner.length + 1 := List.length_append
    _ ≤ 6 := Nat.succ_le_succ (hnodes ▸ hlength)

end EffectGraph
