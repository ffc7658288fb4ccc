import EffectGraph.Proofs.Widths

/-!
# Reshapes on behalf of other nodes

The reshape of a node that loses connections is followed by reshapes of the nodes that these
connections led to. Each of them comes after a connection has been lost, so their nesting is no
deeper than the number of connections, which is how deep `Graph.reshape` lets it be
(`Graph.reshape_unfold`).

A node that is in shape keeps its connections when it is reshaped. So if all nodes with variadic
groups are in shape but for the one that is reshaped, a reshape on its behalf is never followed by
another one (`Graph.Valid.flat`).
-/

namespace EffectGraph

variable {κ : Type} [HasSignature κ]

namespace Graph

variable {g : Graph κ} {n : NodeId} {stale : List NodeId}

/-! ## The depth of a reshape -/

theorem reshapeNested_eq_foldl (depth : Nat) (g : Graph κ) (ns : List NodeId) :
    reshapeNested depth g ns = ns.foldl (fun g n => reshapeNested depth g [n]) g := by
  cases depth <;> rfl

theorem reshapeOne_connections_sublist (g : Graph κ) (n : NodeId) :
    (g.reshapeOne n).1.connections.Sublist g.connections := by
  cases hm : g.node? n with
  | none => rw [reshapeOne_of_none hm]
  | some m =>
    rw [reshapeOne_connections hm]
    exact List.filter_sublist

theorem Ascending.reshapeOne (hg : g.Ascending) (n : NodeId) : (g.reshapeOne n).1.Ascending := by
  rw [ascending_iff, reshapeOne_nodeIds hg]
  exact (ascending_iff g).1 hg

theorem length_reshapeNested_le (depth : Nat) (g : Graph κ) (ns : List NodeId) :
    (reshapeNested depth g ns).connections.length ≤ g.connections.length :=
  reshapeNested_induct (P := fun k => k.connections.length ≤ g.connections.length)
    (fun k n hk => (reshapeOne_connections_sublist k n).length_le.trans hk) depth g ns
    (Nat.le_refl _)

/-- A reshape on behalf of another node comes only after a connection has been lost. -/
theorem length_reshapeOne_lt (hs : (g.reshapeOne n).2 ≠ []) :
    (g.reshapeOne n).1.connections.length < g.connections.length := by
  obtain ⟨k, hk⟩ := List.exists_mem_of_ne_nil _ hs
  cases hm : g.node? n with
  | none =>
    rw [reshapeOne_of_none hm] at hk
    exact absurd hk List.not_mem_nil
  | some m =>
    obtain ⟨-, c, hc, hloses, -⟩ := (mem_reshapeOne_snd hm).1 hk
    rw [reshapeOne_connections hm]
    refine List.length_filter_lt_length_iff_exists.2 ⟨c, hc, ?_⟩
    simp [hloses]

/-- One level of depth beyond the number of connections makes no difference. -/
theorem reshapeNested_succ (depth : Nat) : ∀ (g : Graph κ) (ns : List NodeId),
    g.connections.length ≤ depth → reshapeNested (depth + 1) g ns = reshapeNested depth g ns := by
  induction depth with
  | zero =>
    intro g ns hc
    induction ns generalizing g with
    | nil => rfl
    | cons n ns ih =>
      have hnil : (g.reshapeOne n).2 = [] := by
        by_contra hs
        have := length_reshapeOne_lt hs
        omega
      have hsub := (reshapeOne_connections_sublist g n).length_le
      have hrest := ih (g.reshapeOne n).1 (by omega)
      show List.foldl _ (reshapeNested 0 (g.reshapeOne n).1 (g.reshapeOne n).2) ns = _
      rw [hnil]
      exact hrest
  | succ depth ihd =>
    intro g ns hc
    induction ns generalizing g with
    | nil => rfl
    | cons n ns ih =>
      have hsub := (reshapeOne_connections_sublist g n).length_le
      have hone : reshapeNested (depth + 1) (g.reshapeOne n).1 (g.reshapeOne n).2 =
          reshapeNested depth (g.reshapeOne n).1 (g.reshapeOne n).2 := by
        by_cases hs : (g.reshapeOne n).2 = []
        · rw [hs, reshapeNested_nil, reshapeNested_nil]
        · have hlt := length_reshapeOne_lt hs
          exact ihd _ _ (by omega)
      have hlen := length_reshapeNested_le depth (g.reshapeOne n).1 (g.reshapeOne n).2
      have hrest := ih (reshapeNested depth (g.reshapeOne n).1 (g.reshapeOne n).2) (by omega)
      show List.foldl _ (reshapeNested (depth + 1) (g.reshapeOne n).1 (g.reshapeOne n).2) ns =
        List.foldl _ (reshapeNested depth (g.reshapeOne n).1 (g.reshapeOne n).2) ns
      rw [hone]
      exact hrest

/-- More depth than there are connections makes no difference. -/
theorem reshapeNested_depth {depth depth' : Nat} (ns : List NodeId)
    (h : g.connections.length ≤ depth) (h' : g.connections.length ≤ depth') :
    reshapeNested depth g ns = reshapeNested depth' g ns := by
  have hup : ∀ k, reshapeNested (g.connections.length + k) g ns =
      reshapeNested g.connections.length g ns := by
    intro k
    induction k with
    | zero => rfl
    | succ k ih => rw [← Nat.add_assoc, reshapeNested_succ _ g ns (by omega), ih]
  obtain ⟨k, rfl⟩ := Nat.exists_eq_add_of_le h
  obtain ⟨k', rfl⟩ := Nat.exists_eq_add_of_le h'
  rw [hup, hup]

/-- A reshape is followed by a reshape of every node that shrinks on account of it: the bound on the
nesting is never met. -/
theorem reshape_unfold (g : Graph κ) (n : NodeId) :
    g.reshape n = (g.reshapeOne n).2.foldl reshape (g.reshapeOne n).1 := by
  have hgo : ∀ (ns : List NodeId) (k : Graph κ) (depth : Nat), k.connections.length ≤ depth →
      reshapeNested depth k ns = ns.foldl reshape k := by
    intro ns
    induction ns with
    | nil =>
      intro k depth _
      exact reshapeNested_nil depth k
    | cons a ns ih =>
      intro k depth hc
      have ha : reshapeNested depth k [a] = k.reshape a :=
        reshapeNested_depth [a] hc (Nat.le_refl _)
      have hlen := length_reshapeNested_le depth k [a]
      rw [reshapeNested_eq_foldl, List.foldl_cons, ← reshapeNested_eq_foldl, ha, List.foldl_cons]
      rw [ha] at hlen
      exact ih _ depth (by omega)
  have hsub := (reshapeOne_connections_sublist g n).length_le
  rw [← hgo (g.reshapeOne n).2 _ g.connections.length hsub]
  have hsucc : g.reshape n = reshapeNested (g.connections.length + 1) g [n] :=
    reshapeNested_depth [n] (Nat.le_refl _) (by omega)
  exact hsucc

/-! ## Nested reshapes -/

/-- In the course of the reshape of a node `n` in a graph `g` a node is reshaped in a graph. The
path has the nodes on whose behalf this happens, from the last to the first; they are all in the
course of being reshaped. -/
inductive Calls (g : Graph κ) (n : NodeId) : List NodeId → Graph κ → NodeId → Prop
  | top : Calls g n [] g n
  | nested {path : List NodeId} {k : Graph κ} {m j : NodeId} {done rest : List NodeId}
    (h : Calls g n path k m) (hsplit : (k.reshapeOne m).2 = done ++ j :: rest) :
    Calls g n (m :: path) (done.foldl reshape (k.reshapeOne m).1) j

/-- The reshapes on behalf of a node that is reshaped cost no connection, they are at most one level
deep, and none of them comes back to a node in the course of being reshaped. -/
structure Flat (g : Graph κ) (n : NodeId) : Prop where
  keeps : ∀ path k m, g.Calls n path k m → path ≠ [] → (k.reshape m).connections = k.connections
  depth : ∀ path k m, g.Calls n path k m → path.length ≤ 1
  fresh : ∀ path k m, g.Calls n path k m → m ∉ path

theorem length_reshapes_le (g : Graph κ) (ns : List NodeId) :
    (ns.foldl reshape g).connections.length ≤ g.connections.length :=
  List.foldlRecOn (motive := fun k : Graph κ => k.connections.length ≤ g.connections.length) ns _
    (Nat.le_refl _) fun k hk n _ => (length_reshapeNested_le _ k [n]).trans hk

/-- A reshape on behalf of a node finds fewer connections than there were when that node came to be
reshaped, whichever reshapes have been made in between. -/
theorem length_nested_lt {done rest : List NodeId} {j : NodeId}
    (hsplit : (g.reshapeOne n).2 = done ++ j :: rest) :
    (done.foldl reshape (g.reshapeOne n).1).connections.length < g.connections.length :=
  (length_reshapes_le _ done).trans_lt (length_reshapeOne_lt (by simp [hsplit]))

/-- The number of connections bounds how deep reshapes are nested. -/
theorem Calls.length_le {path : List NodeId} {k : Graph κ} {m : NodeId} (h : g.Calls n path k m) :
    path.length + k.connections.length ≤ g.connections.length := by
  induction h with
  | top => simp
  | nested _ hsplit ih =>
    have hlt := length_nested_lt hsplit
    rw [List.length_cons]
    omega

/-- A node that shrinks on account of another one has a variadic group. -/
theorem hasVariadic_of_mem_reshapeOne_snd (hg : g.Ascending) {j : NodeId}
    (hj : j ∈ (g.reshapeOne n).2) :
    j ≠ n ∧ ∃ m ∈ g.nodes, m.id = j ∧ m.hasVariadic = true := by
  cases hn : g.node? n with
  | none =>
    rw [reshapeOne_of_none hn] at hj
    exact absurd hj List.not_mem_nil
  | some m₀ =>
    obtain ⟨hne, c, -, -, hresized⟩ := (mem_reshapeOne_snd hn).1 hj
    obtain ⟨m, hm, hid, hv⟩ := hasVariadic_of_resizedBy? hresized
    rcases (mem_nodes_reshapeOne hg hn).1 hm with ⟨hm, -⟩ | rfl
    · exact ⟨hne, m, hm, hid, hv⟩
    · exact absurd (hid.symm.trans (node?_mem hn).2) hne

/-- If no other node that is out of shape has a variadic group, then the reshapes on behalf of a
node cost nothing, and so they are not followed by others. -/
theorem Valid.flat (h : g.Valid stale)
    (hsingle : ∀ m ∈ g.nodes, m.id ∈ stale → m.id ≠ n → m.hasVariadic = false) : g.Flat n := by
  have hkeeps : ∀ done j rest, (g.reshapeOne n).2 = done ++ j :: rest →
      (done.foldl Graph.reshape (g.reshapeOne n).1).Keeps j ∧ j ≠ n := by
    intro done j rest hsplit
    have hj : j ∈ (g.reshapeOne n).2 := by
      rw [hsplit]
      simp
    obtain ⟨hne, m, hm, rfl, hv⟩ := hasVariadic_of_mem_reshapeOne_snd h.ascending hj
    -- A node that shrinks on account of another has a variadic group, so it is in shape.
    have hshaped : m.id ∉ stale := fun hs => by simp [hsingle m hm hs hne] at hv
    have hvalid : (done.foldl Graph.reshape (g.reshapeOne n).1).Valid stale :=
      List.foldlRecOn done _ (h.reshapeOne_mono n) fun k hk i _ =>
        (hk.reshape i).mono fun _ hi => (List.mem_filter.1 hi).1
    exact ⟨hvalid.keeps hshaped, hne⟩
  have hcalls : ∀ path k m, g.Calls n path k m →
      path = [] ∧ k = g ∧ m = n ∨ path = [n] ∧ k.Keeps m ∧ m ≠ n := by
    intro path k m hcall
    induction hcall with
    | top => exact .inl ⟨rfl, rfl, rfl⟩
    | nested _ hsplit ih =>
      rcases ih with ⟨rfl, rfl, rfl⟩ | ⟨-, hk, -⟩
      · exact .inr ⟨rfl, hkeeps _ _ _ hsplit⟩
      · -- A reshape that costs nothing makes no other node shrink.
        simp [hk.reshapeOne_snd] at hsplit
  refine ⟨fun path k m hcall hpath => ?_, fun path k m hcall => ?_, fun path k m hcall => ?_⟩
  · rcases hcalls path k m hcall with ⟨rfl, -⟩ | ⟨-, hk, -⟩
    · exact absurd rfl hpath
    · exact hk.connections_reshape
  · rcases hcalls path k m hcall with ⟨rfl, -⟩ | ⟨rfl, -⟩ <;> simp
  · rcases hcalls path k m hcall with ⟨rfl, -⟩ | ⟨rfl, -, hne⟩ <;> simp_all

/-- The one node that is out of shape is the one to be reshaped. -/
theorem Valid.flat_of_singleton (h : g.Valid [n]) : g.Flat n :=
  h.flat fun _ _ hid hne => absurd (List.mem_singleton.1 hid) hne

end Graph

end EffectGraph
