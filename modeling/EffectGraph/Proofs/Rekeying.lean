import EffectGraph.Proofs.Numbering

/-!
# Clones

A clone holds the nodes, connections and numbers of a graph under another identity. Nothing that a
graph does looks at its identity except to compare it with that of a port id, so every operation
commutes with cloning if the ids among its arguments and answers are carried over
(`Operation.outcome_clone`), and a graph and its clone that are given the same operations correspond
after each of them (`clones_correspond`).
-/

namespace EffectGraph

open EffectGraph.Graph

/-! ## Carrying ids over -/

/-- Carries the ids of one graph over to another and those of the other back. -/
def PortId.exchange (a b : Nat) (p : PortId) : PortId :=
  if p.graph = a then ⟨b, p.index⟩ else if p.graph = b then ⟨a, p.index⟩ else p

theorem PortId.exchange_index (a b : Nat) (p : PortId) : (p.exchange a b).index = p.index := by
  unfold exchange
  split
  · rfl
  · split <;> rfl

/-- The ids of the first graph become those of the second, and no others do. -/
theorem PortId.exchange_graph (a b : Nat) (p : PortId) :
    (p.exchange a b).graph = b ↔ p.graph = a := by
  unfold exchange
  split
  next h => exact ⟨fun _ => h, fun _ => rfl⟩
  next h =>
    split
    next hb => exact ⟨fun he => absurd (hb.trans he.symm) h, fun he => absurd he h⟩
    next hb => exact ⟨fun he => absurd he hb, fun he => absurd he h⟩

/-- The error of an operation whose ids are carried over. -/
def GraphError.rekey (x : PortId → PortId) : GraphError → GraphError
  | noPort p => noPort (x p)
  | e => e

section Operations

variable {κ : Type}

def Edit.rekey (x : PortId → PortId) : Edit κ → Edit κ
  | connect a b => connect (x a) (x b)
  | disconnect a b => disconnect (x a) (x b)
  | isolatePort p => isolatePort (x p)
  | e => e

theorem Edit.inPlace_rekey (x : PortId → PortId) (e : Edit κ) :
    (e.rekey x).inPlace = e.inPlace := by
  cases e <;> rfl

def Operation.rekey (x : PortId → PortId) : Operation κ → Operation κ
  | edit e h => edit (e.rekey x) ((e.inPlace_rekey x).trans h)
  | rehook hook => rehook hook

/-- A result whose value is carried over by a function and whose error by its port. -/
def carry {α β : Type} (x : PortId → PortId) (f : α → β) : Except GraphError α → Except GraphError β
  | .ok a => .ok (f a)
  | .error e => .error (e.rekey x)

theorem carry_bind_of_ok {α β γ δ : Type} {x : PortId → PortId} {f : α → β} {h : γ → δ}
    {r : Except GraphError α} {k : α → Except GraphError γ} {k' : β → Except GraphError δ}
    (hk : ∀ a, r = .ok a → k' (f a) = carry x h (k a)) :
    carry x f r >>= k' = carry x h (r >>= k) := by
  cases r with
  | ok a => exact hk a rfl
  | error e => rfl

theorem carry_bind {α β γ δ : Type} {x : PortId → PortId} {f : α → β} {h : γ → δ}
    {r : Except GraphError α} {k : α → Except GraphError γ} {k' : β → Except GraphError δ}
    (hk : ∀ a, k' (f a) = carry x h (k a)) : carry x f r >>= k' = carry x h (r >>= k) :=
  carry_bind_of_ok fun a _ => hk a

theorem carry_graph (x : PortId → PortId) (i : Nat) (reply : Reply κ)
    (r : Except GraphError (Graph κ)) :
    (carry x (Graph.clone · i) r).map (fun g => (g, reply)) =
      carry x (fun r => (r.1.clone i, r.2)) (r.map fun g => (g, reply)) := by
  cases r <;> rfl

theorem carry_pair {α : Type} (x : PortId → PortId) (i : Nat) (reply : α → Reply κ)
    (r : Except GraphError (Graph κ × α)) :
    (carry x (fun r => (r.1.clone i, r.2)) r).map (fun r => (r.1, reply r.2)) =
      carry x (fun r => (r.1.clone i, r.2)) (r.map fun r => (r.1, reply r.2)) := by
  cases r <;> rfl

/-! ## Look-ups in a clone -/

namespace Graph

variable {g : Graph κ} {i : Nat}

/-- The ids of a graph in its clone. -/
abbrev toClone (g : Graph κ) (i : Nat) : PortId → PortId := PortId.exchange g.id i

theorem toClone_portId (g : Graph κ) (i index : Nat) :
    g.toClone i (g.portId index) = (g.clone i).portId index := if_pos rfl

theorem port?_clone (p : PortId) : (g.clone i).port? (g.toClone i p) = g.port? p := by
  have hgraph : (g.toClone i p).graph = (g.clone i).id ↔ p.graph = g.id :=
    PortId.exchange_graph g.id i p
  have hindex : (g.toClone i p).index = p.index := PortId.exchange_index g.id i p
  simp only [port?, hgraph, hindex]
  rfl

theorem input?_clone (n : NodeId) (name : String) (slot : Option Nat) :
    (g.clone i).input? n name slot = (g.input? n name slot).map (g.toClone i) := by
  have hnode : (g.clone i).node? n = g.node? n := rfl
  simp only [input?, hnode, Option.map_bind, Function.comp_def, Option.map_map, toClone_portId]

theorem output?_clone (n : NodeId) (name : String) :
    (g.clone i).output? n name = (g.output? n name).map (g.toClone i) := by
  have hnode : (g.clone i).node? n = g.node? n := rfl
  simp only [output?, hnode, Option.map_bind, Function.comp_def, Option.map_map, toClone_portId]

theorem variadicSlots_clone (n : NodeId) (group : String) :
    (g.clone i).variadicSlots n group = (g.variadicSlots n group).map (g.toClone i) := by
  have hnode : (g.clone i).node? n = g.node? n := rfl
  unfold variadicSlots
  rw [hnode]
  cases g.node? n with
  | none => rfl
  | some m => simp only [List.map_map, Function.comp_def, toClone_portId]

theorem isConnected_clone (p : PortId) :
    (g.clone i).isConnected (g.toClone i p) = g.isConnected p := by
  have hgraph : (g.toClone i p).graph = (g.clone i).id ↔ p.graph = g.id :=
    PortId.exchange_graph g.id i p
  simp only [isConnected, hgraph, PortId.exchange_index]
  rfl

theorem valueSource?_clone (p : PortId) :
    (g.clone i).valueSource? (g.toClone i p) = (g.valueSource? p).map (g.toClone i) := by
  have hgraph : (g.toClone i p).graph = (g.clone i).id ↔ p.graph = g.id :=
    PortId.exchange_graph g.id i p
  have hconnections : (g.clone i).connections = g.connections := rfl
  simp only [valueSource?, hgraph, PortId.exchange_index, hconnections]
  split
  · simp only [Option.map_map, Function.comp_def, toClone_portId]
  · rfl

theorem nextControl?_clone (p : PortId) :
    (g.clone i).nextControl? (g.toClone i p) = (g.nextControl? p).map (g.toClone i) := by
  have hgraph : (g.toClone i p).graph = (g.clone i).id ↔ p.graph = g.id :=
    PortId.exchange_graph g.id i p
  have hconnections : (g.clone i).connections = g.connections := rfl
  simp only [nextControl?, hgraph, PortId.exchange_index, hconnections]
  split
  · simp only [Option.map_map, Function.comp_def, toClone_portId]
  · rfl

theorem neighbours_clone (p : PortId) :
    (g.clone i).neighbours (g.toClone i p) = (g.neighbours p).map (g.toClone i) := by
  have hgraph : (g.toClone i p).graph = (g.clone i).id ↔ p.graph = g.id :=
    PortId.exchange_graph g.id i p
  have hconnections : (g.clone i).connections = g.connections := rfl
  simp only [neighbours, hgraph, PortId.exchange_index, hconnections]
  split
  · simp only [List.map_map, Function.comp_def, toClone_portId]
  · rfl

theorem getPort_clone (p : PortId) :
    (g.clone i).getPort (g.toClone i p) = carry (g.toClone i) (fun a => a) (g.getPort p) := by
  unfold getPort
  rw [port?_clone]
  cases g.port? p <;> rfl

theorem getOutput_clone (n : NodeId) (name : String) :
    (g.clone i).getOutput n name = carry (g.toClone i) (g.toClone i) (g.getOutput n name) := by
  unfold getOutput
  rw [output?_clone]
  cases g.output? n name <;> rfl

theorem getInput_clone (n : NodeId) (name : String) (slot : Option Nat) :
    (g.clone i).getInput n name slot =
      carry (g.toClone i) (g.toClone i) (g.getInput n name slot) := by
  unfold getInput
  rw [input?_clone]
  cases g.input? n name slot <;> rfl

theorem getNode_clone (x : PortId → PortId) (n : NodeId) :
    (g.clone i).getNode n = carry x (fun a => a) (g.getNode n) := by
  have hnode : (g.clone i).node? n = g.node? n := rfl
  unfold getNode
  rw [hnode]
  cases g.node? n <;> rfl

/-! ## Reshapes of a clone -/

variable [HasSignature κ]

theorem reshapeOne_clone (g : Graph κ) (i : Nat) (n : NodeId) :
    (g.clone i).reshapeOne n = ((g.reshapeOne n).1.clone i, (g.reshapeOne n).2) := by
  have hnode : (g.clone i).node? n = g.node? n := rfl
  cases h : g.node? n with
  | none => simp only [reshapeOne, hnode, h]
  | some m =>
    simp only [reshapeOne, hnode, h]
    rfl

theorem reshapeNested_clone (i depth : Nat) (g : Graph κ) (ns : List NodeId) :
    reshapeNested depth (g.clone i) ns = (reshapeNested depth g ns).clone i := by
  induction depth generalizing g ns with
  | zero =>
    refine List.foldl_hom (Graph.clone · i) fun g n => ?_
    rw [reshapeOne_clone]
  | succ depth ih =>
    refine List.foldl_hom (Graph.clone · i) fun g n => ?_
    rw [reshapeOne_clone, ih]

theorem reshape_clone (g : Graph κ) (i : Nat) (n : NodeId) :
    (g.clone i).reshape n = (g.reshape n).clone i := reshapeNested_clone ..

theorem refresh_clone (g : Graph κ) (i : Nat) (ns : List NodeId) :
    (g.clone i).refresh ns = (g.refresh ns).clone i := by
  refine List.foldl_hom (Graph.clone · i) fun g n => ?_
  have hnode : (g.clone i).node? n = g.node? n := rfl
  rw [hnode, reshape_clone]
  split <;> rfl

theorem reshapeIf_clone (g : Graph κ) (i : Nat) (n : NodeId) (isGroup : Bool) :
    (g.clone i).reshapeIf n isGroup = (g.reshapeIf n isGroup).clone i := by
  cases isGroup with
  | true => exact reshape_clone g i n
  | false => rfl

theorem cut_clone (g : Graph κ) (i : Nat) (p : Connection → Bool) (except : List NodeId) :
    (g.clone i).cut p except = ((g.cut p except).1.clone i, (g.cut p except).2) :=
  Prod.ext (refresh_clone (g.sever p) i _) rfl

theorem join_clone (g : Graph κ) (i : Nat) (j : Joint) :
    (g.clone i).join j = (g.join j).clone i := by
  have hlinked : (g.clone i).linked j = (g.linked j).clone i := rfl
  have hsevered : (g.clone i).severed j.replaces = g.severed j.replaces := rfl
  rcases join_eq (g.clone i) j with ⟨hc, hpresent⟩ | ⟨hfree, hc⟩ <;>
    rcases join_eq g j with ⟨hg, hpresent'⟩ | ⟨hfree', hg⟩
  · rw [hc, hg]
  · obtain ⟨c, hmem, hends⟩ := hpresent
    exact absurd hends (hfree' c hmem)
  · obtain ⟨c, hmem, hends⟩ := hpresent'
    exact absurd hends (hfree c hmem)
  · rw [hc, hg, hlinked, hsevered, refresh_clone]

/-! ## Edits of a clone -/

omit [HasSignature κ] in
theorem checkConnection_clone (a b : PortId) :
    (g.clone i).checkConnection (g.toClone i a) (g.toClone i b) =
      carry (g.toClone i) (fun a => a) (g.checkConnection a b) := by
  unfold checkConnection
  rw [getPort_clone, getPort_clone]
  refine carry_bind fun p => carry_bind fun q => ?_
  split
  · rfl
  · split
    · rfl
    next joint _ =>
      have hhook : (g.clone i).hook = g.hook := rfl
      simp only [hhook]
      split <;> rfl

omit [HasSignature κ] in
theorem canConnect_clone (a b : PortId) :
    (g.clone i).canConnect (g.toClone i a) (g.toClone i b) = g.canConnect a b := by
  unfold canConnect
  rw [checkConnection_clone]
  cases g.checkConnection a b <;> rfl

theorem connect_clone (a b : PortId) :
    (g.clone i).connect (g.toClone i a) (g.toClone i b) =
      carry (g.toClone i) (Graph.clone · i) (g.connect a b) := by
  unfold connect
  rw [checkConnection_clone]
  exact carry_bind fun j => congrArg Except.ok (join_clone g i j)

theorem wire_clone (source destination : NodeId) (output input : String) :
    (g.clone i).wire source output destination input =
      carry (g.toClone i) (Graph.clone · i) (g.wire source output destination input) := by
  unfold wire
  rw [getOutput_clone, getInput_clone]
  exact carry_bind fun a => carry_bind fun b => connect_clone a b

omit [HasSignature κ] in
theorem checkKind_clone (x : PortId → PortId) (kind : NodeKind κ) :
    (g.clone i).checkKind kind = carry x (fun a => a) (g.checkKind kind) := by
  have hcheck : ∀ (pseudo : PseudoNode) (present : Option NodeId),
      (if g.signature.isNone then (.error (.noSignature pseudo) : Except GraphError Unit)
        else if present.isSome then .error (.pseudoNodes pseudo 2) else .ok ()) =
      carry x (fun a => a) (if g.signature.isNone then .error (.noSignature pseudo)
        else if present.isSome then .error (.pseudoNodes pseudo 2) else .ok ()) := by
    intro pseudo present
    split
    · rfl
    · split <;> rfl
  cases kind with
  | action k => rfl
  | entry => exact hcheck .entry g.entryNode?
  | result => exact hcheck .result g.resultNode?

theorem place_clone (n : NodeId) (kind : NodeKind κ) :
    (g.clone i).place n kind = (g.place n kind).clone i :=
  reshape_clone { g with nodes := insertNode (.fresh n kind) g.nodes } i n

theorem addNodeAt_clone (x : PortId → PortId) (n : NodeId) (kind : NodeKind κ) :
    (g.clone i).addNodeAt n kind = carry x (Graph.clone · i) (g.addNodeAt n kind) := by
  have hnode : (g.clone i).node? n = g.node? n := rfl
  unfold addNodeAt
  rw [hnode, checkKind_clone x]
  split
  · rfl
  · split
    · rfl
    · exact carry_bind fun _ => congrArg Except.ok (place_clone n kind)

theorem addNode_clone (x : PortId → PortId) (kind : NodeKind κ) :
    (g.clone i).addNode kind = carry x (fun r => (r.1.clone i, r.2)) (g.addNode kind) := by
  have hnext : (g.clone i).nextNodeId = g.nextNodeId := rfl
  simp only [addNode, hnext, addNodeAt_clone x]
  exact carry_bind fun _ => rfl

theorem isolateNode_clone (x : PortId → PortId) (n : NodeId) :
    (g.clone i).isolateNode n = carry x (fun r => (r.1.clone i, r.2)) (g.isolateNode n) := by
  unfold isolateNode
  rw [getNode_clone x]
  exact carry_bind fun m => congrArg Except.ok (cut_clone g i _ _)

theorem isolatePort_clone (p : PortId) :
    (g.clone i).isolatePort (g.toClone i p) =
      carry (g.toClone i) (fun r => (r.1.clone i, r.2)) (g.isolatePort p) := by
  unfold isolatePort
  rw [getPort_clone, PortId.exchange_index]
  exact carry_bind fun q => congrArg Except.ok (cut_clone g i _ _)

theorem disconnect_clone (a b : PortId) :
    (g.clone i).disconnect (g.toClone i a) (g.toClone i b) =
      carry (g.toClone i) (fun r => (r.1.clone i, r.2)) (g.disconnect a b) := by
  unfold disconnect
  rw [getPort_clone, getPort_clone, PortId.exchange_index, PortId.exchange_index]
  refine carry_bind fun p => carry_bind fun q => ?_
  simp only [cut_clone]
  rfl

theorem removeNode_clone (x : PortId → PortId) (n : NodeId) :
    (g.clone i).removeNode n = carry x (fun r => (r.1.clone i, r.2)) (g.removeNode n) := by
  unfold removeNode
  rw [isolateNode_clone x]
  refine carry_bind fun r => ?_
  simp only [getNode_clone x]
  exact carry_bind fun m => rfl

theorem setConst_clone (x : PortId → PortId) (n : NodeId) (name : String) (v : Value) :
    (g.clone i).setConst n name v = carry x (Graph.clone · i) (g.setConst n name v) := by
  unfold setConst
  rw [getNode_clone x]
  refine carry_bind fun m => ?_
  split <;> rfl

omit [HasSignature κ] in
theorem setPosition_clone (x : PortId → PortId) (n : NodeId) (p : Position) :
    (g.clone i).setPosition n p = carry x (Graph.clone · i) (g.setPosition n p) := by
  unfold setPosition
  rw [getNode_clone x]
  exact carry_bind fun m => rfl

theorem checkSlot_clone (x : PortId → PortId) (n : NodeId) (k : SlotKey) :
    (g.clone i).checkSlot n k = carry x (fun a => a) (g.checkSlot n k) := by
  have hdecl (m : Node κ) (name : String) : (g.clone i).slotDecl? m name = g.slotDecl? m name := rfl
  unfold checkSlot
  rw [getNode_clone x]
  refine carry_bind fun m => ?_
  rw [hdecl]
  split
  · rfl
  · split
    · rfl
    · split
      · rfl
      · split <;> rfl

theorem setDefault_clone (x : PortId → PortId) (n : NodeId) (k : SlotKey) (v : Value) :
    (g.clone i).setDefault n k v = carry x (Graph.clone · i) (g.setDefault n k v) := by
  unfold setDefault
  rw [checkSlot_clone x]
  refine carry_bind fun isGroup => congrArg Except.ok ?_
  exact reshapeIf_clone (g.updateNode n _) i n isGroup

theorem clearDefault_clone (x : PortId → PortId) (n : NodeId) (k : SlotKey) :
    (g.clone i).clearDefault n k = carry x (fun r => (r.1.clone i, r.2)) (g.clearDefault n k) := by
  unfold clearDefault
  rw [checkSlot_clone x, getNode_clone x]
  refine carry_bind fun isGroup => carry_bind fun m => congrArg Except.ok ?_
  exact Prod.ext (reshapeIf_clone (g.updateNode n _) i n isGroup) rfl

theorem redefine_clone (kind : κ) :
    (g.clone i).redefine kind = ((g.redefine kind).1.clone i, (g.redefine kind).2) := by
  refine Prod.ext (List.foldl_hom (Graph.clone · i) fun k n => ?_) rfl
  exact reshape_clone (k.updateNode n (.turn kind)) i n

theorem ensure_clone (x : PortId → PortId) (kind : NodeKind κ) (present : Option NodeId) :
    (g.clone i).ensure kind present =
      carry x (fun r => (r.1.clone i, r.2)) (g.ensure kind present) := by
  cases present with
  | some n => exact congrArg Except.ok (Prod.ext (reshape_clone g i n) rfl)
  | none =>
    unfold ensure
    rw [addNode_clone x]
    exact carry_bind fun r => rfl

theorem reshape_id (g : Graph κ) (n : NodeId) : (g.reshape n).id = g.id :=
  reshape_induct (P := fun k => k.id = g.id) (fun _ _ hk => reshapeOne_id.trans hk) rfl n

theorem ensure_id {kind : NodeKind κ} {present : Option NodeId} {r : Graph κ × Option NodeId}
    (h : g.ensure kind present = .ok r) : r.1.id = g.id := by
  rcases ensure_eq_ok.1 h with ⟨m, -, rfl⟩ | ⟨-, k, m, ha, rfl⟩
  · exact reshape_id g m
  · obtain ⟨-, -, -, rfl⟩ := addNodeAt_eq_ok.1 (addNode_eq_ok.1 ha).1
    exact reshape_id _ _

theorem setSignature_clone (s : Signature) :
    (g.clone i).setSignature s = carry (g.toClone i) (Graph.clone · i) (g.setSignature s) := by
  unfold setSignature
  refine Eq.trans (congrArg (· >>= _) (ensure_clone (g := { g with signature := some s })
    (g.toClone i) .entry g.entryNode?)) (carry_bind_of_ok fun r hr => ?_)
  refine Eq.trans (congrArg (· >>= _) (ensure_clone (g := r.1) (g.toClone i) .result
    r.1.resultNode?)) (carry_bind_of_ok fun r' hr' => ?_)
  have hentry : r.1.id = g.id := ensure_id (g := { g with signature := some s }) hr
  have hid : r'.1.id = g.id := (ensure_id hr').trans hentry
  have hwire := wire_clone (g := r'.1) (i := i)
  rw [toClone, hid] at hwire
  obtain ⟨k, _ | e⟩ := r <;> obtain ⟨k', _ | t⟩ := r'
  · rfl
  · rfl
  · rfl
  · exact hwire e t exitName enterName

/-- Every edit in place does to a clone what it does to the graph. -/
theorem outcome_clone (e : Edit κ) (h : e.inPlace = true) :
    (e.rekey (g.toClone i)).outcome (g.clone i) =
      carry (g.toClone i) (fun r => (r.1.clone i, r.2)) (e.outcome g) := by
  cases e with
  | addNode kind =>
    simp only [Edit.rekey, Edit.outcome, addNode_clone (g.toClone i)]
    exact carry_pair ..
  | addNodeAt n kind =>
    simp only [Edit.rekey, Edit.outcome, addNodeAt_clone (g.toClone i)]
    exact carry_graph ..
  | removeNode n =>
    simp only [Edit.rekey, Edit.outcome, removeNode_clone (g.toClone i)]
    exact carry_pair ..
  | setSignature s =>
    simp only [Edit.rekey, Edit.outcome, setSignature_clone]
    exact carry_graph ..
  | connect a b =>
    simp only [Edit.rekey, Edit.outcome, connect_clone]
    exact carry_graph ..
  | wire source output destination input =>
    simp only [Edit.rekey, Edit.outcome, wire_clone]
    exact carry_graph ..
  | disconnect a b =>
    simp only [Edit.rekey, Edit.outcome, disconnect_clone]
    exact carry_pair ..
  | isolatePort p =>
    simp only [Edit.rekey, Edit.outcome, isolatePort_clone]
    exact carry_pair ..
  | isolateNode n =>
    simp only [Edit.rekey, Edit.outcome, isolateNode_clone (g.toClone i)]
    exact carry_pair ..
  | setConst n name v =>
    simp only [Edit.rekey, Edit.outcome, setConst_clone (g.toClone i)]
    exact carry_graph ..
  | setDefault n k v =>
    simp only [Edit.rekey, Edit.outcome, setDefault_clone (g.toClone i)]
    exact carry_graph ..
  | clearDefault n k =>
    simp only [Edit.rekey, Edit.outcome, clearDefault_clone (g.toClone i)]
    exact carry_pair ..
  | setPosition n p =>
    simp only [Edit.rekey, Edit.outcome, setPosition_clone (g.toClone i)]
    exact carry_graph ..
  | redefine kind =>
    simp only [Edit.rekey, Edit.outcome, redefine_clone]
    rfl
  | clone j => exact absurd h (by simp [Edit.inPlace])

end Graph

/-! ## Operations on a clone -/

namespace Operation

variable [HasSignature κ] {g : Graph κ}

/-- Every operation does to a clone what it does to the graph. -/
theorem outcome_clone (g : Graph κ) (i : Nat) (o : Operation κ) :
    (o.rekey (g.toClone i)).outcome (g.clone i) =
      carry (g.toClone i) (fun r => (r.1.clone i, r.2)) (o.outcome g) := by
  cases o with
  | edit e h => exact Graph.outcome_clone e h
  | rehook hook => rfl

theorem perform_clone (g : Graph κ) (i : Nat) (o : Operation κ) :
    (o.rekey (g.toClone i)).perform (g.clone i) = (o.perform g).clone i := by
  unfold perform
  rw [outcome_clone]
  cases o.outcome g <;> rfl

theorem reply_clone (g : Graph κ) (i : Nat) (o : Operation κ) :
    (o.rekey (g.toClone i)).reply (g.clone i) = carry (g.toClone i) (fun r => r) (o.reply g) := by
  unfold reply
  rw [outcome_clone]
  cases o.outcome g <;> rfl

/-- Operations in turn do to a clone what they do to the graph. -/
theorem run_clone (h : g.Numbered) (i : Nat) (os : List (Operation κ)) :
    (os.map (rekey (g.toClone i))).foldl perform (g.clone i) = (os.foldl perform g).clone i ∧
      replies (g.clone i) (os.map (rekey (g.toClone i))) =
        (replies g os).map (carry (g.toClone i) fun r => r) := by
  induction os generalizing g with
  | nil => exact ⟨rfl, rfl⟩
  | cons o os ih =>
    have hevolves := o.evolves_perform h
    obtain ⟨hgraph, hreplies⟩ := ih hevolves.numbered
    rw [toClone, hevolves.id] at hgraph hreplies
    simp only [List.map_cons, List.foldl_cons, replies, perform_clone, reply_clone]
    exact ⟨hgraph, congrArg _ hreplies⟩

end Operation

/-! ## Corresponding graphs -/

/-- A graph shows, with the ids of its ports carried over, what another one shows. -/
structure Graph.CopiedBy [HasSignature κ] (x : PortId → PortId) (g c : Graph κ) : Prop where
  /-- The nodes with their ids, kinds and stored values and with the numbers, declarations and slots
  of their ports. -/
  nodes : c.nodes = g.nodes
  connections : c.connections = g.connections
  nextPort : c.nextPort = g.nextPort
  signature : c.signature = g.signature
  hook : c.hook = g.hook
  port? : ∀ p, c.port? (x p) = g.port? p
  input? : ∀ n name slot, c.input? n name slot = (g.input? n name slot).map x
  output? : ∀ n name, c.output? n name = (g.output? n name).map x
  variadicSlots : ∀ n group, c.variadicSlots n group = (g.variadicSlots n group).map x
  canConnect : ∀ a b, c.canConnect (x a) (x b) = g.canConnect a b
  isConnected : ∀ p, c.isConnected (x p) = g.isConnected p
  valueSource? : ∀ p, c.valueSource? (x p) = (g.valueSource? p).map x
  nextControl? : ∀ p, c.nextControl? (x p) = (g.nextControl? p).map x
  neighbours : ∀ p, c.neighbours (x p) = (g.neighbours p).map x
  snapshot : Snapshot.ofGraph c = Snapshot.ofGraph g

theorem Graph.copiedBy_clone [HasSignature κ] (g : Graph κ) (i : Nat) :
    g.CopiedBy (g.toClone i) (g.clone i) where
  nodes := rfl
  connections := rfl
  nextPort := rfl
  signature := rfl
  hook := rfl
  port? := port?_clone
  input? := input?_clone
  output? := output?_clone
  variadicSlots := variadicSlots_clone
  canConnect := canConnect_clone
  isConnected := isConnected_clone
  valueSource? := valueSource?_clone
  nextControl? := nextControl?_clone
  neighbours := neighbours_clone
  snapshot := rfl

end Operations

open World in
/-- After any acts that follow the cloning of a graph, in whatever order they concern the graph, the
clone and others, the graph and the clone are each what the operations on itself have made of it. If
these were the same for both, with the ids carried over, then the two correspond, and the operations
have given back the same, or have been refused with the same errors, with the ids carried over. The
counters are to be in range (see `Graph.nextPort`); what is said of the clone before the first
operation holds by the way that graphs are represented. -/
theorem clones_correspond (first : Nat) (before : List Act) (k : Nat) (g : Graph Definition)
    (hg : ((start first).run before).graphs[k]? = some g) (after : List Act) :
    let w := (start first).run before
    let x := PortId.exchange g.id w.nextId
    let copied := w.step (.cloned k)
    let onGraph := Act.callsOn k after
    let onClone := Act.callsOn w.graphs.length after
    ∃ g' c', (copied.run after).graphs[k]? = some g' ∧
      (copied.run after).graphs[w.graphs.length]? = some c' ∧
      g' = onGraph.foldl Operation.perform g ∧
      c' = onClone.foldl Operation.perform (g.clone w.nextId) ∧ c'.id ≠ g'.id ∧
      (onClone = onGraph.map (Operation.rekey x) → g'.CopiedBy x c' ∧
        copied.replies w.graphs.length after =
          (copied.replies k after).map (carry x fun reply => reply)) := by
  intro w x copied onGraph onClone
  have hsound : w.Sound := ((sound_start first).run before).1
  have hnumbered : g.Numbered := hsound.numbered hg
  have hcopied : copied = w.enter (some (g.clone w.nextId)) := by
    simp only [copied, step, show w.graphs[k]? = some g from hg]
  have hgraph : copied.graphs[k]? = some g := hcopied ▸ getElem?_enter hg _
  have hclone : copied.graphs[w.graphs.length]? = some (g.clone w.nextId) := by
    simp [hcopied, enter]
  obtain ⟨hrun, hreplies⟩ := run_apart hgraph after
  obtain ⟨hrun', hreplies'⟩ := run_apart hclone after
  refine ⟨_, _, hrun, hrun', rfl, rfl, fun hid => ?_, fun hsame => ?_⟩
  · have hdistinct := (hsound.step (.cloned k)).1.run after |>.1
    have hplace := hdistinct.distinct hrun' hrun hid
    have hlt := (List.getElem?_eq_some_iff.1 hg).1
    exact absurd hplace (Nat.ne_of_gt hlt)
  · obtain ⟨hfold, hfoldReplies⟩ := Operation.run_clone hnumbered w.nextId onGraph
    have hx : x = (onGraph.foldl Operation.perform g).toClone w.nextId := by
      obtain ⟨g'', hg'', hevolves⟩ := ((hsound.step (.cloned k)).1.run after).2 k g hgraph
      obtain rfl := Option.some.inj (hg''.symm.trans hrun)
      rw [toClone, hevolves.id]
    constructor
    · rw [show Act.callsOn w.graphs.length after = _ from hsame, hfold, hx]
      exact copiedBy_clone _ _
    · rw [hreplies', hreplies, show Act.callsOn w.graphs.length after = _ from hsame]
      exact hfoldReplies

/-- In the clone and in the graph the same slot is closed, and then an id of it is used in vain. -/
def closedTwice : List Act :=
  [.disconnected 1 ⟨2, 3⟩ ⟨2, 5⟩,
    .disconnected 0 ⟨1, 3⟩ ⟨1, 5⟩,
    .called 0 (.edit (.isolatePort ⟨1, 8⟩) rfl),
    .called 1 (.edit (.isolatePort ⟨2, 8⟩) rfl)]

open World in
theorem clones_correspond_gatherHistory :
    (∃ g, ((start 1).run (gatherHistory.take 4)).graphs[0]? = some g ∧ g.id = 1) ∧
      Act.callsOn 1 closedTwice = (Act.callsOn 0 closedTwice).map (.rekey (.exchange 1 2)) ∧
      ∃ g' c', (moment 1 gatherHistory 5 |>.run closedTwice).graphs[0]? = some g' ∧
        (moment 1 gatherHistory 5 |>.run closedTwice).graphs[1]? = some c' ∧
        g'.port? ⟨1, 8⟩ = none ∧ g'.CopiedBy (.exchange 1 2) c' ∧ c'.port? ⟨2, 8⟩ = none := by
  have hsame : Act.callsOn 1 closedTwice =
    (Act.callsOn 0 closedTwice).map (.rekey (.exchange 1 2)) := rfl
  obtain ⟨g, hg⟩ : ∃ g, ((start 1).run (gatherHistory.take 4)).graphs[0]? = some g := ⟨_, rfl⟩
  have hid : g.id = 1 := by
    have hids : (((start 1).run (gatherHistory.take 4)).graphs[0]?.map (·.id)) = some 1 := by decide
    rw [hg] at hids
    exact Option.some.inj hids
  obtain ⟨g', c', hg', hc', -, -, -, hcopied⟩ :=
    clones_correspond 1 (gatherHistory.take 4) 0 g hg closedTwice
  rw [hid] at hcopied
  obtain ⟨hcopy, -⟩ := hcopied hsame
  have hgraph : (moment 1 gatherHistory 5 |>.run closedTwice).graphs[0]? = some g' := hg'
  have hgone : g'.port? ⟨1, 8⟩ = none := by
    have hport : (moment 1 gatherHistory 5 |>.run closedTwice).port? 0 ⟨1, 8⟩ = none := by decide
    rwa [World.port?, hgraph, Option.bind_some] at hport
  exact ⟨⟨g, hg, hid⟩, hsame, g', c', hgraph, hc', hgone, hcopy, (hcopy.port? ⟨1, 8⟩).trans hgone⟩

end EffectGraph
