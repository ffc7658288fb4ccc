import EffectGraph.Proofs.Reachable

/-!
# Edits in place

The edits of `Graph.Edit` make a new graph. Here the same edits, and the rebuild of a snapshot,
write to one graph store by store, and a check may stand between two stores: an error then leaves
behind whatever was written before it. A draft remembers whether anything has been written, so that
an error after the first store can be told from one before it, and which nodes were to be reshaped
in which graphs.

`Follows P clean x g r` says that from the graph `g` a procedure does what the edit with the outcome
`r` does, that the reshapes which it asks for have the property `P`, and, if it is to be clean, that
it has done nothing if it fails. There is one such lemma for each edit, in `Proofs.Refusal`, and
what is to be known of edits in place is read off it.
-/

namespace EffectGraph

/-- A graph under edit. -/
structure Draft (κ : Type) where
  graph : Graph κ
  /-- Whether anything has been written. -/
  written : Bool
  /-- The reshapes asked for, oldest first: each the graph as it was and the node. -/
  reshapes : List (Graph κ × NodeId)

/-- The draft of a graph to which nothing has been done. -/
def Draft.of {κ : Type} (g : Graph κ) : Draft κ := ⟨g, false, []⟩

/-- An edit in place. An error does not take back what has been written. -/
abbrev Procedure (κ : Type) := EStateM GraphError (Draft κ)

variable {κ : Type}

namespace Procedure

variable {α β : Type}

def look (q : Graph κ → α) : Procedure κ α := fun d => .ok (q d.graph) d

/-- A check, which reads the graph and may fail. -/
def check (c : Graph κ → Except GraphError α) : Procedure κ α := fun d =>
  match c d.graph with
  | .ok a => .ok a d
  | .error e => .error e d

def write (f : Graph κ → Graph κ) : Procedure κ Unit := fun d =>
  .ok () { d with graph := f d.graph, written := true }

/-- Remembers that a node is to be reshaped. -/
def noteReshape (n : NodeId) : Procedure κ Unit := fun d =>
  .ok () { d with reshapes := d.reshapes ++ [(d.graph, n)] }

/-- The outcome of a procedure from a graph, and the reshapes that it asks for. -/
def watch (x : Procedure κ Unit) (g : Graph κ) :
    Except GraphError (Graph κ) × List (Graph κ × NodeId) :=
  match x.run (.of g) with
  | .ok _ d => (.ok d.graph, d.reshapes)
  | .error e d => (.error e, d.reshapes)

variable [HasSignature κ]

/-! ## Shapes -/

/-- Gives a node its wanted ports. The answer lists the other nodes that may have to shrink. -/
def reshapeOne (n : NodeId) : Procedure κ (List NodeId) := do
  let _ ← check (·.getNode n)
  let affected ← look fun g => (g.reshapeOne n).2
  write fun g => (g.reshapeOne n).1
  return affected

/-- Reshapes a node and then, one after another, the nodes that shrink on account of it. -/
def reshapeNested : Nat → NodeId → Procedure κ Unit
  | 0, n => do let _ ← reshapeOne n
  | depth + 1, n => do
    let affected ← reshapeOne n
    affected.forM (reshapeNested depth)

def reshape (n : NodeId) : Procedure κ Unit := do
  noteReshape n
  let depth ← look (·.connections.length)
  reshapeNested depth n

def refresh (ns : List NodeId) : Procedure κ Unit :=
  (sortIds ns).forM fun n => do
    if ← look fun g => (g.node? n).any (·.hasVariadic) then reshape n

/-- Drops the connections that pass a test. The answer lists the nodes that this may resize. -/
def sever (p : Connection → Bool) : Procedure κ (List NodeId) := do
  let affected ← look (·.severed p)
  write (·.sever p)
  return affected

/-! ## Nodes -/

def addNodeAt (n : NodeId) (kind : NodeKind κ) : Procedure κ Unit := do
  if n.number = 0 then throw .zeroId
  else if ← look fun g => (g.node? n).isSome then throw (.idTaken n)
  else
    check (·.checkKind kind)
    write fun g => { g with nodes := Graph.insertNode (.fresh n kind) g.nodes }
    reshape n

def addNode (kind : NodeKind κ) : Procedure κ NodeId := do
  let n ← look (·.nextNodeId)
  addNodeAt n kind
  return n

def setPosition (n : NodeId) (p : Position) : Procedure κ Unit := do
  let _ ← check (·.getNode n)
  write (·.updateNode n fun m => { m with position := p })

/-! ## Connections -/

/-- Makes a connection in the stead of those that it replaces. The node of a value input is looked
up only after that. -/
def link (j : Graph.Joint) : Procedure κ Unit := do
  let affected ← sever j.replaces
  write fun g => { g with connections := g.connections ++ [j.connection] }
  match j.kind with
  | .value => do
    let placed ← check fun g => g.getPort (g.portId j.destination.port.index)
    refresh (affected ++ [placed.node])
  | .control => refresh affected

def connect (a b : PortId) : Procedure κ Unit := do
  let j ← check (·.checkConnection a b)
  if ← look (·.connections.any fun c =>
      c.source = j.source.port.index && c.destination = j.destination.port.index) then
    return
  else link j

def wire (source : NodeId) (output : String) (destination : NodeId) (input : String) :
    Procedure κ Unit := do
  let a ← check (·.getOutput source output)
  let b ← check (·.getInput destination input none)
  connect a b

/-- Drops the connections that pass a test and reshapes the nodes that this resizes, the nodes of a
given list apart. The answer counts the connections dropped. -/
def cut (p : Connection → Bool) (except : List NodeId) : Procedure κ Nat := do
  let before ← look (·.connections.length)
  let affected ← sever p
  let after ← look (·.connections.length)
  refresh (affected.filter fun n => !except.contains n)
  return before - after

def disconnect (a b : PortId) : Procedure κ Bool := do
  let _ ← check (·.getPort a)
  let _ ← check (·.getPort b)
  let count ← cut (Graph.between a b) []
  return count ≠ 0

def isolatePort (p : PortId) : Procedure κ Nat := do
  let _ ← check (·.getPort p)
  cut (·.touches p.index) []

def isolateNode (n : NodeId) : Procedure κ Nat := do
  let m ← check (·.getNode n)
  cut (Graph.touchesNode m) [n]

def removeNode (n : NodeId) : Procedure κ (Node κ) := do
  let _ ← isolateNode n
  let m ← check (·.getNode n)
  write (·.without n)
  return m

/-! ## Stored values -/

def setConst (n : NodeId) (name : String) (v : Value) : Procedure κ Unit := do
  let m ← check (·.getNode n)
  if m.signature?.any fun s => (s.const? name).isSome then
    write (·.updateNode n fun m => { m with consts := m.consts.insert name v })
  else throw (.noSuchPort n name none)

/-- Changes the defaults of a node, which is reshaped if a slot of a group is concerned. -/
def updateDefaults (n : NodeId) (f : Table SlotKey Value → Table SlotKey Value) (isGroup : Bool) :
    Procedure κ Unit := do
  write (·.updateNode n (.mapDefaults f))
  if isGroup then reshape n

def setDefault (n : NodeId) (k : SlotKey) (v : Value) : Procedure κ Unit := do
  let isGroup ← check (·.checkSlot n k)
  let _ ← check (·.getNode n)
  updateDefaults n (·.insert k v) isGroup

def clearDefault (n : NodeId) (k : SlotKey) : Procedure κ (Option Value) := do
  let isGroup ← check (·.checkSlot n k)
  let m ← check (·.getNode n)
  updateDefaults n (·.erase k) isGroup
  return m.defaults.get? k

/-! ## Signatures and kinds -/

def ensure (kind : NodeKind κ) : Option NodeId → Procedure κ (Option NodeId)
  | some n => do
    reshape n
    return none
  | none => do
    let n ← addNode kind
    return some n

def setSignature (s : Signature) : Procedure κ Unit := do
  write fun g => { g with signature := some s }
  let entry ← ensure .entry (← look (·.entryNode?))
  let result ← ensure .result (← look (·.resultNode?))
  match entry, result with
  | some e, some r => wire e exitName r enterName
  | _, _ => return

def redefineNode (kind : κ) (n : NodeId) : Procedure κ Unit := do
  let _ ← check (·.getNode n)
  write (·.updateNode n (.turn kind))
  reshape n

def redefine (kind : κ) : Procedure κ Nat := do
  let targets ← look (·.nodesOfKind (HasSignature.signature kind).name)
  targets.forM (redefineNode kind)
  return targets.length

/-! ## Rebuilding -/

def restoreConsts (n : NodeId) : List (String × Value) → Procedure κ Unit
  | [] => return
  | (name, v) :: rest => do
    setConst n name v
    restoreConsts n rest

def restoreDefaults (n : NodeId) : List (String × Value) → Procedure κ Unit
  | [] => return
  | (text, v) :: rest =>
    match SlotKey.ofText? text with
    | none => throw (.codec (.slotIndex text))
    | some k => do
      setDefault n k v
      restoreDefaults n rest

def placeNode (c : Catalog) (r : NodeRecord) : Procedure Definition Unit := do
  let kind ← check fun _ => Snapshot.kindOf c r
  let n : NodeId := ⟨r.id⟩
  addNodeAt n kind
  setPosition n r.position
  restoreConsts n r.consts.entries
  restoreDefaults n r.defaults.entries

def hold (n : NodeId) (group : String) (index : Nat) : Procedure κ Unit := do
  let _ ← check (·.checkSlot n ⟨group, some index⟩)
  write (·.updateNode n (Graph.raised group index))
  reshape n

def holdSlot (r : ConnectionRecord) : Procedure κ Unit :=
  match Snapshot.slotOf r with
  | none => return
  | some i => hold ⟨r.destNode⟩ r.destPort i

def restoreConnection (r : ConnectionRecord) : Procedure κ Unit := do
  let source ← check (·.getOutput ⟨r.sourceNode⟩ r.sourcePort)
  let destination ← check (·.getInput ⟨r.destNode⟩ r.destPort (Snapshot.slotOf r))
  let port ← check (·.getPort source)
  let actual : ConnectionKind := if port.port.decl.isControl then .control else .value
  if actual ≠ r.kind then
    throw (.wrongKind ⟨r.sourceNode⟩ r.sourcePort ⟨r.destNode⟩ r.destPort r.kind actual)
  else connect source destination

def release : Procedure κ Unit := do
  let holding ← look (·.holding)
  write (·.unheld)
  holding.forM reshape

def rebuild (c : Catalog) (s : Snapshot) : Procedure Definition Unit := do
  s.nodes.forM (placeNode c)
  s.connections.forM holdSlot
  s.connections.forM restoreConnection
  release

end Procedure

/-- The procedure of an edit, its answer left out. -/
def Edit.procedure [HasSignature κ] : Edit κ → Procedure κ Unit
  | addNode kind => do let _ ← Procedure.addNode kind
  | addNodeAt n kind => Procedure.addNodeAt n kind
  | removeNode n => do let _ ← Procedure.removeNode n
  | setSignature s => Procedure.setSignature s
  | connect a b => Procedure.connect a b
  | wire source output destination input => Procedure.wire source output destination input
  | disconnect a b => do let _ ← Procedure.disconnect a b
  | isolatePort p => do let _ ← Procedure.isolatePort p
  | isolateNode n => do let _ ← Procedure.isolateNode n
  | setConst n name v => Procedure.setConst n name v
  | setDefault n k v => Procedure.setDefault n k v
  | clearDefault n k => do let _ ← Procedure.clearDefault n k
  | setPosition n p => Procedure.setPosition n p
  | redefine kind => do let _ ← Procedure.redefine kind
  | clone id => Procedure.write (·.clone id)

/-! ## What procedures do -/

/-- The reshapes asked for so far have a property. -/
def Draft.Asks (P : Graph κ → NodeId → Prop) (d : Draft κ) : Prop :=
  ∀ c ∈ d.reshapes, P c.1 c.2

/-- The procedure does what the edit with the given outcome does, and the reshapes that it asks for
have a property. A clean one has done nothing if it fails. -/
def Procedure.Follows {α : Type} (P : Graph κ → NodeId → Prop) (clean : Prop)
    (x : Procedure κ α) (g : Graph κ) : Except GraphError (Graph κ × α) → Prop
  | .ok r => ∀ d, d.graph = g → d.Asks P → ∃ d', x d = .ok r.2 d' ∧ d'.graph = r.1 ∧ d'.Asks P
  | .error e => ∀ d, d.graph = g → d.Asks P →
    ∃ d', x d = .error e d' ∧ d'.Asks P ∧ (clean → d' = d)

namespace Procedure

variable {α β : Type} {P : Graph κ → NodeId → Prop} {clean : Prop} {g g' : Graph κ}

theorem follows_pure (a : α) : (pure a : Procedure κ α).Follows P clean g (.ok (g, a)) :=
  fun d hd hP => ⟨d, rfl, hd, hP⟩

theorem follows_throw (e : GraphError) :
    (throw e : Procedure κ α).Follows P clean g (.error e) :=
  fun d _ hP => ⟨d, rfl, hP, fun _ => rfl⟩

theorem follows_write (f : Graph κ → Graph κ) : (write f).Follows P clean g (.ok (f g, ())) :=
  fun _ hd hP => ⟨_, rfl, congrArg f hd, hP⟩

theorem follows_noteReshape {n : NodeId} (h : P g n) :
    (noteReshape n).Follows P clean g (.ok (g, ())) := by
  rintro d rfl hP
  refine ⟨_, rfl, rfl, fun c hc => ?_⟩
  rcases List.mem_append.1 hc with hc | hc
  · exact hP c hc
  · obtain rfl := List.mem_singleton.1 hc
    exact h

theorem Follows.congr {x y : Procedure κ α} {r : Except GraphError (Graph κ × α)}
    (h : y.Follows P clean g r) (hxy : ∀ d, d.graph = g → x d = y d) : x.Follows P clean g r := by
  cases r with
  | ok r => exact fun d hd hP => hxy d hd ▸ h d hd hP
  | error e => exact fun d hd hP => hxy d hd ▸ h d hd hP

/-- A reading goes on with what it has read. -/
theorem Follows.after_look {q : Graph κ → α} {f : α → Procedure κ β}
    {r : Except GraphError (Graph κ × β)}
    (h : (f (q g)).Follows P clean g r) : (look q >>= f).Follows P clean g r :=
  h.congr fun _ hd => hd ▸ rfl

theorem check_bind {c : Graph κ → Except GraphError α} (f : α → Procedure κ β) (d : Draft κ) :
    (check c >>= f) d = match c d.graph with | .ok a => f a d | .error e => .error e d := by
  show EStateM.bind (check c) f d = _
  unfold EStateM.bind check
  cases c d.graph <;> rfl

/-- A check that holds may stand anywhere. -/
theorem Follows.after_check_ok {c : Graph κ → Except GraphError α} {f : α → Procedure κ β} {a : α}
    {r : Except GraphError (Graph κ × β)} (hc : c g = .ok a) (h : (f a).Follows P clean g r) :
    (check c >>= f).Follows P clean g r :=
  h.congr fun d hd => by rw [check_bind, hd, hc]

/-- What comes after a check may still fail, since a check does nothing. -/
theorem Follows.after_check {c : Graph κ → Except GraphError α} {f : α → Procedure κ β}
    {r : α → Except GraphError (Graph κ × β)}
    (h : ∀ a, c g = .ok a → (f a).Follows P clean g (r a)) :
    (check c >>= f).Follows P clean g (c g >>= r) := by
  cases hc : c g with
  | ok a => exact (h a hc).after_check_ok hc
  | error e => exact (follows_throw e).congr fun d hd => by rw [check_bind, hd, hc]; rfl

/-- In a procedure that need not be clean, anything may come after a step that succeeds. -/
theorem Follows.bind_lax {x : Procedure κ α} {f : α → Procedure κ β} {a : α}
    {r : Except GraphError (Graph κ × β)} (hx : x.Follows P False g (.ok (g', a)))
    (hf : (f a).Follows P False g' r) : (x >>= f).Follows P False g r := by
  have hbind : ∀ d d', x d = .ok a d' → (x >>= f) d = f a d' := by
    intro d d' hrun
    show EStateM.bind x f d = _
    unfold EStateM.bind
    rw [hrun]
  cases r with
  | ok r =>
    intro d hd hP
    obtain ⟨d', hrun, hd', hP'⟩ := hx d hd hP
    rw [hbind d d' hrun]
    exact hf d' hd' hP'
  | error e =>
    intro d hd hP
    obtain ⟨d', hrun, hd', hP'⟩ := hx d hd hP
    obtain ⟨d'', hrun', hP'', -⟩ := hf d' hd' hP'
    exact ⟨d'', (hbind d d' hrun).trans hrun', hP'', False.elim⟩

/-- In a clean procedure what comes after a store has to succeed. -/
theorem Follows.bind {x : Procedure κ α} {f : α → Procedure κ β} {a : α} {r : Graph κ × β}
    (hx : x.Follows P clean g (.ok (g', a))) (hf : (f a).Follows P clean g' (.ok r)) :
    (x >>= f).Follows P clean g (.ok r) :=
  Follows.bind_lax (r := .ok r) hx hf

theorem Follows.bind_error {x : Procedure κ α} {f : α → Procedure κ β} {e : GraphError}
    (hx : x.Follows P clean g (.error e)) : (x >>= f).Follows P clean g (.error e) := by
  intro d hd hP
  obtain ⟨d', hrun, hdone⟩ := hx d hd hP
  refine ⟨d', ?_, hdone⟩
  show EStateM.bind x f d = _
  unfold EStateM.bind
  rw [hrun]

/-- Both steps may fail. -/
theorem Follows.andThen {x : Procedure κ α} {f : α → Procedure κ β}
    {r : Except GraphError (Graph κ × α)} {s : Graph κ × α → Except GraphError (Graph κ × β)}
    (hx : x.Follows P False g r) (hf : ∀ p, r = .ok p → (f p.2).Follows P False p.1 (s p)) :
    (x >>= f).Follows P False g (r >>= s) := by
  cases r with
  | error e => exact hx.bind_error
  | ok p => exact hx.bind_lax (hf p rfl)

/-- Both steps may fail, the first of which has no answer. -/
theorem Follows.next {x : Procedure κ Unit} {f : Unit → Procedure κ β}
    {r : Except GraphError (Graph κ)} {s : Graph κ → Except GraphError (Graph κ × β)}
    (hx : x.Follows P False g (r.map (·, ())))
    (hf : ∀ g', r = .ok g' → (f ()).Follows P False g' (s g')) :
    (x >>= f).Follows P False g (r >>= s) := by
  cases r with
  | error e => exact hx.bind_error
  | ok g' => exact hx.bind_lax (hf g' rfl)

theorem Follows.map {x : Procedure κ α} {r : Except GraphError (Graph κ × α)} (f : α → β)
    (h : x.Follows P clean g r) :
    (x >>= fun a => pure (f a)).Follows P clean g (r.map fun p => (p.1, f p.2)) := by
  cases r with
  | ok p => exact h.bind (follows_pure (f p.2))
  | error e => exact h.bind_error

/-- A loop does what its steps do, one after another, as long as each finds what it needs. -/
theorem follows_forM {γ : Type} {f : γ → Procedure κ Unit} {t : Graph κ → γ → Graph κ}
    {I : Graph κ → Prop} {xs : List γ}
    (hf : ∀ g, I g → ∀ x ∈ xs, (f x).Follows P clean g (.ok (t g x, ())))
    (ht : ∀ g, I g → ∀ x ∈ xs, I (t g x)) (hg : I g) :
    (xs.forM f).Follows P clean g (.ok (xs.foldl t g, ())) := by
  induction xs generalizing g with
  | nil => exact follows_pure ()
  | cons x xs ih =>
    refine (hf g hg x List.mem_cons_self).bind (ih (fun g hg y hy => ?_) (fun g hg y hy => ?_) ?_)
    · exact hf g hg y (List.mem_cons_of_mem _ hy)
    · exact ht g hg y (List.mem_cons_of_mem _ hy)
    · exact ht g hg x List.mem_cons_self

/-- What a procedure comes to from a graph is the outcome of the edit that it follows. -/
theorem Follows.watch {x : Procedure κ Unit} {r : Except GraphError (Graph κ)}
    (h : x.Follows P clean g (r.map (·, ()))) :
    (x.watch g).1 = r ∧ ∀ c ∈ (x.watch g).2, P c.1 c.2 := by
  have hstart : (Draft.of g).Asks P := fun c hc => absurd hc List.not_mem_nil
  unfold Procedure.watch EStateM.run
  cases r with
  | ok g' =>
    obtain ⟨d, hrun, rfl, hP⟩ := h (.of g) rfl hstart
    rw [hrun]
    exact ⟨rfl, hP⟩
  | error e =>
    obtain ⟨d, hrun, hP, -⟩ := h (.of g) rfl hstart
    rw [hrun]
    exact ⟨rfl, hP⟩

end Procedure

end EffectGraph
