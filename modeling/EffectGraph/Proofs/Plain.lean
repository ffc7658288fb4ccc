import EffectGraph.Flow.Run
import Mathlib.Data.List.Basic

/-!
# Values without memoization

The plain value of a port (`Setting.plainAt`) is had by recursion over the graph alone: an input has
the value of the output that it is connected to, or its default, and an output what the body of its
node computes from the values of its inputs. No memory is involved and no node is run. The recursion
is cut off at a level, since the connections of a graph may lead in a circle; a value that is had at
some level is had at every higher one (`Setting.plainAt_mono`).

The outputs of Entry have the defaults of their types. In the inner graph of a generated kind they
stand for the inputs and constants of the kind, and values may be given for them by name
(`Setting.plainWith`).
-/

namespace EffectGraph

/-- What a body leaves behind whose only requests are messages to the log. -/
def Program.outcome? : Program (Except BodyError Outcome) → Option Outcome
  | .pure (.ok o) => some o
  | .pure (.error _) => none
  | .ask (.log _ _) next => (next ()).outcome?
  | .ask _ _ => none

/-- A value that belongs to the target type is left alone. -/
theorem Value.convert_of_belongsTo {hook : ConversionHook} {t : ValueType} {v : Value}
    (h : v.belongsTo t = true) : v.convert hook t = v := by
  have hdirect : v.convertDirectly? hook t = some v := if_pos h
  cases t <;> cases v <;> simp [Value.convert, Value.convertScalar, hdirect]

theorem Value.convert_default (hook : ConversionHook) (t : ValueType) :
    t.default.convert hook t = t.default := convert_of_belongsTo t.default_belongsTo

namespace Setting

/-! ## The plain value of a port -/

section Values

variable (s : Setting) (value : PortId → Option Value)

/-- The argument for a declared input of a node from the values of ports. -/
def plainArgument (n : NodeId) (d : PortDecl) : Option Value :=
  if d.isVariadic then ((s.graph.variadicSlots n d.name).mapM value).map .array
  else (s.graph.input? n d.name none).bind value

/-- The arguments for the parameters of a method from the values of ports. -/
def plainArgs (node : Node Definition) : List MethodParam → Table String Value →
    Option (Table String Value)
  | [], args => some args
  | .input d :: ps, args =>
    (s.plainArgument value node.id d).bind fun v => plainArgs node ps (args.insert d.name v)
  | .const d :: ps, args =>
    plainArgs node ps (args.insert d.name ((Engine.constant node d.name).convert s.hook d.type))
  | .ambient name context :: ps, args =>
    plainArgs node ps (args.insert name (s.environment.resolve context))
  | .out _ :: ps, args => plainArgs node ps args
  | .branch _ :: ps, args => plainArgs node ps args

/-- What the body of a node computes for an output from the values of ports. -/
def plainOutput (node : Node Definition) (m : Method) (name : String) : Option Value := do
  let args ← s.plainArgs value node m.params .empty
  let outcome ← (m.body ⟨node.id, args, s.environment⟩).outcome?
  (Engine.outputsOf m outcome).lookup name

/-- The value of an output of a node before it is converted to the type of the output. -/
def plainResult (node : Node Definition) (p : PlacedPort) : Option Value :=
  match node.kind with
  | .entry => some p.port.decl.type.default
  | .result => none
  | .action d =>
    match d.behaviour with
    | .method m => s.plainOutput value node m p.port.decl.name
    | .generated _ => none

/-- The value of a value port from the values of others. -/
def plainPort (p : PortId) : Option Value := do
  let port ← s.graph.port? p
  match port.role with
  | .valueInput =>
    match s.graph.valueSource? p with
    | some source => (value source).map (s.coerce port)
    | none => some (s.coerce port (s.unconnected port))
  | .valueOutput =>
    ((s.graph.node? port.node).bind (s.plainResult value · port)).map (s.coerce port)
  | _ => none

end Values

variable {s : Setting}

/-- The plain value of a port, if the recursion comes to an end within the given level. -/
def plainAt (s : Setting) : Nat → PortId → Option Value
  | 0, _ => none
  | k + 1, p => s.plainPort (fun q => plainAt s k q) p

/-- The value that is given by name for an output of Entry, converted to the type of the output. -/
def givenAt (s : Setting) (given : Table String Value) (p : PortId) : Option Value := do
  let port ← s.graph.port? p
  let node ← s.graph.node? port.node
  match node.kind, port.role with
  | .entry, .valueOutput => (given.get? port.port.decl.name).map (s.coerce port)
  | _, _ => none

/-- The plain value of a port with values given for outputs of Entry. -/
def plainWith (s : Setting) (given : Table String Value) : Nat → PortId → Option Value
  | 0, _ => none
  | k + 1, p => s.givenAt given p <|> s.plainPort (fun q => plainWith s given k q) p

theorem givenAt_eq_some {given : Table String Value} {p : PortId} {v : Value} :
    s.givenAt given p = some v ↔ ∃ port node w, s.graph.port? p = some port ∧
      s.graph.node? port.node = some node ∧ node.kind = .entry ∧ port.role = .valueOutput ∧
      given.get? port.port.decl.name = some w ∧ s.coerce port w = v := by
  simp only [givenAt, Option.bind_eq_bind, Option.bind_eq_some_iff]
  constructor
  · rintro ⟨port, hport, node, hnode, h⟩
    split at h
    next hkind hrole =>
      obtain ⟨w, hw, hv⟩ := Option.map_eq_some_iff.1 h
      exact ⟨port, node, w, hport, hnode, hkind, hrole, hw, hv⟩
    next => exact absurd h (by simp)
  · rintro ⟨port, node, w, hport, hnode, hkind, hrole, hw, rfl⟩
    exact ⟨port, hport, node, hnode, by simp [hkind, hrole, hw]⟩

theorem givenAt_empty (p : PortId) : s.givenAt .empty p = none := by
  refine Option.eq_none_iff_forall_ne_some.2 fun v hv => ?_
  obtain ⟨port, node, w, -, -, -, -, hw, -⟩ := givenAt_eq_some.1 hv
  simp at hw

/-- With nothing given the values are the plain ones. -/
theorem plainWith_empty (k : Nat) : s.plainWith .empty k = s.plainAt k := by
  induction k with
  | zero => rfl
  | succ k ih =>
    funext p
    simp only [plainWith, plainAt, givenAt_empty, ih]
    rfl

/-! ## Higher levels -/

/-- One assignment of values to ports extends another. -/
def Extends (value value' : PortId → Option Value) : Prop :=
  ∀ p v, value p = some v → value' p = some v

variable {value value' : PortId → Option Value}

theorem Extends.mapM (h : Extends value value') {ps : List PortId} {vs : List Value}
    (hps : ps.mapM value = some vs) : ps.mapM value' = some vs := by
  induction ps generalizing vs with
  | nil => exact hps
  | cons p ps ih =>
    simp only [List.mapM_cons, Option.bind_eq_bind, Option.bind_eq_some_iff] at hps ⊢
    obtain ⟨v, hv, ws, hws, hvs⟩ := hps
    exact ⟨v, h p v hv, ws, ih hws, hvs⟩

theorem Extends.argument (h : Extends value value') {n : NodeId} {d : PortDecl} {v : Value}
    (hv : s.plainArgument value n d = some v) : s.plainArgument value' n d = some v := by
  unfold plainArgument at hv ⊢
  split at hv
  next hd =>
    obtain ⟨vs, hvs, rfl⟩ := Option.map_eq_some_iff.1 hv
    rw [if_pos hd, h.mapM hvs]
    rfl
  next hd =>
    obtain ⟨p, hp, hpv⟩ := Option.bind_eq_some_iff.1 hv
    rw [if_neg hd, hp]
    exact h p v hpv

theorem Extends.args (h : Extends value value') {node : Node Definition} {ps : List MethodParam}
    {args out : Table String Value} (ha : s.plainArgs value node ps args = some out) :
    s.plainArgs value' node ps args = some out := by
  induction ps generalizing args with
  | nil => exact ha
  | cons p ps ih =>
    cases p with
    | input d =>
      obtain ⟨v, hv, hrest⟩ := Option.bind_eq_some_iff.1 ha
      exact Option.bind_eq_some_iff.2 ⟨v, h.argument hv, ih hrest⟩
    | const d => exact ih ha
    | out d => exact ih ha
    | branch d => exact ih ha
    | ambient name context => exact ih ha

theorem Extends.output (h : Extends value value') {node : Node Definition} {m : Method}
    {name : String} {v : Value} (hv : s.plainOutput value node m name = some v) :
    s.plainOutput value' node m name = some v := by
  simp only [plainOutput, Option.bind_eq_bind, Option.bind_eq_some_iff] at hv ⊢
  obtain ⟨args, hargs, outcome, houtcome, hlookup⟩ := hv
  exact ⟨args, h.args hargs, outcome, houtcome, hlookup⟩

theorem Extends.result (h : Extends value value') {node : Node Definition} {p : PlacedPort}
    {v : Value} (hv : s.plainResult value node p = some v) :
    s.plainResult value' node p = some v := by
  unfold plainResult at hv ⊢
  split at hv
  · exact hv
  · simp at hv
  · split at hv
    · exact h.output hv
    · simp at hv

theorem Extends.port (h : Extends value value') :
    Extends (s.plainPort value) (s.plainPort value') := by
  intro p v hv
  simp only [plainPort, Option.bind_eq_bind, Option.bind_eq_some_iff] at hv ⊢
  obtain ⟨port, hport, hv⟩ := hv
  refine ⟨port, hport, ?_⟩
  split at hv
  · split at hv
    next source _ =>
      obtain ⟨w, hw, rfl⟩ := Option.map_eq_some_iff.1 hv
      rw [h source w hw]
      rfl
    · exact hv
  · obtain ⟨w, hw, rfl⟩ := Option.map_eq_some_iff.1 hv
    obtain ⟨node, hnode, hresult⟩ := Option.bind_eq_some_iff.1 hw
    rw [hnode, Option.bind_some, h.result hresult]
    rfl
  · simp at hv

theorem extends_plainWith (s : Setting) (given : Table String Value) (k : Nat) :
    Extends (s.plainWith given k) (s.plainWith given (k + 1)) := by
  induction k with
  | zero => exact fun p v hv => by simp [plainWith] at hv
  | succ k ih =>
    intro p v hv
    rw [plainWith] at hv ⊢
    cases hg : s.givenAt given p with
    | some w =>
      rw [hg] at hv
      exact hv
    | none =>
      rw [hg] at hv
      exact ih.port p v hv

/-- A value that is had at some level is had at every higher one. -/
theorem plainWith_mono {given : Table String Value} {j k : Nat} (h : j ≤ k) :
    Extends (s.plainWith given j) (s.plainWith given k) := by
  induction h with
  | refl => exact fun _ _ hv => hv
  | step _ ih => exact fun p v hv => extends_plainWith s given _ p v (ih p v hv)

theorem plainAt_mono {j k : Nat} (h : j ≤ k) : Extends (s.plainAt j) (s.plainAt k) := by
  rw [← plainWith_empty, ← plainWith_empty]
  exact plainWith_mono h

/-- The port has the plain value. -/
def Plain (s : Setting) (p : PortId) (v : Value) : Prop := ∃ k, s.plainAt k p = some v

/-- The port has the plain value with values given for outputs of Entry. -/
def PlainWith (s : Setting) (given : Table String Value) (p : PortId) (v : Value) : Prop :=
  ∃ k, s.plainWith given k p = some v

theorem plainWith_empty_eq : s.PlainWith .empty = s.Plain := by
  funext p v
  simp only [PlainWith, Plain, plainWith_empty]

theorem PlainWith.unique {given : Table String Value} {p : PortId} {v w : Value}
    (hv : s.PlainWith given p v) (hw : s.PlainWith given p w) : v = w := by
  obtain ⟨j, hj⟩ := hv
  obtain ⟨k, hk⟩ := hw
  have hvk := plainWith_mono (Nat.le_max_left j k) p v hj
  have hwk := plainWith_mono (Nat.le_max_right j k) p w hk
  exact Option.some.inj (hvk.symm.trans hwk)

/-- A port has one plain value at most. -/
theorem Plain.unique {p : PortId} {v w : Value} (hv : s.Plain p v) (hw : s.Plain p w) : v = w := by
  rw [← plainWith_empty_eq] at hv hw
  exact PlainWith.unique hv hw

/-- The plain value is had at every level from some one on. -/
theorem Plain.eventually {p : PortId} {v : Value} (h : s.Plain p v) :
    ∃ k, ∀ j, k ≤ j → s.plainAt j p = some v := by
  obtain ⟨k, hk⟩ := h
  exact ⟨k, fun j hj => plainAt_mono hj p v hk⟩

/-- Several ports have their plain values at one level. -/
theorem PlainWith.exists_mapM {given : Table String Value} {ps : List PortId} {vs : List Value}
    (h : List.Forall₂ (s.PlainWith given) ps vs) :
    ∃ k, ps.mapM (s.plainWith given k) = some vs := by
  induction h with
  | nil => exact ⟨0, rfl⟩
  | cons hv _ ih =>
    obtain ⟨j, hj⟩ := hv
    obtain ⟨k, hk⟩ := ih
    have hhead := plainWith_mono (Nat.le_max_left j k) _ _ hj
    have htail := (plainWith_mono (Nat.le_max_right j k)).mapM hk
    exact ⟨max j k, by simp [hhead, htail]⟩

end Setting

end EffectGraph
