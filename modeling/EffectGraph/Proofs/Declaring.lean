import EffectGraph.Proofs.Publishing

/-!
# Declared ports are found

A method is declared clause by clause. The declaration is accepted exactly if it says what the body
is, no two parameters share a name with each other or with an implied port, and nothing follows a
variadic group (`MethodDecl.define_declare`).

The ports of a node under a name (`Node.named`) are then those of one clause, whatever edits have
made of the node (`Graph.Presents`): look-ups by name depend on these ports only. Hence a run of a
node never looks for a port in vain, unless its body chooses a branch that has not been declared
(`Engine.invokeMethod_eq_error`).
-/

namespace EffectGraph

open EffectGraph.Graph

/-! ## Clauses -/

namespace MethodDecl

/-- One clause of a declaration. -/
inductive Clause where
  /-- A parameter whose role follows from its type. -/
  | param (name : String) (type : ValueType)
  | input (name : String) (type : ValueType)
  | variadic (name : String) (element : ValueType)
  | const (name : String) (type : ValueType)
  | out (name : String) (type : ValueType)
  | branch (name : String)
  | ambient (name : String) (context : Ambient)
  | returns (type : ValueType)
  | obsoleteName (name : String)
  | obsoleteMessage (text : String)
  | body (b : Body)

namespace Clause

/-- The parameter that a clause declares. -/
def param? : Clause → Option MethodParam
  | param n type => some (.ofType n type)
  | input n type => some (.input (.value n type))
  | variadic n element => some (.input (.variadic n element))
  | const n type => some (.const (.value n type))
  | out n type => some (.out (.value n type))
  | branch n => some (.branch (.control n))
  | ambient n context => some (.ambient n context)
  | returns _ | obsoleteName _ | obsoleteMessage _ | body _ => none

def returns? : Clause → Option ValueType
  | returns type => some type
  | _ => none

def body? : Clause → Option Body
  | body b => some b
  | _ => none

/-- Whether a clause declares a variadic group. -/
def isGroup : Clause → Bool
  | variadic _ _ => true
  | _ => false

/-- Adds a clause to a declaration. Of the clauses for the return value, the message and the body
the last one counts. -/
def add (m : MethodDecl) : Clause → MethodDecl
  | returns type => { m with returns := some type }
  | obsoleteName n => { m with obsoleteNames := m.obsoleteNames ++ [n] }
  | obsoleteMessage text => { m with obsoleteMessage := some text }
  | body b => { m with body := some b }
  | c => { m with params := m.params ++ c.param?.toList }

end Clause

/-- The declaration that consists of the given clauses. -/
def declare (name : String) (cs : List Clause) : MethodDecl := cs.foldl Clause.add { name := name }

variable {name : String} {cs : List Clause}

theorem Clause.add_eq (m : MethodDecl) (c : Clause) :
    (add m c).params = m.params ++ c.param?.toList ∧
      (add m c).returns = c.returns?.or m.returns ∧ (add m c).body = c.body?.or m.body := by
  cases c <;> simp [add, param?, returns?, body?]

/-- The parameters are declared in the order of their clauses, and the last clause for the return
value and the last one for the body count. -/
theorem foldl_add (m : MethodDecl) (cs : List Clause) :
    (cs.foldl Clause.add m).params = m.params ++ cs.filterMap Clause.param? ∧
      (cs.foldl Clause.add m).returns = (cs.reverse.findSome? Clause.returns?).or m.returns ∧
      (cs.foldl Clause.add m).body = (cs.reverse.findSome? Clause.body?).or m.body := by
  induction cs generalizing m with
  | nil => simp
  | cons c cs ih =>
    obtain ⟨hparams, hreturns, hbody⟩ := ih (Clause.add m c)
    obtain ⟨hparam, hreturn, hset⟩ := Clause.add_eq m c
    rw [List.foldl_cons, hparams, hreturns, hbody, hparam, hreturn, hset, List.reverse_cons,
      List.findSome?_append, List.findSome?_append, List.filterMap_cons]
    refine ⟨?_, ?_, ?_⟩
    · cases c.param? <;> simp
    · cases hc : c.returns? <;> simp [hc]
    · cases hc : c.body? <;> simp [hc]

theorem params_declare : (declare name cs).params = cs.filterMap Clause.param? :=
  (foldl_add { name := name } cs).1

theorem returns_declare : (declare name cs).returns = cs.reverse.findSome? Clause.returns? := by
  rw [declare, (foldl_add _ cs).2.1, Option.or_none]

theorem body_declare : (declare name cs).body = cs.reverse.findSome? Clause.body? := by
  rw [declare, (foldl_add _ cs).2.2, Option.or_none]

theorem returns_isSome : (declare name cs).returns.isSome = true ↔ ∃ type, .returns type ∈ cs := by
  rw [returns_declare, List.findSome?_isSome_iff]
  constructor
  · rintro ⟨c, hc, hsome⟩
    cases c <;> simp [Clause.returns?] at hsome
    exact ⟨_, List.mem_reverse.1 hc⟩
  · rintro ⟨type, h⟩
    exact ⟨_, List.mem_reverse.2 h, rfl⟩

theorem body_isSome : (declare name cs).body.isSome = true ↔ ∃ b, .body b ∈ cs := by
  rw [body_declare, List.findSome?_isSome_iff]
  constructor
  · rintro ⟨c, hc, hsome⟩
    cases c <;> simp [Clause.body?] at hsome
    exact ⟨_, List.mem_reverse.1 hc⟩
  · rintro ⟨b, h⟩
    exact ⟨_, List.mem_reverse.2 h, rfl⟩

/-- A parameter is a variadic group exactly if its clause says so. -/
theorem Clause.isVariadic_eq {c : Clause} {p : MethodParam} (hp : c.param? = some p) :
    p.isVariadic = c.isGroup := by
  cases c <;> simp only [param?, Option.some.injEq, reduceCtorEq] at hp
  case param n type =>
    subst hp
    unfold MethodParam.ofType
    split <;> rfl
  all_goals
    subst hp
    rfl

theorem forall_dropLast_iff {ps : List MethodParam} :
    (∀ p ∈ ps.dropLast, p.isVariadic = false) ↔ ps.Pairwise fun p _ => p.isVariadic = false := by
  induction ps with
  | nil => simp
  | cons p ps ih =>
    rw [List.pairwise_cons, ← ih]
    cases ps with
    | nil => simp
    | cons q qs =>
      rw [List.dropLast_cons_of_ne_nil (List.cons_ne_nil q qs), List.forall_mem_cons]
      exact and_congr_left fun _ => ⟨fun h _ _ => h, fun h => h q (.head _)⟩

theorem pairwise_param {cs : List Clause} :
    ((cs.filterMap Clause.param?).Pairwise fun p _ => p.isVariadic = false) ↔
      cs.Pairwise fun c later => c.isGroup = true → later.param? = none := by
  rw [List.pairwise_filterMap]
  refine List.Pairwise.iff fun {c later} => ?_
  constructor
  · intro h hgroup
    by_contra hlater
    obtain ⟨q, hq⟩ := Option.ne_none_iff_exists'.1 hlater
    cases c <;> simp only [Clause.isGroup, Bool.false_eq_true] at hgroup
    exact absurd (h _ rfl q hq) (by simp [MethodParam.isVariadic, PortDecl.variadic])
  · intro h p hp q hq
    rw [Clause.isVariadic_eq hp]
    by_contra hgroup
    rw [h (by simpa using hgroup)] at hq
    exact nomatch hq

/-- A declaration is accepted exactly if one of its clauses is the body, the names of the parameters
are different and none is that of an implied port, and no parameter follows a variadic group. -/
theorem define_declare : (∃ d, (declare name cs).define = .ok d) ↔
    (∃ b, .body b ∈ cs) ∧ ((cs.filterMap Clause.param?).map (·.name)).Nodup ∧
      (∀ p ∈ cs.filterMap Clause.param?, p.name ≠ enterName ∧ p.name ≠ exitName ∧
        ((∃ type, .returns type ∈ cs) → p.name ≠ returnName)) ∧
      cs.Pairwise fun c later => c.isGroup = true → later.param? = none := by
  have hreserved : ∀ p : MethodParam, p.name ∉ (declare name cs).reservedNames ↔
      p.name ≠ enterName ∧ p.name ≠ exitName ∧
        ((∃ type, .returns type ∈ cs) → p.name ≠ returnName) := by
    intro p
    rw [reservedNames, ← @returns_isSome name]
    cases (declare name cs).returns <;> simp [and_comm, and_assoc]
  rw [← @body_isSome name, ← pairwise_param, ← forall_dropLast_iff, ← @params_declare name]
  simp only [define_eq_ok, checkParams_eq_ok, hreserved, Option.isSome_iff_exists]
  constructor
  · rintro ⟨d, body, hbody, ⟨hnodup, hfresh, hlast⟩, -⟩
    exact ⟨⟨body, hbody⟩, hnodup, hfresh, hlast⟩
  · rintro ⟨⟨body, hbody⟩, hnodup, hfresh, hlast⟩
    exact ⟨_, body, hbody, ⟨hnodup, hfresh, hlast⟩, rfl⟩

end MethodDecl

/-! ## Ports by name -/

/-- The ports that a node shows on a side under a name. -/
def Node.named {κ : Type} (n : Node κ) (side : Direction) (name : String) : List Port :=
  (match side with
    | .input => n.inputs
    | .output => n.outputs).filter fun p => p.decl.name = name

namespace Graph

variable {g : Graph Definition} {n : Node Definition} {name : String}

theorem input?_eq_named (hn : g.node? n.id = some n) (slot : Option Nat) :
    g.input? n.id name slot =
      ((n.named .input name).find? fun p => p.slot = slot).map fun p => g.portId p.index := by
  simp [input?, hn, Node.named, List.find?_filter]

theorem output?_eq_named (hn : g.node? n.id = some n) : g.output? n.id name =
    (n.named .output name).head?.map fun p => g.portId p.index := by
  rw [output?, hn, Option.bind_some, Node.named, List.head?_filter]

theorem variadicSlots_eq_named (hn : g.node? n.id = some n) : g.variadicSlots n.id name =
    ((n.named .input name).filter fun p => p.slot.isSome).map fun p => g.portId p.index := by
  simp only [variadicSlots, hn, Node.named, List.filter_filter, Bool.and_comm]

theorem placed_of_named (hg : g.WellFormed) (hn : n ∈ g.nodes) {side : Direction} {p : Port}
    (hp : p ∈ n.named side name) : g.port? (g.portId p.index) = some ⟨n.id, side, p⟩ := by
  obtain ⟨hp, -⟩ := List.mem_filter.1 hp
  cases side with
  | input => exact hg.port?_portId (input_mem_allPorts hn hp)
  | output => exact hg.port?_portId (output_mem_allPorts hn hp)

omit g n name in
/-- Of the lists that belong to different keys, the one of a key is found by filtering. -/
theorem filter_flatMap_of_nodup {α β γ : Type} [DecidableEq γ] {F : α → List β} {f : α → γ}
    {h : β → γ} (hkey : ∀ a, ∀ b ∈ F a, h b = f a) {l : List α} (hl : (l.map f).Nodup) {a : α}
    (ha : a ∈ l) : (l.flatMap F).filter (fun b => h b = f a) = F a := by
  have hself : (F a).filter (fun b => h b = f a) = F a :=
    List.filter_eq_self.2 fun b hb => decide_eq_true (hkey a b hb)
  have hother : ∀ k, f k ≠ f a → (F k).filter (fun b => h b = f a) = [] := fun k hk =>
    List.filter_eq_nil_iff.2 fun b hb htest =>
      hk ((hkey k b hb).symm.trans (of_decide_eq_true htest))
  induction l with
  | nil => exact absurd ha List.not_mem_nil
  | cons k l ih =>
    obtain ⟨hhead, htail⟩ := List.nodup_cons.1 (List.map_cons ▸ hl)
    rw [List.flatMap_cons, List.filter_append]
    rcases List.mem_cons.1 ha with rfl | ha
    · have hrest : (l.flatMap F).filter (fun b => h b = f a) = [] := by
        rw [List.filter_flatMap]
        refine List.flatMap_eq_nil_iff.2 fun k hk => hother k fun he => hhead ?_
        exact he ▸ List.mem_map_of_mem hk
      rw [hself, hrest, List.append_nil]
    · have hne : f k ≠ f a := fun he => hhead (he ▸ List.mem_map_of_mem ha)
      rw [hother k hne, List.nil_append, ih htail ha]

/-- The inputs under the name of the control input or of a declared input are its slots, one at
least. -/
theorem Shaped.named_input (hs : g.Shaped n) {d : Definition} (hkind : n.kind = .action d)
    (hnames : ((.control enterName :: d.signature.inputs).map PortDecl.name).Nodup) {c : PortDecl}
    (hc : c ∈ .control enterName :: d.signature.inputs) :
    ∃ w, 0 < w c.name ∧ (n.named .input c.name).map Port.spec = slotSpecs w c := by
  obtain ⟨w, hw, hbounds, -⟩ := hs.inputs
  have hshape : n.inputs.map Port.spec =
      (.control enterName :: d.signature.inputs).flatMap (slotSpecs w) := by
    rw [hw, inputShape, hkind]
    rfl
  have hfilter := filter_flatMap_of_nodup (F := slotSpecs w) (h := fun s => s.decl.name)
    (fun a b hb => by rw [(mem_slotSpecs hb).1]) hnames hc
  rw [← hshape, List.filter_map] at hfilter
  exact ⟨w, (hbounds c.name).1, hfilter⟩

/-- The exit and the declared outputs are each the one output under their name. -/
theorem Shaped.named_output (hs : g.Shaped n) {d : Definition} (hkind : n.kind = .action d)
    (hnames : ((.control exitName :: d.signature.outputs).map PortDecl.name).Nodup) {c : PortDecl}
    (hc : c ∈ .control exitName :: d.signature.outputs) :
    (n.named .output c.name).map Port.spec = [.single c] := by
  have hshape : n.outputs.map Port.spec =
      (.control exitName :: d.signature.outputs).flatMap fun e => [PortSpec.single e] := by
    rw [hs.outputs, wantedOutputs, hkind, ← List.map_eq_flatMap]
    rfl
  have hfilter := filter_flatMap_of_nodup (F := fun e => [PortSpec.single e])
    (h := fun s => s.decl.name) (fun a b hb => by rw [List.mem_singleton.1 hb]; rfl) hnames hc
  rw [← hshape, List.filter_map] at hfilter
  exact hfilter

/-! ## What is found -/

/-- The port with the given id is the one port that a node shows on a side under the name of a
declaration, and it is of this declaration and in the given role. -/
def Sole (g : Graph Definition) (n : Node Definition) (side : Direction) (c : PortDecl)
    (role : PortRole) (x : PortId) : Prop :=
  ∃ p, n.named side c.name = [p] ∧ p.spec = .single c ∧ x = g.portId p.index ∧
    g.port? x = some ⟨n.id, side, p⟩ ∧ (⟨n.id, side, p⟩ : PlacedPort).role = role

/-- The one input under the name of a declaration is found without a slot, and no slot is. -/
def FindsInput (g : Graph Definition) (n : Node Definition) (c : PortDecl) (role : PortRole) :
    Prop :=
  ∃ x, g.Sole n .input c role x ∧ g.variadicSlots n.id c.name = [] ∧
    ∀ slot, g.input? n.id c.name slot = if slot = none then some x else none

/-- The one output under the name of a declaration is found. -/
def FindsOutput (g : Graph Definition) (n : Node Definition) (c : PortDecl) (role : PortRole) :
    Prop :=
  ∃ x, g.Sole n .output c role x ∧ g.output? n.id c.name = some x

/-- The inputs under the name of a variadic group are its slots in order, one at least. Each is
found under its place, and none without one. -/
structure FindsGroup (g : Graph Definition) (n : Node Definition) (c : PortDecl) : Prop where
  nonempty : n.named .input c.name ≠ []
  specs : (n.named .input c.name).map Port.spec =
    (List.range (n.named .input c.name).length).map fun i => ⟨c, some i⟩
  placed : ∀ p ∈ n.named .input c.name, g.port? (g.portId p.index) = some ⟨n.id, .input, p⟩ ∧
    (⟨n.id, .input, p⟩ : PlacedPort).role = .valueInput
  slots : g.variadicSlots n.id c.name = (n.named .input c.name).map fun p => g.portId p.index
  input : ∀ i, g.input? n.id c.name (some i) = (g.variadicSlots n.id c.name)[i]?
  single : g.input? n.id c.name none = none

section Found

variable {d : Definition} {c : PortDecl} (hg : g.Valid []) (hn : n ∈ g.nodes)
  (hkind : n.kind = .action d) (hd : d.signature.Addressable)

include hg hn hkind hd

theorem Valid.findsOutput (hc : c ∈ .control exitName :: d.signature.outputs) :
    g.FindsOutput n c (.of .output c.isControl) := by
  have hspecs := (hg.shaped n hn List.not_mem_nil).named_output hkind hd.outputs hc
  obtain ⟨p, hp, hspec⟩ := List.map_eq_singleton_iff.1 hspecs
  have hplaced := placed_of_named hg.wellFormed hn (hp ▸ .head _ : p ∈ n.named .output c.name)
  have hdecl : p.decl = c := congrArg PortSpec.decl hspec
  refine ⟨_, ⟨p, hp, hspec, rfl, hplaced, by rw [PlacedPort.role, hdecl]⟩, ?_⟩
  rw [output?_eq_named (node?_of_mem hg.ascending hn), hp]
  rfl

theorem Valid.findsInput (hc : c ∈ .control enterName :: d.signature.inputs)
    (hsingle : c.isVariadic = false) : g.FindsInput n c (.of .input c.isControl) := by
  obtain ⟨w, -, hspecs⟩ := (hg.shaped n hn List.not_mem_nil).named_input hkind hd.inputs hc
  rw [slotSpecs, if_neg (by simp [hsingle])] at hspecs
  obtain ⟨p, hp, hspec⟩ := List.map_eq_singleton_iff.1 hspecs
  have hplaced := placed_of_named hg.wellFormed hn (hp ▸ .head _ : p ∈ n.named .input c.name)
  have hdecl : p.decl = c := congrArg PortSpec.decl hspec
  have hslot : p.slot = none := congrArg PortSpec.slot hspec
  have hfound := node?_of_mem hg.ascending hn
  refine ⟨_, ⟨p, hp, hspec, rfl, hplaced, by rw [PlacedPort.role, hdecl]⟩, ?_, fun slot => ?_⟩
  · rw [variadicSlots_eq_named hfound, hp]
    simp [hslot]
  · rw [input?_eq_named hfound, hp, List.find?_singleton, hslot]
    by_cases hnone : slot = none
    · simp [hnone]
    · simp [hnone, eq_comm]

theorem Valid.findsGroup (hc : c ∈ d.signature.inputs) (hvariadic : c.isVariadic = true)
    (hvalue : c.isControl = false) : g.FindsGroup n c := by
  have hshaped := hg.shaped n hn List.not_mem_nil
  obtain ⟨w, hpos, hspecs⟩ := hshaped.named_input hkind hd.inputs (.tail _ hc)
  rw [slotSpecs, if_pos hvariadic] at hspecs
  have hlength : (n.named .input c.name).length = w c.name := by
    simpa using congrArg List.length hspecs
  have hport : ∀ p ∈ n.named .input c.name, p.decl = c ∧ p.slot ≠ none := by
    intro p hp
    obtain ⟨i, -, hspec⟩ := List.mem_map.1 (hspecs ▸ List.mem_map_of_mem hp)
    obtain ⟨hdecl, hslot⟩ := PortSpec.mk.inj hspec.symm
    exact ⟨hdecl, by simp [hslot]⟩
  have hfound := node?_of_mem hg.ascending hn
  have hdistinct : d.signature.Distinct := (List.nodup_cons.1 hd.inputs).2
  refine ⟨fun hnil => ?_, hlength ▸ hspecs, fun p hp => ?_, ?_, fun i => ?_, ?_⟩
  · rw [hnil, List.length_nil] at hlength
    omega
  · refine ⟨placed_of_named hg.wellFormed hn hp, ?_⟩
    rw [PlacedPort.role, (hport p hp).1, hvalue]
    rfl
  · rw [variadicSlots_eq_named hfound, List.filter_eq_self.2 fun p hp => ?_]
    exact Option.isSome_iff_ne_none.2 (hport p hp).2
  · exact ((hshaped.variadicSlots hkind hc hvariadic hdistinct hg.ascending hn).2.2 i).symm
  · rw [input?_eq_named hfound, List.find?_eq_none.2 fun p hp => ?_]
    · rfl
    · simpa using (hport p hp).2

end Found

end Graph

/-! ## What is declared is found -/

namespace MethodDecl

variable {name : String} {cs : List Clause} {d : Definition}

theorem mem_inputs_declare (hd : (declare name cs).define = .ok d) {c : Clause} (hc : c ∈ cs)
    {e : PortDecl} (he : c.param? = some (.input e)) : e ∈ d.signature.inputs := by
  obtain ⟨body, -, -, rfl⟩ := define_eq_ok.1 hd
  refine List.mem_filterMap.2 ⟨.input e, ?_, rfl⟩
  rw [params_declare]
  exact List.mem_filterMap.2 ⟨c, hc, he⟩

/-- The outputs are those of the clauses and the return value. -/
theorem mem_outputs_declare (hd : (declare name cs).define = .ok d) {e : PortDecl} :
    e ∈ d.signature.outputs ↔ (∃ c ∈ cs, c.param?.bind (·.output?) = some e) ∨
      ∃ type, (declare name cs).returns = some type ∧ e = .value returnName type := by
  obtain ⟨body, -, -, rfl⟩ := define_eq_ok.1 hd
  simp only [signature, returnDecl?, params_declare, List.filterMap_filterMap, List.mem_append,
    List.mem_filterMap, Option.mem_toList, Option.map_eq_some_iff, eq_comm (b := e)]

/-- A control output is a declared branch. -/
theorem branch_mem_of_control (hd : (declare name cs).define = .ok d) {e : PortDecl}
    (he : e ∈ d.signature.outputs) (hcontrol : e.isControl = true) : .branch e.name ∈ cs := by
  rcases (mem_outputs_declare hd).1 he with ⟨c, hc, he⟩ | ⟨type, -, rfl⟩
  · cases c with
    | branch k =>
      obtain rfl := Option.some.inj he
      exact hc
    | out k type =>
      obtain rfl := Option.some.inj he
      exact nomatch hcontrol
    | param k type =>
      have hnone : (MethodParam.ofType k type).output? = none := by
        unfold MethodParam.ofType
        split <;> rfl
      exact nomatch hnone.symm.trans he
    | _ => exact nomatch he
  · exact nomatch hcontrol

end MethodDecl

open MethodDecl

/-- A node shows the ports that the clauses of its declaration describe, next to the implied control
ports, and each is found under its own name. -/
structure Graph.Presents (g : Graph Definition) (n : Node Definition) (name : String)
    (cs : List Clause) : Prop where
  enter : g.FindsInput n (.control enterName) .controlInput
  exit : g.FindsOutput n (.control exitName) .controlOutput
  inputs : ∀ k type, .input k type ∈ cs → g.FindsInput n (.value k type) .valueInput
  /-- A parameter whose type is not one of the context is an input. -/
  params : ∀ k type, .param k type ∈ cs → Ambient.ofType? type = none →
    g.FindsInput n (.value k type) .valueInput
  groups : ∀ k element, .variadic k element ∈ cs → g.FindsGroup n (.variadic k element)
  outs : ∀ k type, .out k type ∈ cs → g.FindsOutput n (.value k type) .valueOutput
  branches : ∀ k, .branch k ∈ cs → g.FindsOutput n (.control k) .controlOutput
  result : ∀ type, (declare name cs).returns = some type →
    g.FindsOutput n (.value returnName type) .valueOutput

section Presents

variable {g : Graph Definition} {n : Node Definition} {name : String} {cs : List Clause}
  {d : Definition} (hg : g.Valid []) (hn : n ∈ g.nodes) (hkind : n.kind = .action d)
  (hd : (declare name cs).define = .ok d)

include hg hn hkind hd

theorem Graph.Valid.presents : g.Presents n name cs := by
  have haddressable := define_addressable hd
  have hinput : ∀ c ∈ cs, ∀ e, c.param? = some (.input e) → e.isVariadic = false →
      g.FindsInput n e (.of .input e.isControl) := fun c hc e he hsingle =>
    hg.findsInput hn hkind haddressable (.tail _ (mem_inputs_declare hd hc he)) hsingle
  have houtput : ∀ c ∈ cs, ∀ e, c.param?.bind (·.output?) = some e →
      g.FindsOutput n e (.of .output e.isControl) := fun c hc e he =>
    hg.findsOutput hn hkind haddressable (.tail _ ((mem_outputs_declare hd).2 (.inl ⟨c, hc, he⟩)))
  refine ⟨?_, ?_, fun k type hc => ?_, fun k type hc htype => ?_, fun k element hc => ?_,
    fun k type hc => ?_, fun k hc => ?_, fun type hr => ?_⟩
  · exact hg.findsInput hn hkind haddressable (.head _) rfl
  · exact hg.findsOutput hn hkind haddressable (.head _)
  · exact hinput _ hc _ rfl rfl
  · refine hinput _ hc (.value k type) ?_ rfl
    rw [Clause.param?, MethodParam.ofType, htype]
  · exact hg.findsGroup hn hkind haddressable (mem_inputs_declare hd hc rfl) rfl rfl
  · exact houtput _ hc _ rfl
  · exact houtput _ hc _ rfl
  · exact hg.findsOutput hn hkind haddressable
      (.tail _ ((mem_outputs_declare hd).2 (.inr ⟨type, hr, rfl⟩)))

end Presents

namespace Engine

variable {σ : Type} {engine : Engine σ} {s : Setting} {host : Host σ} {n : Node Definition}
  {d : Definition} {e : FlowError} {m m' : Machine σ}

/-- A program ends with a result: what goes wrong while a request is answered is an answer. -/
theorem runProgram_ne_error {α : Type} {x : Program α} :
    engine.runProgram s host x m ≠ some (.error e, m') := by
  induction x generalizing m with
  | pure a => exact Exec.pure_ne_error
  | ask q next ih =>
    intro h
    rcases Exec.bind_eq_error.1 h with h | ⟨a, m₁, -, h⟩
    · have hattempt : ∀ {β : Type} (x : Exec σ β), Exec.attempt x m ≠ some (.error e, m') := by
        intro β x hx
        unfold Exec.attempt at hx
        split at hx <;> simp at hx
      cases q with
      | read | run | runNode | invoke => exact hattempt _ h
      | _ => exact nomatch h
    · exact ih a h

section Bind

variable (hg : s.graph.Valid []) (hn : n ∈ s.graph.nodes) (hkind : n.kind = .action d)

include hg hn hkind

/-- What goes wrong with an argument goes wrong with the value of an input of the node. -/
theorem read_of_argument_eq_error {c : PortDecl} (hc : c ∈ d.signature.inputs)
    (h : engine.argument s n.id c m = some (.error e, m')) : ∃ q ∈ n.inputs, ∃ m₁,
      engine s (.read (s.graph.portId q.index)) m₁ = some (.error e, m') := by
  have hfound := node?_of_mem hg.ascending hn
  unfold argument at h
  split at h
  · rcases Exec.bind_eq_error.1 h with h | ⟨vs, m₁, -, h⟩
    · obtain ⟨x, hx, m₁, h⟩ := readAll_eq_error h
      obtain ⟨q, hq, -, rfl⟩ := mem_inputs_of_variadicSlots hfound hx
      exact ⟨q, hq, m₁, h⟩
    · exact absurd h Exec.pure_ne_error
  next hsingle =>
    obtain ⟨x, hx⟩ := hg.exists_input hn (single_mem_of_input hkind hc (by simpa using hsingle))
    obtain ⟨q, hq, -, rfl⟩ := mem_inputs_of_input? hfound hx
    simp only [getInput_eq_ok.2 hx, Exec.ofGraph_ok_bind] at h
    exact ⟨q, hq, m, h⟩

theorem read_of_bindParams_eq_error {ps : List MethodParam}
    (hps : ∀ c, .input c ∈ ps → c ∈ d.signature.inputs) {args : Table String Value}
    (h : engine.bindParams s n ps args m = some (.error e, m')) : ∃ q ∈ n.inputs, ∃ m₁,
      engine s (.read (s.graph.portId q.index)) m₁ = some (.error e, m') := by
  induction ps generalizing args m with
  | nil => exact absurd h Exec.pure_ne_error
  | cons p ps ih =>
    have hrest := fun args m => @ih m (fun c hc => hps c (.tail _ hc)) args
    cases p with
    | input c =>
      rcases Exec.bind_eq_error.1 h with h | ⟨v, m₁, -, h⟩
      · exact read_of_argument_eq_error hg hn hkind (hps c (.head _)) h
      · exact hrest _ _ h
    | const c => exact hrest _ _ h
    | out c => exact hrest _ _ h
    | branch c => exact hrest _ _ h
    | ambient k context => exact hrest _ _ h

end Bind

theorem branchOf_eq_ok {n : NodeId} {o : Outcome} {r : Option PortId} :
    branchOf s n o = .ok r ↔ ∃ p port, s.graph.output? n (o.branch.getD exitName) = some p ∧
      s.graph.port? p = some port ∧ port.port.decl.isControl = true ∧ r = some p := by
  unfold branchOf
  cases hfound : s.graph.output? n (o.branch.getD exitName) with
  | none => simp [hfound]
  | some p =>
    cases hport : s.graph.getPort p with
    | error cause =>
      have hnone : ∀ port, s.graph.port? p ≠ some port := fun port hp =>
        nomatch (getPort_eq_ok.2 hp).symm.trans hport
      simp [hfound, hport, hnone, bind, Except.bind]
    | ok port =>
      have hp := getPort_eq_ok.1 hport
      cases hcontrol : port.port.decl.isControl with
      | false => simp [hfound, hport, hp, hcontrol, bind, Except.bind]
      | true =>
        simp only [hfound, hport, hp, hcontrol, bind, Except.bind, if_true, Except.ok.injEq,
          Option.some.injEq, exists_and_left, exists_eq_left', true_and]
        exact eq_comm

section Declared

variable (hg : s.graph.Valid []) (hn : n ∈ s.graph.nodes) (hkind : n.kind = .action d)
  {name : String} {cs : List Clause} (hd : (declare name cs).define = .ok d)

include hg hn hkind hd

/-- Control can be followed after a body exactly if it chooses no branch, the exit or a declared
branch. -/
theorem branchOf_declared {o : Outcome} : (∃ x, branchOf s n.id o = .ok (some x)) ↔
    ∀ k, o.branch = some k → k = exitName ∨ .branch k ∈ cs := by
  constructor
  · rintro ⟨x, hx⟩ k hk
    obtain ⟨p, port, hp, hport, hcontrol, -⟩ := branchOf_eq_ok.1 hx
    rw [hk, Option.getD_some] at hp
    obtain ⟨q, hq, rfl, rfl⟩ := mem_outputs_of_output? hg hn hp hport
    have hdecl : q.decl ∈ .control exitName :: d.signature.outputs :=
      (hg.shaped n hn List.not_mem_nil).decl_outputs hkind ▸ List.mem_map_of_mem hq
    rcases List.mem_cons.1 hdecl with he | hdecl
    · exact .inl (congrArg PortDecl.name he)
    · exact .inr (branch_mem_of_control hd hdecl hcontrol)
  · intro h
    have hpresents := hg.presents hn hkind hd
    have hfound : s.graph.FindsOutput n (.control (o.branch.getD exitName)) .controlOutput := by
      cases hbranch : o.branch with
      | none => exact hpresents.exit
      | some k =>
        rcases h k hbranch with rfl | hk
        · exact hpresents.exit
        · exact hpresents.branches k hk
    obtain ⟨x, ⟨p, -, -, -, hport, hrole⟩, hx⟩ := hfound
    exact ⟨x, branchOf_eq_ok.2
      ⟨x, _, hx, hport, ((PlacedPort.role_eq_iff .output true).1 hrole).2, rfl⟩⟩

/-- A run of a declared method fails with the value of an input, with the error that its body ends
with, or since the body has chosen a branch that is not declared. -/
theorem invokeMethod_eq_error {b : Method} (hb : d.behaviour = .method b)
    (h : engine.invokeMethod s host n d.name b m = some (.error e, m')) :
    (∃ q ∈ n.inputs, ∃ m₁,
      engine s (.read (s.graph.portId q.index)) m₁ = some (.error e, m')) ∨
    ∃ args m₁ r m₂,
      engine.runProgram s host (b.body ⟨n.id, args, s.environment⟩) m₁ = some (.ok r, m₂) ∧
        ((∃ cause, r = .error cause ∧ blame (α := Option PortId) s n.id d.name cause m₂ =
            some (.error e, m')) ∨
          ∃ o k, r = .ok o ∧ o.branch = some k ∧ k ≠ exitName ∧ .branch k ∉ cs ∧
            e = .graph (.noSuchPort n.id k none)) := by
  obtain ⟨body, -, -, hdef⟩ := define_eq_ok.1 hd
  have hinputs : ∀ c, .input c ∈ b.params → c ∈ d.signature.inputs := by
    subst hdef
    obtain rfl := Behaviour.method.inj hb
    exact fun c hc => List.mem_filterMap.2 ⟨_, hc, rfl⟩
  have hwritten : b.written ⊆ d.signature.outputs := by
    subst hdef
    obtain rfl := Behaviour.method.inj hb
    exact (written_sublist _ body).subset
  rcases Exec.bind_eq_error.1 h with h | ⟨args, m₁, -, h⟩
  · exact .inl (read_of_bindParams_eq_error hg hn hkind hinputs h)
  rcases Exec.bind_eq_error.1 h with h | ⟨r, m₂, hbody, h⟩
  · exact absurd h runProgram_ne_error
  refine .inr ⟨args, m₁, r, m₂, hbody, ?_⟩
  cases r with
  | error cause => exact .inl ⟨cause, rfl, h⟩
  | ok o =>
    rcases Exec.bind_eq_error.1 h with h | ⟨_, m₃, -, h⟩
    -- Everything that is published is declared.
    · obtain ⟨m₃, hok⟩ := publishAll_succeeds hg hn hkind hwritten (names_outputsOf b o) m₂
      exact absurd (h.symm.trans hok) (by simp)
    · obtain ⟨cause, hcause, rfl, -⟩ := Exec.ofGraph_eq_error.1 h
      obtain ⟨k, hk, -, rfl⟩ := branchOf_eq_error hg hn hkind hcause
      have hundeclared : ¬ ∃ x, branchOf s n.id o = .ok (some x) := by
        rintro ⟨x, hx⟩
        exact nomatch hx.symm.trans hcause
      rw [branchOf_declared hg hn hkind hd] at hundeclared
      have hnot : ¬ (k = exitName ∨ .branch k ∈ cs) := fun hk' =>
        hundeclared fun k' hbranch => Option.some.inj (hk.symm.trans hbranch) ▸ hk'
      exact .inr ⟨o, k, rfl, hk, fun he => hnot (.inl he), fun hmem => hnot (.inr hmem), rfl⟩

end Declared

end Engine

/-- A declaration is accepted exactly if it has a body, the parameters and the implied ports have
different names, and no parameter follows a variadic group. A node of the kind that it declares, in
whatever graph edits have made, shows the ports that its clauses describe and each is found under
its own name. So a run of the node fails for no port that is declared: it fails with the value of an
input, with the error of the body, or for a branch that was chosen and is not declared, while
control can be followed if the exit or a declared branch is chosen. -/
theorem MethodDecl.declared_found (name : String) (cs : List Clause) :
    ((∃ d, (declare name cs).define = .ok d) ↔
      (∃ b, .body b ∈ cs) ∧ ((cs.filterMap Clause.param?).map (·.name)).Nodup ∧
        (∀ p ∈ cs.filterMap Clause.param?, p.name ≠ enterName ∧ p.name ≠ exitName ∧
          ((∃ type, .returns type ∈ cs) → p.name ≠ returnName)) ∧
        cs.Pairwise fun c later => c.isGroup = true → later.param? = none) ∧
    ∀ d, (declare name cs).define = .ok d → ∀ (K : Definition → Prop) (g : Graph Definition),
      Reachable K g → ∀ n ∈ g.nodes, n.kind = .action d → g.Presents n name cs ∧
        ∃ b, d.behaviour = .method b ∧
          ∀ (σ : Type) (engine : Engine σ) (host : Host σ) (s : Setting), s.graph = g →
            (∀ m e m', engine.invokeMethod s host n d.name b m = some (.error e, m') →
              (∃ q ∈ n.inputs, ∃ m₁,
                engine s (.read (g.portId q.index)) m₁ = some (.error e, m')) ∨
              ∃ args m₁ r m₂, engine.runProgram s host (b.body ⟨n.id, args, s.environment⟩) m₁ =
                  some (.ok r, m₂) ∧
                ((∃ cause, r = .error cause ∧ Engine.blame (α := Option PortId) s n.id d.name
                    cause m₂ = some (.error e, m')) ∨
                  ∃ o k, r = .ok o ∧ o.branch = some k ∧ k ≠ exitName ∧ .branch k ∉ cs ∧
                    e = .graph (.noSuchPort n.id k none))) ∧
            ∀ o, (∃ x, Engine.branchOf s n.id o = .ok (some x)) ↔
              ∀ k, o.branch = some k → k = exitName ∨ .branch k ∈ cs := by
  refine ⟨define_declare, fun d hd K g hg n hn hkind => ⟨hg.valid.presents hn hkind hd, ?_⟩⟩
  obtain ⟨body, -, -, hdef⟩ := define_eq_ok.1 hd
  have hb := congrArg Definition.behaviour hdef
  refine ⟨_, hb, fun σ engine host s hs => ?_⟩
  subst hs
  exact ⟨fun m e m' h => Engine.invokeMethod_eq_error hg.valid hn hkind hd hb h,
    fun o => Engine.branchOf_declared hg.valid hn hkind hd⟩

/-- A declaration with parameters in all roles, the body of which chooses a branch. -/
def picking : List Clause :=
  [.const "limit" .int, .param "owner" .card, .param "seed" .int, .branch "none", .out "rest" .int,
    .returns .int, .body (.compute fun _ => .ok (Outcome.empty.take "none")),
    .variadic "items" .int]

/-- The declaration is accepted, a node of its kind shows the ports, and the branch can be followed.
-/
theorem declared_found_picking : ∃ d g, (declare "Pick" picking).define = .ok d ∧
    Reachable (· = d) g ∧ ∃ n ∈ g.nodes, n.kind = .action d ∧
      g.FindsGroup n (.variadic "items" .int) ∧ g.FindsOutput n (.control "none") .controlOutput ∧
      ∃ x, Engine.branchOf (.top g .empty ⟨32, true⟩ .standard) n.id (Outcome.empty.take "none") =
        .ok (some x) := by
  obtain ⟨haccepted, hfound⟩ := MethodDecl.declared_found "Pick" picking
  have hnames : ∀ p ∈ picking.filterMap Clause.param?,
      p.name ≠ enterName ∧ p.name ≠ exitName ∧ p.name ≠ returnName := by decide
  obtain ⟨d, hd⟩ := haccepted.2 ⟨⟨.compute fun _ => .ok (Outcome.empty.take "none"),
    by simp [picking]⟩, by decide,
    fun p hp => (hnames p hp).imp id fun h => h.imp id fun h _ => h, by decide⟩
  have hreachable : Reachable (· = d) ((Edit.addNode (.action d)).perform (.empty 0 .standard)) :=
    .edited _ (by simp [Edit.offers, NodeKind.action?, eq_comm]) (.blank 0 .standard)
  obtain rfl := define_eq_kind hd
  obtain ⟨n, hn, hkind⟩ : ∃ n ∈ ((Edit.addNode (.action (declare "Pick" picking).kind)).perform
      (.empty 0 .standard)).nodes, n.kind = .action (declare "Pick" picking).kind :=
    ⟨_, .head _, rfl⟩
  obtain ⟨hpresents, b, -, hrun⟩ := hfound _ hd _ _ hreachable n hn hkind
  obtain ⟨-, hfollow⟩ := hrun Unit (fun _ _ => .exhausted) nullHost
    (.top _ .empty ⟨32, true⟩ .standard) rfl
  refine ⟨_, _, hd, hreachable, n, hn, hkind, hpresents.groups _ _ (by simp [picking]),
    hpresents.branches _ (by simp [picking]), (hfollow _).2 fun k hk => .inr ?_⟩
  obtain rfl := Option.some.inj hk
  simp [picking]

end EffectGraph
