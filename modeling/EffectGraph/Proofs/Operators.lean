import EffectGraph.Proofs.Faults
import EffectGraph.Proofs.Supervision

/-!
# Faults of the standard kinds

The bodies of the standard kinds find every argument that they ask for, at the type that they ask
for, and choose declared branches. The only arguments that are not good for any body are the
operators, which are texts of a few forms: `IntegerOperation` and `Compare` refuse the others
(`Library.Refuses`). So a flow over a graph of standard kinds fails for a cycle or for an operator
that is refused, and for nothing else (`Reachable.standard_faults`).
-/

namespace EffectGraph

open EffectGraph.Graph

/-! ## Operators -/

/-- The texts that are read as operators. -/
def IntegerOperator.accepted : List String :=
  ["", "add", "+", "subtract", "-", "or", "|", "xor", "^"]

theorem IntegerOperator.ofText?_eq_none_iff {text : String} :
    ofText? text = none ↔ text ∉ accepted := by
  simp only [accepted, List.mem_cons, List.not_mem_nil, or_false]
  unfold ofText?
  split_ifs <;> grind

/-- The texts that are read as comparisons. -/
def Comparison.accepted : List String := ["<", "<=", "", "==", "!=", ">", ">="]

theorem Comparison.ofText?_eq_none_iff {text : String} :
    ofText? text = none ↔ text ∉ accepted := by
  simp only [accepted, List.mem_cons, List.not_mem_nil, or_false]
  unfold ofText?
  split_ifs <;> grind

/-- The error with which a kind refuses the text of an operator. -/
inductive Library.Refuses : MethodDecl → String → ActionError → Prop
  | integerOperation {text : String} (h : text ∉ IntegerOperator.accepted) :
    Refuses integerOperation text (.failed (IntegerOperator.unknownText text))
  | compare {text : String} (h : text ∉ Comparison.accepted) :
    Refuses compare text (.wrongArgument "operator" "a comparison operator" text)

/-! ## Arguments -/

namespace Call.Serves

variable {c : Call} {ps : List MethodParam} {name : String} {t : ValueType}

theorem exists_value (h : c.Serves ps)
    (hp : .input (.value name t) ∈ ps ∨ .const (.value name t) ∈ ps) :
    ∃ v, c.args.get? name = some v ∧ v.belongsTo t = true := by
  rcases hp with hp | hp
  · obtain ⟨v, hget, hv⟩ := h.input _ hp
    exact ⟨v, hget, by simpa [PortDecl.Takes, PortDecl.value] using hv⟩
  · exact h.const _ hp

theorem exists_int (h : c.Serves ps)
    (hp : .input (.value name .int) ∈ ps ∨ .const (.value name .int) ∈ ps) :
    ∃ i, c.int name = .ok i := by
  obtain ⟨v, hget, hv⟩ := h.exists_value hp
  cases v <;> simp [Value.belongsTo, ValueType.isReference] at hv
  next i => exact ⟨i, by simp [int, argAs, arg, hget, Value.asInt?, bind, Except.bind]⟩

theorem exists_bool (h : c.Serves ps) (hp : .input (.value name .bool) ∈ ps) :
    ∃ b, c.bool name = .ok b := by
  obtain ⟨v, hget, hv⟩ := h.exists_value (.inl hp)
  cases v <;> simp [Value.belongsTo, ValueType.isReference] at hv
  next b => exact ⟨b, by simp [bool, argAs, arg, hget, Value.asBool?, bind, Except.bind]⟩

theorem exists_string (h : c.Serves ps)
    (hp : .input (.value name .string) ∈ ps ∨ .const (.value name .string) ∈ ps) :
    ∃ text, c.args.get? name = some (.string text) ∧ c.string name = .ok text := by
  obtain ⟨v, hget, hv⟩ := h.exists_value hp
  cases v <;> simp [Value.belongsTo, ValueType.isReference] at hv
  next text =>
    exact ⟨text, hget, by simp [string, argAs, arg, hget, Value.asString?, bind, Except.bind]⟩

theorem exists_array (h : c.Serves ps) (hp : .input (.variadic name t) ∈ ps) :
    ∃ vs, c.array name = .ok vs := by
  obtain ⟨v, hget, hv⟩ := h.input _ hp
  obtain ⟨vs, rfl, -⟩ : ∃ vs, v = .array vs ∧ ∀ w ∈ vs, w.belongsTo t = true := by
    simpa [PortDecl.Takes, PortDecl.variadic] using hv
  have hget : c.args.get? name = some (.array vs) := hget
  exact ⟨vs, by simp [array, argAs, arg, hget, Value.asArray?, bind, Except.bind]⟩

theorem exists_ambient (h : c.Serves ps) {context : Ambient} (hp : .ambient name context ∈ ps) :
    ∃ v, c.arg name = .ok v := by
  obtain ⟨v, hget⟩ := h.ambient name context hp
  exact ⟨v, by simp [arg, hget]⟩

end Call.Serves

/-! ## Bodies -/

namespace Library

/-- The body of a declaration, when it is called, ends and follows a declared branch if any, or it
refuses the operator that it is called with. -/
def Answers (m : MethodDecl) (c : Call) : Prop :=
  ∀ body, m.body = some body →
    (∃ o, (body c).Ends (.ok o) ∧
        ∀ name, o.branch = some name → .branch (.control name) ∈ m.params) ∨
      ∃ text source, c.args.get? "operator" = some (.string text) ∧ Refuses m text source ∧
        (body c).Ends (.error (.action source))

variable {m : MethodDecl} {c : Call}

theorem answers_of_ok {f : Call → Except ActionError Outcome} (hbody : m.body = some (.compute f))
    {o : Outcome} (hf : f c = .ok o)
    (hbranch : ∀ name, o.branch = some name → .branch (.control name) ∈ m.params) :
    Answers m c := by
  intro body h
  obtain rfl := Option.some.inj (hbody.symm.trans h)
  refine .inl ⟨o, ?_, hbranch⟩
  simp only [Body.compute, hf]
  exact .pure _

theorem answers_of_refuses {f : Call → Except ActionError Outcome}
    (hbody : m.body = some (.compute f)) {text : String} {source : ActionError}
    (hget : c.args.get? "operator" = some (.string text)) (h : Refuses m text source)
    (hf : f c = .error source) : Answers m c := by
  intro body hb
  obtain rfl := Option.some.inj (hbody.symm.trans hb)
  refine .inr ⟨text, source, hget, h, ?_⟩
  simp only [Body.compute, hf]
  exact .pure _

/-- A branch is chosen by a truth value. -/
theorem branch_mem_of_branchName {name : String} {b : Bool} (h : some (branchName b) = some name)
    (htrue : .branch (.control "true") ∈ m.params)
    (hfalse : .branch (.control "false") ∈ m.params) : .branch (.control name) ∈ m.params := by
  obtain rfl := Option.some.inj h
  cases b
  · exact hfalse
  · exact htrue

theorem answers_integer (h : c.Serves integer.params) : Answers integer c := by
  obtain ⟨i, hi⟩ := h.exists_int (.inr (.head _))
  refine answers_of_ok (o := .returning (.int i)) rfl ?_ (fun _ h => nomatch h)
  simp only [hi]
  rfl

theorem answers_integerOperation (h : c.Serves integerOperation.params) :
    Answers integerOperation c := by
  obtain ⟨text, hget, htext⟩ := h.exists_string (.inr (.head _))
  obtain ⟨vs, hvs⟩ := h.exists_array (.tail _ (.head _))
  cases ho : IntegerOperator.ofText? text with
  | none =>
    have hrefuses := Refuses.integerOperation (IntegerOperator.ofText?_eq_none_iff.1 ho)
    refine answers_of_refuses rfl hget hrefuses ?_
    simp only [htext, bind, Except.bind, ho]
  | some operator =>
    refine answers_of_ok rfl ?_ (fun _ h => nomatch h)
      (o := .returning (.int (operator.apply (vs.map fun v => v.asInt?.getD 0))))
    simp only [htext, bind, Except.bind, ho, hvs]

theorem answers_compare (h : c.Serves compare.params) : Answers compare c := by
  obtain ⟨left, hleft⟩ := h.exists_int (.inl (.head _))
  obtain ⟨right, hright⟩ := h.exists_int (.inl (.tail _ (.head _)))
  obtain ⟨text, hget, htext⟩ := h.exists_string (.inr (.tail _ (.tail _ (.head _))))
  cases ho : Comparison.ofText? text with
  | none =>
    have hrefuses := Refuses.compare (Comparison.ofText?_eq_none_iff.1 ho)
    refine answers_of_refuses rfl hget hrefuses ?_
    simp only [hleft, hright, htext, bind, Except.bind, ho]
  | some comparison =>
    let outcome := comparison.holds left right
    refine answers_of_ok rfl ?_
      (o := (Outcome.returning (.bool outcome)).take (branchName outcome))
      fun name hname => branch_mem_of_branchName hname (by decide) (by decide)
    simp only [hleft, hright, htext, bind, Except.bind, ho, outcome]

theorem answers_text (h : c.Serves text.params) : Answers text c := by
  obtain ⟨s, -, hs⟩ := h.exists_string (.inr (.head _))
  refine answers_of_ok (o := .returning (.string s)) rfl ?_ (fun _ h => nomatch h)
  simp only [hs]
  rfl

theorem answers_concat (h : c.Serves concat.params) : Answers concat c := by
  obtain ⟨vs, hvs⟩ := h.exists_array (.head _)
  refine answers_of_ok rfl ?_ (fun _ h => nomatch h)
    (o := .returning (.string (String.join (vs.filterMap Value.asString?))))
  simp only [hvs]
  rfl

theorem answers_branch (h : c.Serves branch.params) : Answers branch c := by
  obtain ⟨b, hb⟩ := h.exists_bool (.head _)
  refine answers_of_ok (o := Outcome.empty.take (branchName b)) rfl ?_
    fun name hname => branch_mem_of_branchName hname (by decide) (by decide)
  simp only [hb]
  rfl

theorem answers_delay (h : c.Serves delay.params) : Answers delay c := by
  obtain ⟨i, hi⟩ := h.exists_int (.inl (.head _))
  refine answers_of_ok (o := .empty) rfl ?_ (fun _ h => nomatch h)
  simp only [hi]
  rfl

theorem answers_context {kind param : String} {type : ValueType} {x : Ambient}
    (htype : Ambient.ofType? type = some x) (h : c.Serves (context kind param type).params) :
    Answers (context kind param type) c := by
  have hparam : .ambient param x ∈ (context kind param type).params := by
    simp [context, MethodParam.ofType, htype]
  obtain ⟨v, hv⟩ := h.exists_ambient hparam
  refine answers_of_ok (o := .returning v) rfl ?_ (fun _ h => nomatch h)
  simp only [hv]
  rfl

theorem answers_log (h : c.Serves log.params) : Answers log c := by
  obtain ⟨message, -, hmessage⟩ := h.exists_string (.inl (.head _))
  intro body hbody
  obtain rfl := Option.some.inj hbody
  refine .inl ⟨.empty, ?_, fun _ h => nomatch h⟩
  simp only [hmessage]
  exact .log (.pure _)

theorem answers_of_mem (hm : m ∈ declarations) (h : c.Serves m.params) : Answers m c := by
  simp only [declarations, List.mem_cons, List.not_mem_nil, or_false] at hm
  rcases hm with rfl | rfl | rfl | rfl | rfl | rfl | rfl | rfl | rfl | rfl | rfl
  · exact answers_integer h
  · exact answers_integerOperation h
  · exact answers_compare h
  · exact answers_text h
  · exact answers_concat h
  · exact answers_branch h
  · exact answers_delay h
  · exact answers_context rfl h
  · exact answers_context rfl h
  · exact answers_context rfl h
  · exact answers_log h

theorem isControl_of_input (hm : m ∈ declarations) {d : PortDecl} (hd : .input d ∈ m.params) :
    d.isControl = false := by
  have hall : ∀ m ∈ declarations, ∀ p ∈ m.params, ∀ d, p.input? = some d → d.isControl = false := by
    decide
  exact hall m hm _ hd d rfl

/-- The standard kinds are reliable. -/
theorem reliable_of_mem (hm : m ∈ declarations) : m.Reliable where
  values _ hd := isControl_of_input hm hd
  branches _ hd := isControl_of_branch hm hd
  quiet _ hbody c := quiet_of_mem hm hbody c
  ends body hbody c hc r hr := by
    rcases answers_of_mem hm hc body hbody with ⟨o, ho, hbranch⟩ | ⟨text, source, -, -, hsource⟩
    · exact .inr ⟨o, hr.unique ho, fun name hname => ⟨_, hbranch name hname, rfl⟩⟩
    · exact .inl ⟨source, hr.unique hsource⟩

end Library

/-! ## Runs -/

/-- A fault in a flow over standard kinds is a cycle or an operator that is refused. -/
theorem Setting.Fault.standard {s : Setting} (hg : s.graph.Valid []) (hhook : s.hook.Conforming)
    (hkinds : ∀ n ∈ s.graph.nodes, ∀ d, n.kind = .action d → d.Standard) {e : FlowError}
    (h : s.Fault e) : (∃ n, e = .cycle n) ∨
      ∃ node ∈ s.graph.nodes, ∃ m ∈ Library.declarations, ∃ text source,
        node.kind = .action m.kind ∧
        (Engine.constant node "operator").convert s.hook .string = .string text ∧
        Library.Refuses m text source ∧ e = .action node.id m.name source := by
  cases h with
  | cycle n => exact .inl ⟨n, rfl⟩
  | body hnode hkind hb hargs hends =>
    rename_i node d b args source
    obtain ⟨m, hm, hdefine⟩ := hkinds node hnode d hkind
    have hd : d.Reliable m := ⟨Library.reliable_of_mem hm, hdefine⟩
    obtain ⟨b', hb', hparams, hbody, hnames, -⟩ := hd.exists_method
    obtain rfl := Behaviour.method.inj (hb.symm.trans hb')
    rw [hparams] at hargs
    have hserves := Engine.serves_of_arguments hg hnode hd hkind hhook hargs
    rcases Library.answers_of_mem hm hserves b.body hbody with ⟨o, ho, -⟩ |
      ⟨text, source', hget, hrefuses, hsource⟩
    · exact nomatch hends.unique ho
    obtain rfl : source = source' := by simpa using hends.unique hsource
    -- Both kinds that refuse operators declare them as constants.
    have hconst : .const (.value "operator" .string) ∈ m.params := by
      cases hrefuses <;> decide
    obtain ⟨v, hv, rfl⟩ := hargs.get?_of_mem hnames hconst rfl
    refine .inr ⟨node, hnode, m, hm, text, source, ?_, ?_, hrefuses, ?_⟩
    · rw [hkind, define_eq_kind hdefine]
    · exact Option.some.inj (hv.symm.trans hget)
    · rw [define_eq_kind hdefine]
      rfl

/-- A flow over standard kinds fails for two reasons only. Under a hook whose direct conversions
conform, in any environment and whatever the flow was asked before, a run from an action node or
from Return ends well, or because a node depends on its own output, or because the text that the
operator of a node is converted to is refused by the kind of the node. -/
theorem Reachable.standard_faults {σ : Type} {K : Definition → Prop} {s : Setting}
    (hg : Reachable K s.graph)
    (hkinds : ∀ n ∈ s.graph.nodes, ∀ d, n.kind = .action d → d.Standard)
    (hhook : s.hook.Conforming) (host : Host σ) {m : Machine σ} (hm : Visited s host m)
    {n : Node Definition} (hn : n ∈ s.graph.nodes) (hkind : n.kind ≠ .entry) (k : Nat)
    {r : Except FlowError Unit} {m' : Machine σ}
    (hrun : (exec host k).runNode s n.id m = some (r, m')) :
    r = .ok () ∨ (∃ c, r = .error (.cycle c)) ∨
      ∃ node ∈ s.graph.nodes, ∃ decl ∈ Library.declarations, ∃ text source,
        node.kind = .action decl.kind ∧
        (Engine.constant node "operator").convert s.hook .string = .string text ∧
        Library.Refuses decl text source ∧ r = .error (.action node.id decl.name source) := by
  have hs : s.Reliable := by
    refine ⟨hg.valid, hhook, fun n hn d hd => ?_⟩
    obtain ⟨decl, hdecl, hdefine⟩ := hkinds n hn d hd
    exact ⟨decl, Library.reliable_of_mem hdecl, hdefine⟩
  cases r with
  | ok u => exact .inl rfl
  | error e =>
    have hfault := fault_of_runNode hs host hn hkind (hm.conforming_of_reliable hs) hrun
    rcases hfault.standard hg.valid hhook hkinds with ⟨c, rfl⟩ |
      ⟨node, hnode, decl, hdecl, text, source, hnodeKind, htext, hrefuses, rfl⟩
    · exact .inr (.inl ⟨c, rfl⟩)
    · exact .inr (.inr ⟨node, hnode, decl, hdecl, text, source, hnodeKind, htext, hrefuses, rfl⟩)

/-- A message is had from an operation whose operator is an integer. -/
def refusedSum : Graph Definition :=
  [.addNode (.action Library.integerOperation.kind), .addNode (.action Library.log.kind),
    .setConst ⟨1⟩ "operator" (.int 7), .connect ⟨0, 3⟩ ⟨0, 5⟩].foldl Edit.perform
    (.empty 0 .standard)

theorem standard_refusedSum :
    ∀ k ∈ [Library.integerOperation.kind, Library.log.kind], k.Standard := by
  intro k hk
  rcases List.mem_pair.1 hk with rfl | rfl
  · exact ⟨Library.integerOperation, by simp [Library.declarations], rfl⟩
  · exact ⟨Library.log, by simp [Library.declarations], rfl⟩

theorem reachable_refusedSum : Reachable Definition.Standard refusedSum := by
  refine .foldl (fun e he k hk => standard_refusedSum k ?_) (.blank 0 .standard)
  simp only [List.mem_cons, List.not_mem_nil, or_false] at he
  rcases he with rfl | rfl | rfl | rfl <;> simp_all [Edit.offers, NodeKind.action?]

def refusedFlow : Setting := .top refusedSum .empty ⟨32, true⟩ .standard

/-- The message is not written, as the operation refuses the text of the integer. -/
theorem runNode_refusedFlow :
    ((exec nullHost 12).runNode refusedFlow ⟨2⟩ ⟨.start .empty, [], ()⟩).map (·.1) =
        some (.error (.action ⟨1⟩ "IntegerOperation" (.failed "unknown integer operator '7'"))) ∧
      ∃ node ∈ refusedFlow.graph.nodes, ∃ text, node.id = ⟨1⟩ ∧
        node.kind = .action Library.integerOperation.kind ∧
        (Engine.constant node "operator").convert refusedFlow.hook .string = .string text ∧
        text ∉ IntegerOperator.accepted := by
  have hrun : ((exec nullHost 12).runNode refusedFlow ⟨2⟩ ⟨.start .empty, [], ()⟩).map (·.1) =
      some (.error (.action ⟨1⟩ "IntegerOperation" (.failed "unknown integer operator '7'"))) := by
    decide +kernel
  refine ⟨hrun, ?_⟩
  obtain ⟨⟨r, m'⟩, hrun, rfl⟩ := Option.map_eq_some_iff.1 hrun
  have hkinds : ∀ n ∈ refusedFlow.graph.nodes, ∀ d, n.kind = .action d → d.Standard :=
    fun n hn d hd => (reachable_refusedSum.invariant.2 n hn).1 d hd
  obtain ⟨n, hn⟩ : ∃ n, refusedFlow.graph.node? ⟨2⟩ = some n := ⟨_, rfl⟩
  obtain ⟨hmem, hid⟩ := node?_mem hn
  have hkind : n.kind ≠ .entry := by
    obtain rfl := Option.some.inj hn
    exact fun h => nomatch h
  rcases Reachable.standard_faults reachable_refusedSum hkinds ConversionHook.conforming_standard
    nullHost (.fresh [] ()) hmem hkind 12 (hid ▸ hrun) with h | ⟨c, h⟩ |
    ⟨node, hnode, decl, -, text, source, hnodeKind, htext, hrefuses, he⟩
  · exact nomatch h
  · exact nomatch h
  · obtain ⟨hnodeId, hname, -⟩ := FlowError.action.inj (Except.error.inj he)
    cases hrefuses with
    | integerOperation hnot => exact ⟨node, hnode, text, hnodeId.symm, hnodeKind, htext, hnot⟩
    | compare => simp [Library.compare] at hname

end EffectGraph
