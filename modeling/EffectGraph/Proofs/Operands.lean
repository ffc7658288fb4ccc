import EffectGraph.Proofs.Packing
import EffectGraph.Proofs.Padding

/-!
# Operands of integer operations

An operator is applied step by step, and every step wraps. Sums and differences are nevertheless
those of the integers, reduced once (`IntegerOperator.toInt_foldl_add`,
`IntegerOperator.toInt_foldl_subtract`). The operators but subtraction may be started from zero
(`IntegerOperator.apply_eq_foldl`), so that the order of the operands does not matter, and a zero
does not show wherever it stands (`IntegerOperator.foldl_combine_nonzero`). A slot that is not in
use gives such a zero (`Setting.SlotValue.eq_default`), hence it does not show in the result of a
node either, unless the others are subtracted from it (`IntegerOperator.apply_exact`).
-/

namespace EffectGraph

open EffectGraph.Graph

namespace IntegerOperator

/-! ## Sums and differences -/

/-- The sum of the integers, which nothing bounds. -/
def total (as : List Int64) : Int := as.foldr (fun a sum => a.toInt + sum) 0

theorem total_cons (a : Int64) (as : List Int64) : total (a :: as) = a.toInt + total as := rfl

theorem toInt_foldl_add (a : Int64) (as : List Int64) :
    (as.foldl add.combine a).toInt = (a.toInt + total as).bmod UInt64.size := by
  induction as generalizing a with
  | nil => simp [total]
  | cons b bs ih =>
    have hstep : (a + b).toInt = (a.toInt + b.toInt).bmod UInt64.size := Int64.toInt_add a b
    calc ((b :: bs).foldl add.combine a).toInt
        = ((a + b).toInt + total bs).bmod UInt64.size := ih (a + b)
      _ = (a.toInt + b.toInt + total bs).bmod UInt64.size := by rw [hstep, Int.bmod_add_bmod]
      _ = (a.toInt + total (b :: bs)).bmod UInt64.size := by rw [total_cons, Int.add_assoc]

theorem toInt_foldl_subtract (a : Int64) (as : List Int64) :
    (as.foldl subtract.combine a).toInt = (a.toInt - total as).bmod UInt64.size := by
  induction as generalizing a with
  | nil => simp [total]
  | cons b bs ih =>
    have hstep : (a - b).toInt = (a.toInt - b.toInt).bmod UInt64.size := Int64.toInt_sub a b
    calc ((b :: bs).foldl subtract.combine a).toInt
        = ((a - b).toInt - total bs).bmod UInt64.size := ih (a - b)
      _ = (a.toInt - b.toInt - total bs).bmod UInt64.size := by rw [hstep, Int.bmod_sub_bmod]
      _ = (a.toInt - total (b :: bs)).bmod UInt64.size := by rw [total_cons, Int.sub_sub]

/-! ## Order -/

variable {o : IntegerOperator}

theorem zero_combine (ho : o ≠ subtract) (a : Int64) : o.combine 0 a = a := by
  cases o <;> simp_all [combine]

theorem combine_right_comm (ho : o ≠ subtract) (a b c : Int64) :
    o.combine (o.combine a b) c = o.combine (o.combine a c) b := by
  cases o with
  | add => simp only [combine, Int64.add_assoc, Int64.add_comm b]
  | subtract => exact absurd rfl ho
  | or => simp only [combine, Int64.or_assoc, Int64.or_comm b]
  | xor => simp only [combine, Int64.xor_assoc, Int64.xor_comm b]

/-- The operators but subtraction may be applied from zero on. -/
theorem apply_eq_foldl (ho : o ≠ subtract) (as : List Int64) :
    o.apply as = as.foldl o.combine 0 := by
  cases as with
  | nil => rfl
  | cons a as => rw [List.foldl_cons, zero_combine ho, apply]

theorem apply_perm (ho : o ≠ subtract) {as bs : List Int64} (h : as.Perm bs) :
    o.apply as = o.apply bs := by
  have : RightCommutative o.combine := ⟨combine_right_comm ho⟩
  rw [apply_eq_foldl ho, apply_eq_foldl ho, h.foldl_eq]

/-! ## Zeros -/

/-- Zeros among the operands after the first one do not show. -/
theorem foldl_combine_nonzero (o : IntegerOperator) (a : Int64) (as : List Int64) :
    (as.filter (· ≠ 0)).foldl o.combine a = as.foldl o.combine a := by
  induction as generalizing a with
  | nil => rfl
  | cons b bs ih =>
    by_cases hb : b = 0
    · rw [List.filter_cons_of_neg (by simpa using hb), ih, List.foldl_cons, hb, combine_zero]
    · rw [List.filter_cons_of_pos (by simpa using hb), List.foldl_cons, List.foldl_cons, ih]

theorem apply_cons_congr (o : IntegerOperator) (a : Int64) {as bs : List Int64}
    (h : as.filter (· ≠ 0) = bs.filter (· ≠ 0)) : o.apply (a :: as) = o.apply (a :: bs) := by
  rw [apply, apply, ← foldl_combine_nonzero, h, foldl_combine_nonzero]

theorem apply_congr (ho : o ≠ subtract) {as bs : List Int64}
    (h : as.filter (· ≠ 0) = bs.filter (· ≠ 0)) : o.apply as = o.apply bs := by
  rw [apply_eq_foldl ho, apply_eq_foldl ho, ← foldl_combine_nonzero, h, foldl_combine_nonzero]

theorem apply_append_replicate (o : IntegerOperator) (as : List Int64) (n : Nat) :
    o.apply (as ++ .replicate n 0) = o.apply as := by
  induction n with
  | zero => rw [List.replicate_zero, List.append_nil]
  | succ n ih => rw [List.replicate_succ', ← List.append_assoc, apply_concat_zero, ih]

end IntegerOperator

/-! ## Empty slots -/

/-- A list with the values of slots of a group from a place on, and the list that is left of it if
values of slots that are not in use are taken out. -/
inductive Graph.Omits (g : Graph Definition) (node : Node Definition) (group : String) :
    Nat → List Value → List Value → Prop
  | nil {i : Nat} : Omits g node group i [] []
  | keep {i : Nat} (v : Value) {vs ws : List Value} (h : Omits g node group (i + 1) vs ws) :
    Omits g node group i (v :: vs) (v :: ws)
  | drop {i : Nat} (v : Value) {vs ws : List Value} (hfree : ¬g.SlotInUse node group i)
    (h : Omits g node group (i + 1) vs ws) : Omits g node group i (v :: vs) ws

variable {σ : Type} {s : Setting} {host : Host σ} {node : Node Definition} {c : PortDecl} {i : Nat}
  {m m' : Machine σ}

/-- A slot that is not in use has the default of the type. -/
theorem Setting.SlotValue.eq_default (hg : s.graph.Ascending) (hnode : node ∈ s.graph.nodes)
    {v : Value} (h : s.SlotValue host node c i m v m')
    (hfree : ¬s.graph.SlotInUse node c.name i) : v = c.type.default := by
  cases h with
  | connected k hp hx =>
    -- The port of the slot is at the end of the connection that its value comes through.
    rw [input?, node?_of_mem hg hnode, Option.bind_some] at hp
    obtain ⟨q, hq, rfl⟩ := Option.map_eq_some_iff.1 hp
    have hname := List.find?_some hq
    simp only [Bool.and_eq_true, decide_eq_true_eq] at hname
    simp only [valueSource?, portId, if_true] at hx
    obtain ⟨e, he, -⟩ := Option.map_eq_some_iff.1 hx
    have hend := of_decide_eq_true
      (List.find?_some (p := fun e : Connection => e.destination = q.index) he)
    refine absurd (.inl ⟨q, List.mem_of_find?_eq_some hq, hname.1, hname.2, ?_⟩) hfree
    have htouches : e.touches q.index = true := by simp [Connection.touches, hend]
    simp only [isConnected, portId, decide_true, Bool.true_and, isWired, List.any_eq_true]
    exact ⟨e, List.mem_of_find?_eq_some he, htouches⟩
  | defaulted _ _ hv => exact absurd (.inr (hv ▸ rfl)) hfree
  | empty => rfl

/-- What is taken out of the values of a group of integers are zeros. -/
theorem Setting.Packs.nonzero_eq (hg : s.graph.Ascending) (hnode : node ∈ s.graph.nodes)
    (hc : c.type = .int) {vs ws : List Value} (h : s.Packs host node c i m vs m')
    (homits : s.graph.Omits node c.name i vs ws) :
    (vs.map fun v => v.asInt?.getD 0).filter (· ≠ 0) =
      (ws.map fun v => v.asInt?.getD 0).filter (· ≠ 0) := by
  induction h generalizing ws with
  | done =>
    cases homits
    rfl
  | slot hv h ih =>
    cases homits with
    | keep v hrest =>
      rw [List.map_cons, List.map_cons, List.filter_cons, List.filter_cons, ih hrest]
    | drop v hfree hrest =>
      rw [hv.eq_default hg hnode hfree, hc, ← ih hrest]
      rfl

/-! ## Integer operations -/

/-- The body of an integer operation uses of the array of its operands only what the operator gives
on them. -/
theorem Library.integerOperation_of_apply {body : Body}
    (hbody : integerOperation.body = some body) {n : NodeId} {args : Table String Value}
    {e : Environment} {vs ws : List Value} (hvalues : args.get? "values" = some (.array vs))
    (happly : ∀ text o, args.get? "operator" = some (.string text) →
      IntegerOperator.ofText? text = some o →
      o.apply (vs.map fun v => v.asInt?.getD 0) = o.apply (ws.map fun v => v.asInt?.getD 0)) :
    body ⟨n, args, e⟩ = body ⟨n, args.insert "values" (.array ws), e⟩ := by
  obtain rfl := Option.some.inj hbody
  have hoperator : (args.insert "values" (.array ws)).get? "operator" = args.get? "operator" := by
    simp
  have hvalues' : (args.insert "values" (.array ws)).get? "values" = some (.array ws) := by simp
  simp only [Body.compute, Call.string, Call.array, Call.argAs, Call.arg, hoperator, hvalues,
    hvalues']
  cases htext : args.get? "operator" with
  | none => rfl
  | some v =>
    cases v with
    | string text =>
      cases ho : IntegerOperator.ofText? text with
      | none => simp only [bind, Except.bind, Value.asString?, ho]
      | some o =>
        simp only [bind, Except.bind, Value.asString?, Value.asArray?, ho, happly text o htext ho]
    | _ => rfl

/-- The integer operators are exact but for one reduction of the result to 64 bits with a sign, and
zero is neutral. A sum is the sum of the integers, and a difference is the first integer without the
sum of the others; nothing gives zero. The order does not matter except for subtraction. Operands
that differ in zeros only have the same result if they have the same first operand, or if nothing is
subtracted. So when the operands of a node have been pulled, the body does the same on the values of
any of its slots that include those of the slots in use, and the first one if others are subtracted
from it. -/
theorem IntegerOperator.apply_exact :
    (∀ as, (add.apply as).toInt = (total as).bmod UInt64.size) ∧
    (∀ a as, (subtract.apply (a :: as)).toInt = (a.toInt - total as).bmod UInt64.size) ∧
    (∀ o : IntegerOperator, o.apply [] = 0 ∧
      (o ≠ subtract → ∀ as bs, as.Perm bs → o.apply as = o.apply bs) ∧
      (∀ a as bs, as.filter (· ≠ 0) = bs.filter (· ≠ 0) → o.apply (a :: as) = o.apply (a :: bs)) ∧
      (∀ as n, o.apply (as ++ .replicate n 0) = o.apply as) ∧
      (o ≠ subtract → ∀ as bs, as.filter (· ≠ 0) = bs.filter (· ≠ 0) → o.apply as = o.apply bs)) ∧
    ∀ (σ : Type) (s : Setting) (host : Host σ) (k : Nat) (node : Node Definition) (m m' : Machine σ)
      (args : Table String Value) (e : Environment) (body : Body),
      Reachable Definition.Built s.graph → s.graph.Unwriting → node ∈ s.graph.nodes →
      node.kind = .action Library.integerOperation.kind → s.graph.OutputsOnly m.memory.scopes →
      Library.integerOperation.body = some body →
      (exec host k).bindParams s node Library.integerOperation.params .empty
        (m.entering node.id Library.integerOperation.name) = some (.ok args, m') →
      ∃ vs m₁ m₂, s.Packs host node (.variadic "values" .int) 0 m₁ vs m₂ ∧
        args.get? "values" = some (.array vs) ∧
        (∀ v us ws, vs = v :: us → s.graph.Omits node "values" 1 us ws →
          body ⟨node.id, args, e⟩ = body ⟨node.id, args.insert "values" (.array (v :: ws)), e⟩) ∧
        ∀ ws, s.graph.Omits node "values" 0 vs ws →
          (∀ text, args.get? "operator" = some (.string text) → ofText? text ≠ some subtract) →
          body ⟨node.id, args, e⟩ = body ⟨node.id, args.insert "values" (.array ws), e⟩ := by
  refine ⟨fun as => ?_, toInt_foldl_subtract, fun o => ⟨rfl, fun ho as bs => apply_perm ho,
    fun a as bs => apply_cons_congr o a, apply_append_replicate o,
    fun ho as bs => apply_congr ho⟩, ?_⟩
  · rw [apply_eq_foldl (by decide), toInt_foldl_add, Int64.toInt_zero, Int.zero_add]
  · intro σ s host k node m m' args e body hg hs hnode hkind hm hbody hargs
    have hreaches : s.Reaches host k node Library.integerOperation.kind m args.get? m' :=
      .body rfl hargs
    obtain ⟨-, -, m₁, m₂, vs, -, -, hpacks, -, hvalues, -⟩ := hreaches.packs
      (c := .variadic "values" .int) hg hs hnode hkind (by decide) rfl rfl (by rintro _ ⟨⟩) hm
    have hasc := hg.valid.ascending
    refine ⟨vs, m₁, m₂, hpacks, hvalues, ?_, fun ws homits ho => ?_⟩
    · rintro v us ws rfl homits
      cases hpacks with
      | slot hv hrest =>
        refine Library.integerOperation_of_apply hbody hvalues fun _ o _ _ => ?_
        exact o.apply_cons_congr _ (hrest.nonzero_eq hasc hnode rfl homits)
    · refine Library.integerOperation_of_apply hbody hvalues fun text o htext hread => ?_
      have hne : o ≠ subtract := by
        rintro rfl
        exact ho text htext hread
      exact apply_congr hne (hpacks.nonzero_eq hasc hnode rfl homits)

/-- Of four slots two are in use, and the others may be left out of a sum. -/
theorem apply_exact_gapped :
    IntegerOperator.xor.apply [1, 2, 4] = IntegerOperator.xor.apply [4, 1, 2] ∧
    IntegerOperator.subtract.apply [10, 0, 4, 0, 1] = IntegerOperator.subtract.apply [10, 4, 1] ∧
    ∃ (body : Body) (args : Table String Value), Library.integerOperation.body = some body ∧
      args.get? "values" = some (.array [.int 0, .int 5, .int 7, .int 0]) ∧
      body ⟨⟨2⟩, args, .empty⟩ =
        body ⟨⟨2⟩, args.insert "values" (.array [.int 5, .int 7]), .empty⟩ := by
  obtain ⟨-, -, happly, hnode⟩ := IntegerOperator.apply_exact
  obtain ⟨-, hperm, -⟩ := happly .xor
  obtain ⟨-, -, hzero, -⟩ := happly .subtract
  refine ⟨hperm (by decide) _ _ (by decide), hzero 10 _ _ (by decide), ?_⟩
  have hrun : (((exec nullHost 5).bindParams (gappedFlow Library.integerOperation.kind)
      (gappedNode Library.integerOperation.kind) Library.integerOperation.params .empty
      (Machine.entering ⟨.start .empty, [], ()⟩ ⟨2⟩ "IntegerOperation")).map fun r =>
        (r.1.toOption.bind (·.get? "values"), r.1.toOption.bind (·.get? "operator"))) =
      some (some (.array [.int 0, .int 5, .int 7, .int 0]), some (.string "")) := by
    decide +kernel
  obtain ⟨⟨r, m'⟩, hargs, hget⟩ := Option.map_eq_some_iff.1 hrun
  obtain ⟨hvalues, hoperator⟩ := Prod.mk.inj hget
  cases r with
  | error e => cases hvalues
  | ok args =>
    have hmade : Library.integerOperation.kind.Made :=
      Definition.Standard.made ⟨Library.integerOperation, by simp [Library.declarations], rfl⟩
    have hreachable := reachable_gappedFlow hmade
    obtain ⟨vs, m₁, m₂, -, hvs, -, hsum⟩ := hnode Unit _ nullHost 5
      (gappedNode Library.integerOperation.kind) ⟨.start .empty, [], ()⟩ m' args .empty _
      (hreachable.mono fun _ h => h.built) hreachable.unwriting
      (List.mem_cons_of_mem _ (List.mem_singleton.2 rfl)) rfl .empty rfl hargs
    obtain rfl : vs = [.int 0, .int 5, .int 7, .int 0] :=
      Value.array.inj (Option.some.inj (hvs.symm.trans hvalues))
    have hfree : ∀ i ∈ [0, 3], ¬(gappedFlow Library.integerOperation.kind).graph.SlotInUse
        (gappedNode Library.integerOperation.kind) "values" i := by
      unfold Graph.SlotInUse
      decide +kernel
    refine ⟨_, args, rfl, hvalues, hsum _ ?_ fun text htext => ?_⟩
    · exact .drop _ (hfree 0 (by decide)) (.keep _ (.keep _ (.drop _ (hfree 3 (by decide)) .nil)))
    · obtain rfl : "" = text := Value.string.inj (Option.some.inj (hoperator.symm.trans htext))
      decide

example : IntegerOperator.subtract.apply [0, 5] ≠ IntegerOperator.subtract.apply [5] := by decide

end EffectGraph
