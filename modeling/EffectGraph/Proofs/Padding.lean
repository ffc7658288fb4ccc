import EffectGraph.Proofs.Transparent

/-!
# Empty slots do not show

A group hands its node an array with one element for each slot that it shows. An empty slot at the
end contributes the default of the type, and the standard kinds do not tell an array from one with
such elements added or taken off at the end (`Library.body_congr`): zero is neutral for every
operator on integers, and so is the empty text for the joining of texts.
-/

namespace EffectGraph

/-- Two lists that differ at most by how often a value is repeated at the end. -/
def Padded (v : Value) (vs vs' : List Value) : Prop :=
  ∃ i j, vs ++ .replicate i v = vs' ++ .replicate j v

/-- Tables of arguments that differ at most in the arrays of variadic groups, and there by defaults
at the end. -/
def ArgsAlike (ds : List PortDecl) (args args' : Table String Value) : Prop :=
  ∀ name, args.get? name = args'.get? name ∨ ∃ d ∈ ds, d.isVariadic = true ∧ d.name = name ∧
    ∃ vs vs', args.get? name = some (.array vs) ∧ args'.get? name = some (.array vs') ∧
      Padded d.type.default vs vs'

namespace Padded

variable {v w : Value} {vs vs' : List Value}

theorem refl (vs : List Value) : Padded v vs vs := ⟨0, 0, rfl⟩

theorem symm (h : Padded v vs vs') : Padded v vs' vs := by
  obtain ⟨i, j, h⟩ := h
  exact ⟨j, i, h.symm⟩

theorem cons (h : Padded v vs vs') : Padded v (w :: vs) (w :: vs') := by
  obtain ⟨i, j, h⟩ := h
  exact ⟨i, j, congrArg (w :: ·) h⟩

/-- A function that is blind to the value at the end is blind to the difference. -/
theorem congr {α : Type} {f : List Value → α} (hf : ∀ vs, f (vs ++ [v]) = f vs)
    (h : Padded v vs vs') : f vs = f vs' := by
  have hpad : ∀ i vs, f (vs ++ .replicate i v) = f vs := by
    intro i
    induction i with
    | zero => simp
    | succ i ih =>
      intro vs
      rw [List.replicate_succ', ← List.append_assoc, hf, ih]
  obtain ⟨i, j, h⟩ := h
  rw [← hpad i vs, h, hpad j vs']

end Padded

namespace ArgsAlike

variable {ds : List PortDecl} {args args' : Table String Value}

theorem refl (args : Table String Value) : ArgsAlike ds args args := fun _ => .inl rfl

theorem insert (h : ArgsAlike ds args args') (name : String) (v : Value) :
    ArgsAlike ds (args.insert name v) (args'.insert name v) := by
  intro name'
  by_cases hname : name' = name
  · exact .inl (by simp [hname])
  · simpa [hname] using h name'

theorem insert_array (h : ArgsAlike ds args args') {d : PortDecl} (hd : d ∈ ds)
    (hvariadic : d.isVariadic = true) {vs vs' : List Value}
    (hpad : Padded d.type.default vs vs') :
    ArgsAlike ds (args.insert d.name (.array vs)) (args'.insert d.name (.array vs')) := by
  intro name
  by_cases hname : name = d.name
  · exact .inr ⟨d, hd, hvariadic, hname.symm, vs, vs', by simp [hname], by simp [hname], hpad⟩
  · simpa [hname] using h name

/-- Without variadic groups the arguments are the same. -/
theorem eq (h : ArgsAlike ds args args') (hds : ∀ d ∈ ds, d.isVariadic = false) : args = args' :=
  Table.ext_get? fun name => (h name).resolve_right fun ⟨d, hd, hvariadic, _⟩ => by
    simp [hds d hd] at hvariadic

/-- The argument of another parameter than a group is the same. -/
theorem get?_eq (h : ArgsAlike ds args args') {name : String} (hname : ∀ d ∈ ds, d.name ≠ name) :
    args.get? name = args'.get? name :=
  (h name).resolve_right fun ⟨d, hd, _, hdn, _⟩ => hname d hd hdn

end ArgsAlike

/-! ## Neutral elements -/

theorem IntegerOperator.combine_zero (o : IntegerOperator) (a : Int64) : o.combine a 0 = a := by
  cases o <;> simp [combine]

/-- A zero at the end of the operands changes nothing. -/
theorem IntegerOperator.apply_concat_zero (o : IntegerOperator) (as : List Int64) :
    o.apply (as ++ [0]) = o.apply as := by
  cases as with
  | nil => rfl
  | cons a as => simp [apply, combine_zero]

/-- An empty text at the end of the parts changes nothing. -/
theorem join_concat_empty (ss : List String) : String.join (ss ++ [""]) = String.join ss := by
  simp [String.join]

namespace Library

variable {args args' : Table String Value} {n : NodeId} {e : Environment} {body : Body}

theorem isControl_of_mem : ∀ m ∈ declarations, ∀ p ∈ m.params, ∀ d, p.input? = some d →
    d.isControl = false := by
  decide

theorem integerOperation_congr (hbody : integerOperation.body = some body)
    (h : ArgsAlike integerOperation.signature.inputs args args') :
    body ⟨n, args, e⟩ = body ⟨n, args', e⟩ := by
  obtain rfl := Option.some.inj hbody
  have hoperator : args.get? "operator" = args'.get? "operator" := h.get?_eq (by decide)
  rcases h "values" with hvalues | ⟨d, hd, -, -, vs, vs', hvs, hvs', hpad⟩
  · simp only [Body.compute, Call.string, Call.array, Call.argAs, Call.arg, hoperator, hvalues]
  · obtain rfl := List.mem_singleton.1 hd
    have hfold : ∀ o : IntegerOperator,
        o.apply (vs.map fun v => v.asInt?.getD 0) =
          o.apply (vs'.map fun v => v.asInt?.getD 0) := by
      intro o
      have hblind : ∀ ws, o.apply ((ws ++ [ValueType.int.default]).map fun v => v.asInt?.getD 0) =
          o.apply (ws.map fun v => v.asInt?.getD 0) := by
        intro ws
        rw [List.map_append]
        exact o.apply_concat_zero _
      exact hpad.congr (f := fun ws => o.apply (ws.map fun v => v.asInt?.getD 0)) hblind
    have hvalues : ∀ o : IntegerOperator,
        ((⟨n, args, e⟩ : Call).array "values" >>= fun values => Except.ok
          (Outcome.returning (.int (o.apply (values.map fun v => v.asInt?.getD 0))))) =
        ((⟨n, args', e⟩ : Call).array "values" >>= fun values => Except.ok
          (Outcome.returning (.int (o.apply (values.map fun v => v.asInt?.getD 0))))) := by
      intro o
      simp only [Call.array, Call.argAs, Call.arg, hvs, hvs', Value.asArray?, bind, Except.bind,
        hfold o]
    simp only [Body.compute, Call.string, Call.argAs, Call.arg, hoperator, hvalues]

theorem concat_congr (hbody : concat.body = some body)
    (h : ArgsAlike concat.signature.inputs args args') :
    body ⟨n, args, e⟩ = body ⟨n, args', e⟩ := by
  obtain rfl := Option.some.inj hbody
  rcases h "parts" with hparts | ⟨d, hd, -, -, vs, vs', hvs, hvs', hpad⟩
  · simp only [Body.compute, Call.array, Call.argAs, Call.arg, hparts]
  · obtain rfl := List.mem_singleton.1 hd
    have hblind : ∀ ws, String.join ((ws ++ [ValueType.string.default]).filterMap Value.asString?) =
        String.join (ws.filterMap Value.asString?) := by
      intro ws
      rw [List.filterMap_append]
      exact join_concat_empty _
    have hjoin := hpad.congr (f := fun ws => String.join (ws.filterMap Value.asString?)) hblind
    simp only [Body.compute, Call.array, Call.argAs, Call.arg, hvs, hvs', Value.asArray?, bind,
      Except.bind, hjoin]

/-- The body of a standard kind does the same on arguments that are alike. -/
theorem body_congr {m : MethodDecl} (hm : m ∈ declarations) (hbody : m.body = some body)
    (h : ArgsAlike m.signature.inputs args args') :
    body ⟨n, args, e⟩ = body ⟨n, args', e⟩ := by
  -- Two of the kinds have a group; the arguments of the others are the same.
  have hcases : m = integerOperation ∨ m = concat ∨
      ∀ d ∈ m.signature.inputs, d.isVariadic = false := by
    simp only [declarations, List.mem_cons, List.not_mem_nil, or_false] at hm
    rcases hm with rfl | rfl | rfl | rfl | rfl | rfl | rfl | rfl | rfl | rfl | rfl
    case inr.inl => exact .inl rfl
    case inr.inr.inr.inr.inl => exact .inr (.inl rfl)
    all_goals exact .inr (.inr (by decide))
  rcases hcases with rfl | rfl | hplain
  · exact integerOperation_congr hbody h
  · exact concat_congr hbody h
  · rw [h.eq hplain]

end Library

end EffectGraph
