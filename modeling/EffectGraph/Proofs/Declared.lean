import EffectGraph.Definition.Catalog
import EffectGraph.Proofs.Arity

/-!
# Kinds as they are declared

What the checks of a declaration establish: the parameters of a method have different names, none of
them a reserved one, and a variadic group comes last; the inputs and constants of a generated kind
have different names. `Definition.Built` are the definitions that pass these checks.
-/

namespace EffectGraph

open MethodDecl

theorem checkParams_eq_ok {define : String} {taken : List String} {ps : List MethodParam} :
    checkParams define taken ps = .ok () ↔ (ps.map (·.name)).Nodup ∧
      (∀ p ∈ ps, p.name ∉ taken) ∧ ∀ p ∈ ps.dropLast, p.isVariadic = false := by
  induction ps generalizing taken with
  | nil => simp [checkParams]
  | cons p ps ih =>
    rw [checkParams]
    by_cases ht : p.name ∈ taken
    · simp [ht]
    · by_cases hv : p.isVariadic = true ∧ ps ≠ []
      · obtain ⟨hv, hne⟩ := hv
        simp [ht, hv, hne, List.dropLast_cons_of_ne_nil hne]
      -- The parameter passes both tests, so the check goes on with the others.
      · have hlast : (∀ q ∈ (p :: ps).dropLast, q.isVariadic = false) ↔
            ∀ q ∈ ps.dropLast, q.isVariadic = false := by
          by_cases hne : ps = []
          · simp [hne]
          · simp_all [List.dropLast_cons_of_ne_nil hne]
        have hcheck : (if taken.contains p.name then .error (.repeatedName define p.name)
            else if p.isVariadic ∧ ps ≠ [] then .error (.groupNotLast define p.name)
            else checkParams define (p.name :: taken) ps : Except DefinitionError Unit) =
            checkParams define (p.name :: taken) ps := by
          rw [if_neg (by simpa using ht), if_neg hv]
        rw [hcheck, ih, hlast, List.map_cons, List.nodup_cons]
        simp only [List.mem_cons, not_or, List.mem_map, not_exists, not_and, forall_eq_or_imp]
        constructor
        · rintro ⟨hnodup, hfresh, hgroup⟩
          exact ⟨⟨fun q hq he => (hfresh q hq).1 he, hnodup⟩, ⟨ht, fun q hq => (hfresh q hq).2⟩,
            hgroup⟩
        · rintro ⟨⟨hhead, hnodup⟩, ⟨-, hfresh⟩, hgroup⟩
          exact ⟨hnodup, fun q hq => ⟨hhead q hq, hfresh q hq⟩, hgroup⟩

/-- A method is defined exactly if it has a body and its parameters pass the checks. -/
theorem define_eq_ok {m : MethodDecl} {d : Definition} : m.define = .ok d ↔
    ∃ body, m.body = some body ∧ checkParams m.name m.reservedNames m.params = .ok () ∧
      d = ⟨m.signature, m.obsoleteNames, m.obsoleteMessage,
        .method ⟨m.params, m.returnDecl?, body⟩⟩ := by
  unfold define
  cases m.body with
  | none => simp
  | some body =>
    cases hc : checkParams m.name m.reservedNames m.params with
    | error e => simp [bind, Except.bind]
    | ok u => simp [bind, Except.bind, eq_comm]

theorem firstRepeated?_eq_none {taken ns : List String} :
    firstRepeated? taken ns = none ↔ ns.Nodup ∧ ∀ n ∈ ns, n ∉ taken := by
  induction ns generalizing taken with
  | nil => simp [firstRepeated?]
  | cons n ns ih =>
    rw [firstRepeated?]
    by_cases ht : n ∈ taken
    · simp [ht]
    · rw [if_neg (by simpa using ht), ih, List.nodup_cons]
      simp only [List.mem_cons, not_or, forall_eq_or_imp]
      constructor
      · rintro ⟨hnodup, hfresh⟩
        exact ⟨⟨fun hn => (hfresh n hn).1 rfl, hnodup⟩, ht, fun k hk => (hfresh k hk).2⟩
      · rintro ⟨⟨hhead, hnodup⟩, -, hfresh⟩
        exact ⟨hnodup, fun k hk => ⟨fun he => hhead (he ▸ hk), hfresh k hk⟩⟩

theorem checkPseudoNodes_eq_ok {g : Graph Definition} (h : checkPseudoNodes g = .ok ()) :
    (∃ e ∈ g.nodes, e.kind = .entry) ∧ ∃ t ∈ g.nodes, t.kind = .result := by
  simp only [checkPseudoNodes] at h
  split at h
  · simp at h
  next hentry =>
    split at h
    · simp at h
    next hresult =>
      obtain ⟨e, he, hek⟩ :=
        List.countP_pos_iff.1 (Nat.lt_of_lt_of_eq Nat.one_pos (not_not.1 hentry).symm)
      obtain ⟨t, ht, htk⟩ :=
        List.countP_pos_iff.1 (Nat.lt_of_lt_of_eq Nat.one_pos (not_not.1 hresult).symm)
      exact ⟨⟨e, he, by cases hk : e.kind <;> simp_all⟩, t, ht, by cases hk : t.kind <;> simp_all⟩

/-- What a generated kind is made of and what has been checked. -/
theorem generated_eq_ok_iff {s : Signature} {g : Graph Definition} {d : Definition} :
    Definition.generated s g = .ok d ↔ s.outputs.find? (·.isControl) = none ∧
      firstRepeated? [] ((s.inputs ++ s.consts).map (·.name)) = none ∧
      ∃ inner, g.setSignature s = .ok inner ∧ checkPseudoNodes inner = .ok () ∧
        d = ⟨s, [], none, .generated inner⟩ := by
  unfold Definition.generated
  cases s.outputs.find? (·.isControl) with
  | some port => simp
  | none =>
    cases firstRepeated? [] ((s.inputs ++ s.consts).map (·.name)) with
    | some n => simp
    | none =>
      cases g.setSignature s with
      | error e => simp
      | ok inner =>
        cases hcheck : checkPseudoNodes inner with
        | error e => simp [hcheck]
        | ok u => simp [hcheck, eq_comm]

theorem generated_eq_ok {s : Signature} {g : Graph Definition} {d : Definition}
    (h : Definition.generated s g = .ok d) : ∃ inner, g.setSignature s = .ok inner ∧
      d = ⟨s, [], none, .generated inner⟩ ∧ ((s.inputs ++ s.consts).map (·.name)).Nodup := by
  obtain ⟨-, hrepeated, inner, hinner, -, hd⟩ := generated_eq_ok_iff.1 h
  exact ⟨inner, hinner, hd, (firstRepeated?_eq_none.1 hrepeated).1⟩

theorem generated_distinct {s : Signature} {g : Graph Definition} {d : Definition}
    (h : Definition.generated s g = .ok d) : d.signature.Distinct := by
  obtain ⟨inner, -, rfl, hnodup⟩ := generated_eq_ok h
  rw [List.map_append] at hnodup
  exact hnodup.sublist (List.sublist_append_left _ _)

/-- The definitions that can be had: methods, generated kinds, and these with further names under
which they were known before. -/
inductive Definition.Built : Definition → Prop
  | method {m : MethodDecl} {d : Definition} (h : m.define = .ok d) : Built d
  | generated {s : Signature} {g : Graph Definition} {d : Definition}
    (h : Definition.generated s g = .ok d) : Built d
  | obsoleteNames {d : Definition} (names : List String) (h : Built d) :
    Built (d.withObsoleteNames names)
  | obsoleteMessage {d : Definition} (message : Option String) (h : Built d) :
    Built (d.withObsoleteMessage message)

theorem filterMap_name_sublist {f : MethodParam → Option PortDecl}
    (hf : ∀ p d, f p = some d → d.name = p.name) (ps : List MethodParam) :
    ((ps.filterMap f).map (·.name)).Sublist (ps.map (·.name)) := by
  induction ps with
  | nil => simp
  | cons p ps ih =>
    cases hp : f p with
    | none => simpa [hp] using ih.cons p.name
    | some d => simpa [hp, hf p d hp] using ih

theorem define_distinct {m : MethodDecl} {d : Definition} (h : m.define = .ok d) :
    d.signature.Distinct := by
  obtain ⟨body, -, hcheck, rfl⟩ := define_eq_ok.1 h
  have hname : ∀ p d, MethodParam.input? p = some d → d.name = p.name := by
    intro p d hp
    cases p <;> simp_all [MethodParam.input?, MethodParam.name]
  exact (checkParams_eq_ok.1 hcheck).1.sublist (filterMap_name_sublist hname m.params)

/-- The inputs of a kind have different names. -/
theorem Definition.Built.distinct {d : Definition} (h : d.Built) : d.signature.Distinct := by
  induction h with
  | method h => exact define_distinct h
  | generated h => exact generated_distinct h
  | obsoleteNames _ _ ih => exact ih
  | obsoleteMessage _ _ ih => exact ih

/-- The inputs of a method kind are its parameters that are inputs, and parameters have different
names. -/
theorem Definition.Built.method_inputs {d : Definition} (h : d.Built) {b : Method}
    (hb : d.behaviour = .method b) : d.signature.inputs = b.params.filterMap (·.input?) ∧
      (b.params.map (·.name)).Nodup := by
  induction h with
  | method h =>
    obtain ⟨body, -, hcheck, rfl⟩ := define_eq_ok.1 h
    obtain rfl := Behaviour.method.inj hb
    exact ⟨rfl, (checkParams_eq_ok.1 hcheck).1⟩
  | generated h =>
    obtain ⟨inner, -, rfl, -⟩ := generated_eq_ok h
    exact nomatch hb
  | obsoleteNames _ _ ih => exact ih hb
  | obsoleteMessage _ _ ih => exact ih hb

/-- What a catalog answers with is registered under some name. -/
theorem Catalog.registered_of_get? {c : Catalog} {name : String} {d : Definition}
    (h : c.get? name = some d) : ∃ n, c.definitions.get? n = some d := by
  unfold Catalog.get? at h
  cases hn : c.definitions.get? name with
  | some e =>
    rw [hn] at h
    exact ⟨name, hn.trans h⟩
  | none =>
    rw [hn] at h
    obtain ⟨target, -, h⟩ := Option.bind_eq_some_iff.1 h
    exact ⟨target, h⟩

/-- A catalog of definitions with a property has them also after a registration of another one. -/
theorem Catalog.forall_register {K : Definition → Prop} {c : Catalog} {d : Definition}
    (hc : ∀ n e, c.definitions.get? n = some e → K e) (hd : K d) (name : String) (e : Definition)
    (h : (c.register d).get? name = some e) : K e := by
  obtain ⟨n, hn⟩ := registered_of_get? h
  simp only [Catalog.register, Table.get?_insert] at hn
  split at hn
  · exact Option.some.inj hn ▸ hd
  · exact hc n e hn

end EffectGraph
