import EffectGraph.Library.Builtins
import EffectGraph.Proofs.Tables
import EffectGraph.Snapshot.Basic

/-!
# What a catalog contains and what it finds

A name is looked up among the registered kinds first and then among the aliases, one step far. A
catalog contains a name also if an alias leads nowhere, while a look-up then finds nothing
(`Catalog.contains_and_not_found`). The aliases that come with a registration lead to the kind that
is registered, and a registered name stays one, so that only an alias that was made on its own can
come to lead nowhere (`Catalog.told_of_dangling`).
-/

namespace EffectGraph

namespace Catalog

/-- What can be done to a catalog. -/
inductive Change where
  | register (d : Definition)
  /-- Loads a stored definition, the inner graph under the given identity. -/
  | load (id : Nat) (r : DefinitionRecord)
  | addAlias (name target : String)

/-- Carries a change out. A definition that cannot be loaded leaves the catalog as it was. -/
def Change.perform (c : Catalog) : Change → Catalog
  | .register d => c.register d
  | .load id r =>
    match r.load c id with
    | .ok (c', _) => c'
    | .error _ => c
  | .addAlias name target => c.addAlias name target

/-- A change adds an alias on its own, registers a kind, or does nothing. -/
theorem Change.perform_cases (c : Catalog) (change : Change) :
    (∃ name target, change = .addAlias name target ∧ change.perform c = c.addAlias name target) ∨
      (∃ d, change.perform c = c.register d) ∨ change.perform c = c := by
  cases change with
  | register d => exact .inr (.inl ⟨d, rfl⟩)
  | addAlias name target => exact .inl ⟨name, target, rfl, rfl⟩
  | load id r =>
    simp only [perform, DefinitionRecord.load]
    cases r.rebuild c id with
    | error e => exact .inr (.inr rfl)
    | ok d => exact .inr (.inl ⟨d, rfl⟩)

variable {c : Catalog} {name target : String}

/-! ## Look-ups -/

theorem mem_names : name ∈ c.names ↔ c.definitions.contains name = true :=
  Table.mem_keys_iff

/-- Nothing is registered under a name, and the alias that it is leads to a name under which nothing
is registered either. -/
def Dangles (c : Catalog) (name target : String) : Prop :=
  c.aliases.get? name = some target ∧ name ∉ c.names ∧ target ∉ c.names

theorem isSome_get? : (c.get? name).isSome = true ↔
    name ∈ c.names ∨ ∃ target, c.aliases.get? name = some target ∧ target ∈ c.names := by
  rw [get?, byAlias?, mem_names, Table.contains]
  cases c.definitions.get? name with
  | some d => simp
  | none =>
    cases c.aliases.get? name with
    | none => simp
    | some target => simp [mem_names, Table.contains]

theorem contains_eq_true : c.contains name = true ↔
    name ∈ c.names ∨ ∃ target, c.aliases.get? name = some target := by
  rw [contains, Bool.or_eq_true, mem_names, Table.contains, Table.contains,
    Option.isSome_iff_exists, Option.isSome_iff_exists]

theorem contains_of_isSome (h : (c.get? name).isSome = true) : c.contains name = true := by
  rw [contains_eq_true]
  rcases isSome_get?.1 h with hname | ⟨target, halias, -⟩
  · exact .inl hname
  · exact .inr ⟨target, halias⟩

/-- The names that a catalog contains and does not find are the aliases that lead nowhere. -/
theorem contains_and_not_found :
    c.contains name = true ∧ c.get? name = none ↔ ∃ target, c.Dangles name target := by
  rw [← Option.not_isSome_iff_eq_none, isSome_get?, contains_eq_true]
  constructor
  · rintro ⟨hname | ⟨target, halias⟩, hfound⟩
    · exact absurd (.inl hname) hfound
    · exact ⟨target, halias, fun hname => hfound (.inl hname),
        fun htarget => hfound (.inr ⟨target, halias, htarget⟩)⟩
  · rintro ⟨target, halias, hname, htarget⟩
    refine ⟨.inr ⟨target, halias⟩, ?_⟩
    rintro (hfound | ⟨target', halias', hfound⟩)
    · exact hname hfound
    · obtain rfl := Option.some.inj (halias.symm.trans halias')
      exact htarget hfound

/-! ## Changes -/

theorem mem_names_register {d : Definition} :
    name ∈ (c.register d).names ↔ name = d.name ∨ name ∈ c.names :=
  Table.mem_keys_insert

theorem get?_foldl_alias {ns : List String} {t : Table String String} :
    (ns.foldl (fun t n => t.insert n target) t).get? name =
      if name ∈ ns then some target else t.get? name := by
  induction ns generalizing t with
  | nil => simp
  | cons n ns ih =>
    rw [List.foldl_cons, ih, Table.get?_insert]
    by_cases hn : name = n
    · simp [hn]
    · simp [hn]

/-- A registration makes an alias of each obsolete name and leaves the other aliases alone. -/
theorem aliases_register {d : Definition} : (c.register d).aliases.get? name =
    if name ∈ d.obsoleteNames then some d.name else c.aliases.get? name :=
  get?_foldl_alias

theorem aliases_addAlias {n t : String} : (c.addAlias n t).aliases.get? name =
    if name = n then some t else c.aliases.get? name :=
  Table.get?_insert _ _ _ _

/-- A name that has been registered stays registered. -/
theorem names_perform (change : Change) (h : name ∈ c.names) : name ∈ (change.perform c).names := by
  rcases change.perform_cases c with ⟨n, t, -, he⟩ | ⟨d, he⟩ | he
  · rw [he]
    exact h
  · rw [he]
    exact mem_names_register.2 (.inr h)
  · rwa [he]

/-- An alias that leads nowhere after a change has been made by this change on its own, or it led
nowhere before. -/
theorem dangles_of_perform {change : Change} (h : (change.perform c).Dangles name target) :
    change = .addAlias name target ∨ c.Dangles name target := by
  obtain ⟨halias, hname, htarget⟩ := h
  have hearlier : c.aliases.get? name = some target → c.Dangles name target := fun ha =>
    ⟨ha, fun hn => hname (names_perform change hn), fun ht => htarget (names_perform change ht)⟩
  rcases change.perform_cases c with ⟨n, t, hchange, he⟩ | ⟨d, he⟩ | he
  · rw [he, aliases_addAlias] at halias
    by_cases hn : name = n
    · rw [if_pos hn] at halias
      obtain rfl := Option.some.inj halias
      exact .inl (hn ▸ hchange)
    · rw [if_neg hn] at halias
      exact .inr (hearlier halias)
  · rw [he, aliases_register] at halias
    by_cases hobsolete : name ∈ d.obsoleteNames
    -- The alias leads to the kind that is being registered.
    · rw [if_pos hobsolete] at halias
      obtain rfl := Option.some.inj halias
      exact absurd (he ▸ mem_names_register.2 (.inl rfl)) htarget
    · rw [if_neg hobsolete] at halias
      exact .inr (hearlier halias)
  · rw [he] at halias
    exact .inr (hearlier halias)

/-- An alias that leads nowhere after some changes led nowhere before, or it is one of those made on
their own. -/
theorem told_of_dangling {changes : List Change}
    (h : (changes.foldl Change.perform c).Dangles name target) :
    .addAlias name target ∈ changes ∨ c.Dangles name target := by
  induction changes generalizing c with
  | nil => exact .inr h
  | cons change changes ih =>
    rcases ih h with htold | hearlier
    · exact .inl (.tail _ htold)
    · rcases dangles_of_perform hearlier with rfl | hearlier
      · exact .inl (.head _)
      · exact .inr hearlier

/-! ## Catalogs from the beginning -/

theorem not_dangles_empty : ¬ empty.Dangles name target :=
  fun h => nomatch h.1

/-- The standard kinds are registered and nothing else is done to make the standard catalog. -/
theorem not_dangles_standard (h : standard = .ok c) : ¬ c.Dangles name target := by
  intro hd
  unfold standard at h
  cases hkinds : Library.builtins with
  | error e =>
    rw [hkinds] at h
    exact nomatch h
  | ok kinds =>
    rw [hkinds] at h
    obtain rfl := Except.ok.inj h
    have hfold : kinds.foldl register .empty =
        (kinds.map Change.register).foldl Change.perform .empty := by
      rw [List.foldl_map]
      rfl
    rw [hfold] at hd
    rcases told_of_dangling hd with htold | hd
    · obtain ⟨d, -, hd⟩ := List.mem_map.1 htold
      exact nomatch hd
    · exact not_dangles_empty hd

/-- In a catalog that was made from the empty or the standard one by any changes, every name that is
found is contained. The two answers agree on a name exactly if the name is registered, or no alias
for it was made on its own that is still in force and leads to a name under which nothing is
registered. -/
theorem contains_iff_found {c₀ : Catalog} (h₀ : c₀ = .empty ∨ standard = .ok c₀)
    (changes : List Change) (name : String) :
    let c := changes.foldl Change.perform c₀
    ((c.get? name).isSome = true → c.contains name = true) ∧
      ((c.contains name = true ↔ (c.get? name).isSome = true) ↔
        ∀ target, .addAlias name target ∈ changes → c.aliases.get? name = some target →
          name ∈ c.names ∨ target ∈ c.names) := by
  intro c
  have hsub : (c.get? name).isSome = true → c.contains name = true := contains_of_isSome
  refine ⟨hsub, ?_, ?_⟩
  · intro hagree target _ halias
    rcases isSome_get?.1 (hagree.1 (contains_eq_true.2 (.inr ⟨target, halias⟩))) with
      hname | ⟨target', halias', htarget⟩
    · exact .inl hname
    · obtain rfl := Option.some.inj (halias.symm.trans halias')
      exact .inr htarget
  · intro hlead
    refine ⟨fun hcontains => ?_, hsub⟩
    by_contra hfound
    obtain ⟨target, hd⟩ :=
      contains_and_not_found.1 ⟨hcontains, Option.not_isSome_iff_eq_none.1 hfound⟩
    rcases told_of_dangling hd with htold | hd₀
    · exact (hlead target htold hd.1).elim hd.2.1 hd.2.2
    · rcases h₀ with rfl | h₀
      · exact not_dangles_empty hd₀
      · exact not_dangles_standard h₀ hd₀

/-- Two aliases in the standard catalog, the second of which is made for the first. It is not
followed twice, so that it is contained and not found. -/
theorem contains_iff_found_glue : ∃ c₀, standard = .ok c₀ ∧
    let c := [Change.addAlias "paste" "Concat", .addAlias "glue" "paste"].foldl Change.perform c₀
    (c.contains "paste" = true ↔ (c.get? "paste").isSome = true) ∧
      ¬ (c.contains "glue" = true ↔ (c.get? "glue").isSome = true) := by
  obtain ⟨c₀, h₀⟩ : ∃ c₀, standard = .ok c₀ := ⟨_, rfl⟩
  have hagree := fun name => (contains_iff_found (.inr h₀)
    [.addAlias "paste" "Concat", .addAlias "glue" "paste"] name).2
  refine ⟨c₀, h₀, (hagree "paste").2 fun target _ halias => ?_, fun hglue => ?_⟩
  all_goals obtain rfl := Except.ok.inj h₀
  · obtain rfl := Option.some.inj halias
    exact .inr (by decide)
  · exact absurd ((hagree "glue").1 hglue "paste" (.tail _ (.head _)) rfl) (by decide)

/-- An alias for a name that nothing is registered under: it is contained and not found. -/
theorem contains_not_found_ghost :
    let c := [Change.addAlias "ghost" "nothing"].foldl Change.perform empty
    c.contains "ghost" = true ∧ c.get? "ghost" = none :=
  ⟨rfl, rfl⟩

end Catalog

end EffectGraph
