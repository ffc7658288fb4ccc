import EffectGraph.Proofs.Conforming

/-!
# The laws of conversion

A conversion is a projection onto the values of the target type: it ends in the type, and it leaves
alone what is in the type already (`conversion_sound`).

The rules for arrays fit together as well, as long as the direct conversions are between elements
(`ConversionHook.Elementary`). Each rule is first stated for the shape of the value that it is for:
`null` goes to the default (`convert_null`), an array to an array type element by element
(`convert_items`) and to any other type through its first element (`convert_first`), and another
value into an array of one element (`convert_wrapped`). None of these laws asks whether the value is
of the target type already, since the rules do to such a value what leaving it alone does. From them
it follows that a value may go through a port of an array type on its way to a port of the element
type (`convert_through`).
-/

namespace EffectGraph

/-- Direct conversions between elements: neither `null` nor an array is converted, and nothing is
converted to an array type. -/
structure ConversionHook.Elementary (hook : ConversionHook) : Prop where
  null : ∀ t, hook.convert? .null t = none
  array : ∀ items t, hook.convert? (.array items) t = none
  toArray : ∀ v e, hook.convert? v (.array e) = none

theorem ConversionHook.elementary_standard : ConversionHook.standard.Elementary where
  null t := by cases t <;> rfl
  array _ t := by cases t <;> rfl
  toArray v _ := by cases v <;> rfl

theorem ConversionHook.elementary_structural : ConversionHook.structural.Elementary :=
  ⟨fun _ => rfl, fun _ _ => rfl, fun _ _ => rfl⟩

namespace Value

variable {hook : ConversionHook} {t e : ValueType} {v : Value}

/-! ## Conversion as a projection -/

theorem convert_convert (h : hook.Conforming) (t : ValueType) (v : Value) :
    (v.convert hook t).convert hook t = v.convert hook t :=
  convert_of_belongsTo (convert_belongsTo h t v)

/-- The values of a type are those that a conversion to it leaves alone. -/
theorem belongsTo_iff_convert_eq (h : hook.Conforming) (t : ValueType) (v : Value) :
    v.belongsTo t = true ↔ v.convert hook t = v :=
  ⟨convert_of_belongsTo, fun heq => heq ▸ convert_belongsTo h t v⟩

/-- Under every hook whose direct conversions end in the types asked for, as those of the standard
hook and of the structural one do, a conversion ends in a value of the target type. It leaves alone
the values of the type, and no others, so a second conversion to the type changes nothing. -/
theorem conversion_sound :
    ConversionHook.standard.Conforming ∧ ConversionHook.structural.Conforming ∧
    ∀ hook : ConversionHook, hook.Conforming → ∀ (t : ValueType) (v : Value),
      (v.convert hook t).belongsTo t = true ∧
      (v.belongsTo t = true ↔ v.convert hook t = v) ∧
      (v.convert hook t).convert hook t = v.convert hook t :=
  ⟨ConversionHook.conforming_standard, ConversionHook.conforming_structural, fun _ h t v =>
    ⟨convert_belongsTo h t v, belongsTo_iff_convert_eq h t v, convert_convert h t v⟩⟩

/-- Missing, empty and mixed arrays next to each other become arrays of integers. -/
theorem conversion_sound_mixed :
    (array [null, array [string "7", bool true], array []]).convert .standard
        (.array (.array .int)) = array [array [], array [int 7, int 1], array []] ∧
      (array [array [], array [int 7, int 1], array []]).convert .standard
        (.array (.array .int)) = array [array [], array [int 7, int 1], array []] := by
  have hconverted : (array [null, array [string "7", bool true], array []]).convert .standard
      (.array (.array .int)) = array [array [], array [int 7, int 1], array []] := by
    decide +kernel
  obtain ⟨-, -, hagain⟩ := conversion_sound.2.2 .standard ConversionHook.conforming_standard
    (.array (.array .int)) (array [null, array [string "7", bool true], array []])
  exact ⟨hconverted, hconverted ▸ hagain⟩

/-! ## The rules, by the shape of the value -/

theorem convert_eq_scalar (ht : t.isArray = false) : v.convert hook t = convertScalar hook t v := by
  cases t <;> simp_all [convert, ValueType.isArray]

theorem convertDirectly?_eq_none :
    v.convertDirectly? hook t = none ↔ v.belongsTo t = false ∧ hook.convert? v t = none := by
  unfold convertDirectly?
  split <;> simp_all

theorem belongsTo_array_of_scalar (hv : v.asArray? = none) (e : ValueType) :
    v.belongsTo (.array e) = false := by
  cases v <;> simp_all [belongsTo, asArray?, ValueType.isReference]

theorem array_belongsTo_scalar (items : List Value) (ht : t.isArray = false) (hany : t ≠ .any) :
    (array items).belongsTo t = false := by
  cases t <;> simp_all [belongsTo, ValueType.isArray]

theorem default_of_null_belongsTo (h : null.belongsTo t = true) : t.default = null := by
  cases t <;> simp_all [belongsTo, ValueType.isReference, ValueType.default]

section Elementary

variable (h : hook.Elementary)

include h

theorem convert_null (t : ValueType) : null.convert hook t = t.default := by
  by_cases hb : null.belongsTo t = true
  · rw [convert_of_belongsTo hb, default_of_null_belongsTo hb]
  · have hdirect : null.convertDirectly? hook t = none :=
      convertDirectly?_eq_none.2 ⟨by simpa using hb, h.null t⟩
    cases t <;> simp [convert, convertScalar, hdirect, ValueType.default]

/-- An array goes to an array type element by element. -/
theorem convert_items (items : List Value) (e : ValueType) :
    (array items).convert hook (.array e) = array (items.map (·.convert hook e)) := by
  by_cases hb : (array items).belongsTo (.array e) = true
  · have hitems : ∀ v ∈ items, v.convert hook e = v := by
      rw [belongsTo, List.all_eq_true] at hb
      exact fun v hv => convert_of_belongsTo (hb v hv)
    rw [convert_of_belongsTo hb, List.map_congr_left hitems, List.map_id']
  · have hdirect : (array items).convertDirectly? hook (.array e) = none :=
      convertDirectly?_eq_none.2 ⟨by simpa using hb, h.array _ _⟩
    rw [convert, hdirect, Option.getD_none]

/-- An array goes to another type through its first element. -/
theorem convert_first (items : List Value) (ht : t.isArray = false) (hany : t ≠ .any) :
    (array items).convert hook t = (items.head?.map (·.convert hook t)).getD t.default := by
  have hdirect : (array items).convertDirectly? hook t = none :=
    convertDirectly?_eq_none.2 ⟨array_belongsTo_scalar items ht hany, h.array _ _⟩
  rw [convert_eq_scalar ht, convertScalar, hdirect, Option.getD_none]
  cases items with
  | nil => rfl
  | cons first rest =>
    rw [convertFirst, List.head?_cons, Option.map_some, Option.getD_some, convert_eq_scalar ht]

/-- A value that is no array becomes the one element of an array. -/
theorem convert_wrapped (hnull : v ≠ null) (hv : v.asArray? = none) (e : ValueType) :
    v.convert hook (.array e) = array [v.convert hook e] := by
  have hdirect : v.convertDirectly? hook (.array e) = none :=
    convertDirectly?_eq_none.2 ⟨belongsTo_array_of_scalar hv e, h.toArray _ _⟩
  rw [convert, hdirect, Option.getD_none]
  · rintro items rfl
    simp [asArray?] at hv
  · exact hnull

/-! ## Routes -/

/-- A value that goes through an array type on its way to the element type ends as it does on the
direct way. -/
theorem convert_through (hc : hook.Conforming) (ht : t.isArray = false) (hany : t ≠ .any)
    (v : Value) : (v.convert hook (.array t)).convert hook t = v.convert hook t := by
  cases v with
  | null =>
    rw [convert_null h, convert_null h]
    exact convert_first h [] ht hany
  | array items =>
    rw [convert_items h, convert_first h _ ht hany, convert_first h _ ht hany, List.head?_map]
    cases items.head? with
    | none => rfl
    | some first => exact convert_convert hc t first
  | _ =>
    rw [convert_wrapped h (by simp) rfl, convert_first h _ ht hany]
    exact convert_convert hc t _

end Elementary

/-- Under the standard conversions and under the structural ones it does not matter for a scalar
port whether a value comes to it through a port of the array type, and an array is converted to an
array type by converting its elements in order, whether or not it is of the type already. -/
theorem conversion_routes_agree {hook : ConversionHook}
    (hhook : hook = .standard ∨ hook = .structural) :
    (∀ (v : Value) (t : ValueType), t.isArray = false → t ≠ .any →
      (v.convert hook (.array t)).convert hook t = v.convert hook t) ∧
    ∀ (items : List Value) (e : ValueType),
      (array items).convert hook (.array e) = array (items.map (·.convert hook e)) := by
  have hlaws : hook.Elementary ∧ hook.Conforming := by
    rcases hhook with rfl | rfl
    · exact ⟨ConversionHook.elementary_standard, ConversionHook.conforming_standard⟩
    · exact ⟨ConversionHook.elementary_structural, ConversionHook.conforming_structural⟩
  obtain ⟨h, hc⟩ := hlaws
  exact ⟨fun v _ ht hany => convert_through h hc ht hany v, convert_items h⟩

/-- The first element decides, under an array as well as alone, and elements that are missing, empty
or of the type already each keep their place. -/
theorem conversion_routes_agree_mixed :
    ((array [array [string "7"], bool true]).convert .standard (.array .int)).convert
        .standard .int = int 7 ∧
      (array [null, array [], int 3]).convert .standard (.array .int) =
        array [int 0, int 0, int 3] := by
  obtain ⟨hroute, hitems⟩ :=
    conversion_routes_agree (.inl rfl : ConversionHook.standard = .standard ∨ _)
  constructor
  · rw [hroute _ _ rfl (by decide)]
    decide +kernel
  · rw [hitems]
    decide +kernel

end Value

end EffectGraph
