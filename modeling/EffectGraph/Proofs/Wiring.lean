import EffectGraph.Proofs.Coercion

/-!
# What may be wired, and what a conversion carries over

Whether a port may feed another is decided by their types alone, and what then goes over the
connection is decided by the conversion of the values. The two go by the same rules.

The static side depends on the innermost element types only (`ValueType.feeds_eq`): every level of
arrays, on either side, is taken off in the end, and no level admits anything that the innermost
types do not.

On the dynamic side, what is refused carries nothing over. Where neither type is an array, a value
of the source is not of the target as well, unless it is `null`, and it has no direct conversion, so
it is replaced by the default. Arrays on the side of the source only lead to such a value
(`Value.convert_eq_default`), and arrays on the side of the target only collect them
(`Value.LeafOf.eq_default`).
-/

namespace EffectGraph

/-- The element type that is left when every level of arrays is taken off. -/
def ValueType.innermost : ValueType → ValueType
  | .array e => e.innermost
  | t => t

/-- The value is no array and stands inside the other one, at any depth. -/
inductive Value.LeafOf (w : Value) : Value → Prop
  | self (hw : w.asArray? = none) : w.LeafOf w
  | item {items : List Value} {v : Value} (hv : v ∈ items) (h : w.LeafOf v) :
    w.LeafOf (.array items)

/-- Direct conversions between elements that are only had between types that may be wired. -/
structure ConversionHook.Wired (hook : ConversionHook) : Prop extends hook.Elementary where
  admitted : ∀ {v w s t}, hook.convert? v t = some w → v.belongsTo s = true → s ≠ .any →
    hook.canConvert s t = true
  elements : ∀ {s t}, hook.canConvert s t = true → s.isArray = false ∧ t.isArray = false

theorem ConversionHook.wired_standard : ConversionHook.standard.Wired where
  toElementary := elementary_standard
  admitted {v w s t} h hv hs := by
    have h : standardValue? v t = some w := h
    show standardType s t = true
    unfold standardValue? at h
    split at h
    case h_10 => nomatch h
    all_goals cases s <;> simp_all [Value.belongsTo, standardType]
  elements {s t} h := by
    have h : standardType s t = true := h
    unfold standardType at h
    split at h <;> simp_all [ValueType.isArray]

variable {hook : ConversionHook}

/-! ## The types -/

namespace ValueType

variable {s t : ValueType}

theorem innermost_of_scalar (h : t.isArray = false) : t.innermost = t := by
  cases t <;> simp_all [innermost, isArray]

theorem innermost_isArray (t : ValueType) : t.innermost.isArray = false := by
  induction t with
  | array e ih => exact ih
  | _ => rfl

theorem feedsDirectly_iff : s.feedsDirectly hook t = true ↔
    s = t ∨ s = .any ∨ t = .any ∨ hook.canConvert s t = true := by
  simp [feedsDirectly, or_assoc]

/-- What one type feeds without taking arrays apart, it feeds with all of them taken apart. -/
theorem feedsDirectly_innermost (h : hook.Wired) (hfeeds : s.feedsDirectly hook t = true) :
    s.innermost.feedsDirectly hook t.innermost = true := by
  rw [feedsDirectly_iff] at hfeeds ⊢
  rcases hfeeds with rfl | rfl | rfl | hcan
  · exact .inl rfl
  · exact .inr (.inl rfl)
  · exact .inr (.inr (.inl rfl))
  · obtain ⟨hs, ht⟩ := h.elements hcan
    rw [innermost_of_scalar hs, innermost_of_scalar ht]
    exact .inr (.inr (.inr hcan))

theorem feedsInto_eq (h : hook.Wired) (hs : s.isArray = false) (t : ValueType) :
    s.feedsInto hook t = s.feedsDirectly hook t.innermost := by
  induction t with
  | array e ih =>
    rw [feedsInto, ih]
    refine Bool.or_eq_right_iff_imp.2 fun hfeeds => ?_
    have hinner := feedsDirectly_innermost h hfeeds
    rwa [innermost_of_scalar hs] at hinner
  | _ => rfl

/-- Whether one type feeds another is decided by their innermost types. -/
theorem feeds_eq (h : hook.Wired) (s t : ValueType) :
    s.feeds hook t = s.innermost.feedsDirectly hook t.innermost := by
  induction s generalizing t with
  | array a ih =>
    have hdirect := feedsDirectly_innermost (s := .array a) (t := t) h
    cases t with
    | array b =>
      rw [feeds, ih]
      exact Bool.or_eq_right_iff_imp.2 hdirect
    | _ =>
      rw [feeds, ih]
      · exact Bool.or_eq_right_iff_imp.2 hdirect
      · nofun
  | _ =>
    rw [feeds]
    · exact feedsInto_eq h rfl t
    · nofun

end ValueType

/-! ## The values -/

namespace Value

variable {source target : ValueType} {v w : Value}

theorem LeafOf.eq_of_scalar (h : w.LeafOf v) (hv : v.asArray? = none) : w = v := by
  cases h with
  | self => rfl
  | item => simp [asArray?] at hv

theorem leafOf_array_iff {items : List Value} :
    w.LeafOf (array items) ↔ ∃ v ∈ items, w.LeafOf v := by
  refine ⟨fun h => ?_, fun ⟨v, hv, h⟩ => .item hv h⟩
  generalize hv : array items = v at h
  cases h with
  | self hw => simp [← hv, asArray?] at hw
  | item hitem h =>
    obtain rfl := array.inj hv
    exact ⟨_, hitem, h⟩

theorem asArray?_default (h : target.isArray = false) : target.default.asArray? = none := by
  cases target <;> simp_all [ValueType.default, asArray?, ValueType.isArray]

theorem items_of_belongsTo {e : ValueType} (h : v.belongsTo (.array e) = true) :
    ∃ items, v = array items ∧ ∀ item ∈ items, item.belongsTo e = true := by
  cases v with
  | array items => exact ⟨items, rfl, by simpa [belongsTo] using h⟩
  | _ => simp [belongsTo, ValueType.isReference] at h

theorem asArray?_of_belongsTo (h : v.belongsTo source = true) (hs : source.isArray = false)
    (hany : source ≠ .any) : v.asArray? = none := by
  cases v with
  | array items => simp [array_belongsTo_scalar items hs hany] at h
  | _ => rfl

/-- Only `null` belongs to two types. -/
theorem eq_null_of_belongsTo (hs : v.belongsTo source = true) (ht : v.belongsTo target = true)
    (hsany : source ≠ .any) (htany : target ≠ .any) (hne : source ≠ target)
    (hv : v.asArray? = none) : v = null := by
  cases v with
  | null => rfl
  | array items => simp [asArray?] at hv
  | _ => cases source <;> cases target <;> simp_all [belongsTo]

/-- Where no rule applies to a value that is no array, the default stands for it. -/
theorem convert_of_none (hdirect : v.convertDirectly? hook target = none)
    (hv : v.asArray? = none) (ht : target.isArray = false) :
    v.convert hook target = target.default := by
  rw [convert_eq_scalar ht]
  cases v with
  | array items => simp [asArray?] at hv
  | _ => simp [convertScalar, hdirect]

/-- Where a connection is refused, no value of the source reaches a target that is no array. -/
theorem convert_eq_default (h : hook.Wired)
    (hrefused : source.innermost.feedsDirectly hook target.innermost = false)
    (ht : target.isArray = false) (hv : v.belongsTo source = true) :
    v.convert hook target = target.default := by
  rw [ValueType.innermost_of_scalar ht, ← Bool.not_eq_true, ValueType.feedsDirectly_iff] at hrefused
  push Not at hrefused
  obtain ⟨hne, hany, hany', hcan⟩ := hrefused
  induction source generalizing v with
  | array e ih =>
    obtain ⟨items, rfl, hitems⟩ := items_of_belongsTo hv
    rw [convert_first h.toElementary items ht hany']
    cases items with
    | nil => rfl
    | cons first rest => exact ih (hitems first List.mem_cons_self) hne hany hcan
  | _ =>
    have hscalar := asArray?_of_belongsTo hv rfl hany
    by_cases hnull : v = null
    · rw [hnull, convert_null h.toElementary]
    · refine convert_of_none (convertDirectly?_eq_none.2 ⟨?_, ?_⟩) hscalar ht
      · rw [← Bool.not_eq_true]
        exact fun hv' => hnull (eq_null_of_belongsTo hv hv' hany hany' hne hscalar)
      · exact Option.eq_none_iff_forall_ne_some.2 fun w hw => hcan (h.admitted hw hv hany)

/-- Where a connection is refused, no value of the source leaves anything but defaults. -/
theorem LeafOf.eq_default (h : hook.Wired)
    (hrefused : source.innermost.feedsDirectly hook target.innermost = false)
    (hv : v.belongsTo source = true) (hw : w.LeafOf (v.convert hook target)) :
    w = target.innermost.default := by
  induction target generalizing source v with
  | array e ih =>
    cases v with
    | null =>
      rw [convert_null h.toElementary, ValueType.default, leafOf_array_iff] at hw
      simp at hw
    | array items =>
      rw [convert_items h.toElementary, leafOf_array_iff] at hw
      obtain ⟨_, hmem, hw⟩ := hw
      obtain ⟨item, hitem, rfl⟩ := List.mem_map.1 hmem
      -- an array only belongs to `any`, which is not refused, and to array types
      cases source with
      | array e' =>
        rw [belongsTo, List.all_eq_true] at hv
        have hrefused' : e'.innermost.feedsDirectly hook e.innermost = false := hrefused
        exact ih hrefused' (hv item hitem) hw
      | any => simp [ValueType.feedsDirectly, ValueType.innermost] at hrefused
      | _ => simp [belongsTo] at hv
    | _ =>
      rw [convert_wrapped h.toElementary (by simp) rfl, leafOf_array_iff] at hw
      obtain ⟨_, hmem, hw⟩ := hw
      obtain rfl := List.mem_singleton.1 hmem
      exact ih hrefused hv hw
  | _ =>
    rw [convert_eq_default h hrefused rfl hv] at hw
    exact hw.eq_of_scalar (asArray?_default rfl)

end Value

/-! ## Wiring and conversion -/

/-- Under the standard conversions a port may feed another exactly if their innermost types are the
same, or one of them is `any`, or there is a direct conversion from the one to the other; how deep
they stand in arrays makes no difference. If it may not, then nothing of a value of the source is
left in what the target would receive: all that stands there, at any depth, is the default. -/
theorem wiring_agrees_with_conversion (source target : ValueType) :
    (source.feeds .standard target = true ↔
      source.innermost = target.innermost ∨ source.innermost = .any ∨ target.innermost = .any ∨
        ConversionHook.standard.canConvert source.innermost target.innermost = true) ∧
    source.feeds .standard target = source.innermost.feeds .standard target.innermost ∧
    (source.feeds .standard target = false → ∀ v : Value, v.belongsTo source = true →
      ∀ w : Value, w.LeafOf (v.convert .standard target) → w = target.innermost.default) := by
  have h := ConversionHook.wired_standard
  have hfeeds := ValueType.feeds_eq h source target
  refine ⟨?_, ?_, fun hrefused v hv w hw => ?_⟩
  · rw [hfeeds, ValueType.feedsDirectly_iff]
  · rw [hfeeds, ValueType.feeds_eq h,
      ValueType.innermost_of_scalar source.innermost_isArray,
      ValueType.innermost_of_scalar target.innermost_isArray]
  · exact hw.eq_default h (hfeeds ▸ hrefused) hv

/-- Booleans may not be wired to floating-point numbers, at any depth, and of arrays of booleans
only zeros would be left. -/
theorem wiring_agrees_with_conversion_bools :
    (ValueType.array (.array .bool)).feeds .standard (.array .float) = false ∧
    (Value.float .zero).LeafOf
      ((Value.array [.array [.bool true, .bool false], .array []]).convert .standard
        (.array .float)) ∧
    Value.float .zero = ValueType.float.default := by
  have hrefused : (ValueType.array (.array .bool)).feeds .standard (.array .float) = false := rfl
  have hleaf : (Value.float .zero).LeafOf
      ((Value.array [.array [.bool true, .bool false], .array []]).convert .standard
        (.array .float)) := by
    have hconverted : (Value.array [.array [.bool true, .bool false], .array []]).convert .standard
        (.array .float) = .array [.float .zero, .float .zero] := by
      decide +kernel
    exact hconverted ▸ .item List.mem_cons_self (.self rfl)
  obtain ⟨-, -, hlost⟩ := wiring_agrees_with_conversion (.array (.array .bool)) (.array .float)
  exact ⟨hrefused, hleaf, hlost hrefused _ rfl _ hleaf⟩

end EffectGraph
