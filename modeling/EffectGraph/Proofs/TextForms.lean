import EffectGraph.Json.Snapshots
import EffectGraph.Proofs.Documents
import EffectGraph.Proofs.Encoding
import EffectGraph.Proofs.Records

/-!
# Reading back snapshots from text

The text form of stored graphs and stored definitions is read back exactly
(`textForm_snapshot_definition`), on three conditions: it is refused for a foreign object, it may
nest containers to 127 levels, and its floating-point numbers have to be among those that are read
back from their own texts, which not all are.

The nesting of a document (`Json.depth`) is counted down by the readers, one level for every
container they enter. Each lemma says of one kind of data that its document, nested less deeply than
the levels left, is read as that data.
-/

namespace EffectGraph

open JsonReader

/-! ## Nesting -/

namespace Json

mutual

/-- How many containers are nested in one another. -/
def depth : Json → Nat
  | array items => itemsDepth items + 1
  | object members => membersDepth members + 1
  | _ => 0

/-- The greatest depth of some items. -/
def itemsDepth : List Json → Nat
  | [] => 0
  | v :: vs => max v.depth (itemsDepth vs)

/-- The greatest depth of the contents of some members. -/
def membersDepth : List (Option String × Json) → Nat
  | [] => 0
  | (_, v) :: ms => max v.depth (membersDepth ms)

end

/-- The greatest number of containers that a text may nest in one another. -/
def depthLimit : Nat := 127

@[simp] theorem depth_text (s : String) : (text s).depth = 0 := rfl

@[simp] theorem depth_tagged (tag : String) (content : Json) :
    (tagged tag content).depth = content.depth + 1 := by
  simp [tagged, record, depth, membersDepth]

theorem depth_le_membersDepth {m : Option String × Json} {members : List (Option String × Json)}
    (hm : m ∈ members) : m.2.depth ≤ membersDepth members := by
  induction members with
  | nil => simp at hm
  | cons k members ih =>
    rw [membersDepth]
    rcases List.mem_cons.1 hm with rfl | hm
    · exact Nat.le_max_left ..
    · exact Nat.le_trans (ih hm) (Nat.le_max_right ..)

/-- The content of a member is nested less deeply than a record with that member. -/
theorem enter?_record {members : List (String × Json)} {levels : Nat}
    (hdepth : (record members).depth < levels) :
    ∃ n, JsonReader.enter? levels = some n ∧ ∀ m ∈ members, m.2.depth < n := by
  obtain ⟨n, rfl⟩ : ∃ n, levels = n + 2 := by
    refine ⟨levels - 2, ?_⟩
    rw [record, depth] at hdepth
    omega
  refine ⟨n + 1, rfl, fun m hm => ?_⟩
  have hle : m.2.depth ≤ membersDepth (members.map fun m => (some m.1, m.2)) :=
    depth_le_membersDepth (m := (some m.1, m.2)) (List.mem_map.2 ⟨m, hm, rfl⟩)
  rw [record, depth] at hdepth
  omega

/-! ## Printable documents -/

theorem Printable.record {members : List (String × Json)} (h : ∀ m ∈ members, m.2.Printable) :
    (record members).Printable := by
  refine .object (fun m hm => ?_) fun m hm => ?_
  all_goals obtain ⟨m', hm', rfl⟩ := List.mem_map.1 hm
  · rfl
  · exact h m' hm'

theorem Printable.tagged {tag : String} {content : Json} (h : content.Printable) :
    (tagged tag content).Printable :=
  .record fun m hm => by
    obtain rfl := List.mem_singleton.1 hm
    exact h

theorem printable_natJson (n : Nat) : (natJson n).Printable := .number (isLiteral_natText n)

end Json

open Json

/-! ## Containers -/

namespace JsonReader

theorem enter?_of_lt {depth levels : Nat} (h : depth + 1 < levels) :
    ∃ n, enter? levels = some n ∧ depth < n := by
  obtain ⟨n, rfl⟩ : ∃ n, levels = n + 2 := ⟨levels - 2, by omega⟩
  exact ⟨n + 1, rfl, by omega⟩

/-- The keys of a record are there, and none occurs twice. -/
theorem wellKeyed_record {members : List (String × Json)} {names : List String}
    (hnames : members.map (·.1) = names) (hnodup : names.Nodup) :
    wellKeyed names (members.map fun m => (some m.1, m.2)) = true := by
  have honce : ∀ n ∈ names,
      (members.map fun m => (some m.1, m.2)).countP (fun m => m.1 = some n) ≤ 1 := by
    intro n _
    have hcount := List.nodup_iff_count_le_one.1 hnodup n
    rw [← hnames, List.count_eq_countP, List.countP_map] at hcount
    rw [List.countP_map]
    simpa [Function.comp_def, beq_eq_decide] using hcount
  simpa [wellKeyed] using honce

theorem member?_record {members : List (String × Json)} (hnodup : (members.map (·.1)).Nodup)
    {m : String × Json} (hm : m ∈ members) :
    member? m.1 (members.map fun m => (some m.1, m.2)) = some m.2 := by
  have hfind := Graph.find?_of_nodup_map hnodup hm
    (p := (fun k => decide (k.1 = some m.1)) ∘ fun k => (some k.1, k.2)) (by simp)
  rw [member?, List.find?_map, hfind]
  rfl

/-- A record that is written as an object is found with the documents of all its fields. -/
theorem record_record {α : Type} {members : List (String × Json)} {names : List String}
    (hnames : members.map (·.1) = names) (hnodup : names.Nodup) {levels n : Nat}
    (hlevels : enter? levels = some n) (read? : Nat → Fields → Option α) :
    JsonReader.record names read? levels (Json.record members) =
      read? n ⟨true, members.map fun m => some m.2⟩ := by
  have hfound : (names.map fun n => member? n (members.map fun m => (some m.1, m.2))) =
      members.map fun m => some m.2 := by
    rw [← hnames, List.map_map]
    exact List.map_congr_left fun m hm => member?_record (hnames ▸ hnodup) hm
  rw [Json.record, JsonReader.record, hlevels, Option.bind_some,
    if_pos (wellKeyed_record hnames hnodup), hfound]

/-- A reader that takes a document with any nesting that suffices for it. -/
def Reads {α : Type} (reader : JsonReader α) (a : α) (j : Json) : Prop :=
  ∀ levels, j.depth < levels → reader levels j = some a

theorem Reads.record {α : Type} {members : List (String × Json)} {names : List String}
    {read? : Nat → Fields → Option α} {a : α} (hnames : members.map (·.1) = names)
    (hnodup : names.Nodup)
    (h : ∀ n, (∀ m ∈ members, m.2.depth < n) →
      read? n ⟨true, members.map fun m => some m.2⟩ = some a) :
    Reads (JsonReader.record names read?) a (Json.record members) := by
  intro levels hdepth
  obtain ⟨n, hn, hlt⟩ := enter?_record hdepth
  rw [record_record hnames hnodup hn]
  exact h n hlt

/-- Documents that are read one by one are read one after another. -/
theorem each_eq_some {α : Type} {read? : Json → Option α} {as : List α} {js : List Json}
    (h : List.Forall₂ (fun a j => read? j = some a) as js) : each read? js = some as := by
  induction h with
  | nil => rfl
  | cons hhead _ ih => simp [each, hhead, ih]

theorem Reads.list {α : Type} {reader : JsonReader α} {as : List α} {js : List Json}
    (h : List.Forall₂ (Reads reader) as js) : Reads (list reader) as (array js) := by
  intro levels hdepth
  obtain ⟨n, hn, hlt⟩ := enter?_of_lt (hdepth : itemsDepth js + 1 < levels)
  rw [JsonReader.list, hn, Option.bind_some]
  refine each_eq_some ?_
  clear hdepth
  induction h with
  | nil => exact .nil
  | cons hhead _ ih =>
    rw [itemsDepth] at hlt
    exact .cons (hhead n (by omega)) (ih (by omega))

theorem Reads.list_map {α : Type} {reader : JsonReader α} {write : α → Json} (as : List α)
    (h : ∀ a, Reads reader a (write a)) :
    Reads (JsonReader.list reader) as (array (as.map write)) :=
  Reads.list <| by
    rw [List.forall₂_map_right_iff, List.forall₂_same]
    exact fun a _ => h a

@[simp] theorem string_text (n : Nat) (s : String) : string n (.text s) = some s := rfl

@[simp] theorem bool_bool (n : Nat) (b : Bool) : bool n (.bool b) = some b := rfl

theorem reads_string (s : String) : Reads string s (.text s) := fun _ _ => rfl

theorem reads_optional_string (s : Option String) :
    Reads (optional string) s (s.elim .null .text) := by
  intro levels _
  cases s <;> rfl

/-! ## Numbers -/

theorem splitMinus_toDigits (n : Nat) :
    splitMinus (Nat.toDigits 10 n) = (false, Nat.toDigits 10 n) := by
  unfold splitMinus
  split
  next heq =>
    exact absurd (allDigits_toDigits n '-' (heq ▸ List.mem_cons_self)) (by decide)
  next => rfl

theorem integerOf?_natText {n : Nat} (h : n < UInt64.size) :
    integerOf? (natText n) = some (n : Int) := by
  simp [integerOf?, natText, splitMinus_toDigits, natOfDigits?_toDigits, h]

theorem integerOf?_intText {n : Int} (hlow : Int64.minValue.toInt ≤ n) (hhigh : n < UInt64.size) :
    integerOf? (intText n) = some n := by
  unfold intText
  split
  next hneg =>
    have hsplit : splitMinus ("-" ++ natText n.natAbs).toList =
        (true, Nat.toDigits 10 n.natAbs) := by simp [natText, splitMinus]
    have habs : -(n.natAbs : Int) = n := by omega
    simp only [integerOf?, hsplit, natOfDigits?_toDigits, if_true, habs]
    rw [if_neg (by omega)]
  next hpos =>
    rw [integerOf?_natText (by omega), show (n.natAbs : Int) = n by omega]

theorem reads_int64 (i : Int64) : Reads int64 i (.number (intText i.toInt)) := by
  intro levels _
  have hlow := Int64.minValue_le_toInt i
  have hhigh := Int64.toInt_le i
  have hsize : i.toInt < UInt64.size := Int.lt_of_le_of_lt hhigh (by decide)
  simp only [int64, integer, integerOf?_intText hlow hsize, Option.bind_some,
    if_pos (And.intro hlow hhigh), Option.map_some, Int64.ofInt_toInt]

theorem reads_uint64 (i : UInt64) : Reads uint64 i (natJson i.toNat) := by
  intro levels _
  have hlt : i.toNat < UInt64.size := i.toNat_lt
  have hrange : (0 : Int) ≤ i.toNat ∧ (i.toNat : Int) ≤ (UInt64.size - 1 : Nat) := by omega
  simp only [uint64, integer, natJson, integerOf?_natText hlt, Option.bind_some, if_pos hrange,
    Option.map_some, Int.toNat_natCast, Nat.toUInt64_eq, UInt64.ofNat_toNat]

theorem reads_uint32 (i : UInt32) : Reads uint32 i (natJson i.toNat) := by
  intro levels _
  have hlt : i.toNat < UInt32.size := i.toNat_lt
  have hsize : i.toNat < UInt64.size := Nat.lt_trans hlt (by decide)
  have hrange : (0 : Int) ≤ i.toNat ∧ (i.toNat : Int) ≤ (UInt32.size - 1 : Nat) := by omega
  simp only [uint32, integer, natJson, integerOf?_natText hsize, Option.bind_some, if_pos hrange,
    Option.map_some, Int.toNat_natCast, Nat.toUInt32_eq, UInt32.ofNat_toNat]

end JsonReader

/-! ## Floating-point numbers -/

/-- A finite number that is read back from its text bit for bit. -/
structure Binary64.ReadsBack (x : Binary64) : Prop where
  finite : x.isFinite = true
  read : binary64.ofText? x.toJson.pretty = some x

/-- A finite coordinate that is read back from its text bit for bit. -/
structure Binary32.ReadsBack (x : Binary32) : Prop where
  finite : x.isFinite = true
  read : binary32.ofText? x.toJson.pretty = some x

theorem isFraction_wholeEnd : IsFraction ".0".toList := .inr ⟨['0'], by decide, by decide, by
  intro c hc
  obtain rfl := List.mem_singleton.1 hc
  decide⟩

theorem Binary64.printable_toJson (x : Binary64) : x.toJson.Printable := by
  unfold toJson isFinite
  cases hx : x.reading with
  | nan => exact .null
  | infinity negative => exact .null
  | finite negative mantissa exponent =>
    exact .number (NumberStyle.isLiteral_text isFraction_wholeEnd _ _ _ _)

theorem Binary32.printable_toJson (x : Binary32) : x.toJson.Printable := by
  unfold toJson isFinite
  cases hx : x.reading with
  | nan => exact .null
  | infinity negative => exact .null
  | finite negative mantissa exponent =>
    exact .number (NumberStyle.isLiteral_text isFraction_wholeEnd _ _ _ _)

theorem Binary64.ReadsBack.reads {x : Binary64} (h : x.ReadsBack) :
    Reads binary64 x x.toJson := by
  intro n _
  have hread := h.read
  rw [ofText?, parse?_pretty x.printable_toJson, Option.bind_some] at hread
  rw [← hread, Binary64.toJson]
  split <;> rfl

theorem Binary32.ReadsBack.reads {x : Binary32} (h : x.ReadsBack) :
    Reads binary32 x x.toJson := by
  intro n _
  have hread := h.read
  rw [ofText?, parse?_pretty x.printable_toJson, Option.bind_some] at hread
  rw [← hread, Binary32.toJson]
  split <;> rfl

/-! ## Values and types -/

/-- Whether a floating-point number occurs in a value, at any depth of its arrays. -/
inductive Value.HasFloat (x : Binary64) : Value → Prop where
  | float : HasFloat x (.float x)
  | item {items : List Value} {v : Value} (hv : v ∈ items) (h : HasFloat x v) :
      HasFloat x (.array items)

namespace Value

@[simp] theorem hasFloat_float {x y : Binary64} : HasFloat x (.float y) ↔ x = y :=
  ⟨fun h => by cases h; rfl, fun h => h ▸ .float⟩

@[simp] theorem hasFloat_array {x : Binary64} {items : List Value} :
    HasFloat x (.array items) ↔ ∃ v ∈ items, HasFloat x v :=
  ⟨fun | .item hv h => ⟨_, hv, h⟩, fun ⟨_, hv, h⟩ => .item hv h⟩

@[simp] theorem not_hasFloat_null {x : Binary64} : ¬HasFloat x .null := nofun

theorem allToJson?_cons {v : Value} {vs : List Value} {js : List Json}
    (h : allToJson? (v :: vs) = some js) :
    ∃ head tail, v.toJson? = some head ∧ allToJson? vs = some tail ∧ js = head :: tail := by
  simp only [allToJson?, Option.bind_eq_bind, Option.bind_eq_some_iff, Option.some.injEq] at h
  obtain ⟨head, hhead, tail, htail, rfl⟩ := h
  exact ⟨head, tail, hhead, htail, rfl⟩

mutual

theorem toJson?_eq_none : ∀ v : Value, v.toJson? = none ↔ v.HoldsForeign
  | .null | .bool _ | .int _ | .float _ | .string _ | .card _ | .buff _ | .player _ => by
    simp only [toJson?, reduceCtorEq, false_iff]
    nofun
  | .foreign o => by simp [toJson?, HoldsForeign.foreign o]
  | .array items => by
    rw [toJson?, Option.map_eq_none_iff, allToJson?_eq_none items, holdsForeign_array]

theorem allToJson?_eq_none :
    ∀ vs : List Value, allToJson? vs = none ↔ ∃ v ∈ vs, v.HoldsForeign
  | [] => by simp [allToJson?]
  | v :: vs => by
    rw [allToJson?, List.exists_mem_cons_iff, ← toJson?_eq_none v, ← allToJson?_eq_none vs]
    cases v.toJson? <;> cases allToJson? vs <;> simp

end

mutual

theorem printable_toJson? : ∀ {v : Value} {j : Json}, v.toJson? = some j → j.Printable
  | .array items, j, h => by
    obtain ⟨js, hjs, rfl⟩ := Option.map_eq_some_iff.1 h
    exact .tagged (.array (printable_allToJson? hjs))
  | .null, j, h => by
    obtain rfl := Option.some.inj h
    exact .text _
  | .bool b, j, h => by
    obtain rfl := Option.some.inj h
    exact .tagged (.bool b)
  | .int i, j, h => by
    obtain rfl := Option.some.inj h
    exact .tagged (.number (isLiteral_intText _))
  | .float x, j, h => by
    obtain rfl := Option.some.inj h
    exact .tagged x.printable_toJson
  | .string s, j, h => by
    obtain rfl := Option.some.inj h
    exact .tagged (.text s)
  | .card id, j, h | .buff id, j, h | .player id, j, h => by
    obtain rfl := Option.some.inj h
    exact .tagged (printable_natJson _)

theorem printable_allToJson? :
    ∀ {vs : List Value} {js : List Json}, allToJson? vs = some js → ∀ j ∈ js, j.Printable
  | [], js, h => by
    obtain rfl := Option.some.inj h
    simp
  | v :: vs, js, h => by
    obtain ⟨head, tail, hhead, htail, rfl⟩ := allToJson?_cons h
    exact List.forall_mem_cons.2 ⟨printable_toJson? hhead, printable_allToJson? htail⟩

end

theorem length_allToJson? {vs : List Value} {js : List Json} (h : allToJson? vs = some js) :
    js.length = vs.length := by
  induction vs generalizing js with
  | nil =>
    obtain rfl := Option.some.inj h
    rfl
  | cons v vs ih =>
    obtain ⟨head, tail, -, htail, rfl⟩ := allToJson?_cons h
    simp [ih htail]

mutual

/-- A value whose floating-point numbers are read back is read from its document. -/
theorem reads_toJson? : ∀ {v : Value} {j : Json}, v.toJson? = some j →
    (∀ x, v.HasFloat x → x.ReadsBack) → Reads ofJson? v j
  | .array items, j, h, hfloats, levels, hdepth => by
    obtain ⟨js, hjs, rfl⟩ := Option.map_eq_some_iff.1 h
    rw [depth_tagged] at hdepth
    obtain ⟨n, hn, hlt⟩ := enter?_of_lt hdepth
    obtain ⟨k, hk, hkt⟩ := enter?_of_lt (hlt : itemsDepth js + 1 < n)
    have hitems := reads_allToJson? hjs (fun x v hv hx => hfloats x (.item hv hx)) k hkt
    simp [tagged, Json.record, ofJson?, hn, arrayOfJson?, hk, hitems]
  | .null, j, h, _, levels, _ => by
    obtain rfl := Option.some.inj h
    simp [ofJson?]
  | .bool b, j, h, _, levels, hdepth => by
    obtain rfl := Option.some.inj h
    obtain ⟨n, hn, hlt⟩ := enter?_of_lt (depth_tagged _ _ ▸ hdepth)
    simp [tagged, Json.record, ofJson?, hn]
  | .int i, j, h, _, levels, hdepth => by
    obtain rfl := Option.some.inj h
    obtain ⟨n, hn, hlt⟩ := enter?_of_lt (depth_tagged _ _ ▸ hdepth)
    simp [tagged, Json.record, ofJson?, hn, reads_int64 i n hlt]
  | .float x, j, h, hfloats, levels, hdepth => by
    obtain rfl := Option.some.inj h
    obtain ⟨n, hn, hlt⟩ := enter?_of_lt (depth_tagged _ _ ▸ hdepth)
    simp [tagged, Json.record, ofJson?, hn, (hfloats x .float).reads n hlt]
  | .string s, j, h, _, levels, hdepth => by
    obtain rfl := Option.some.inj h
    obtain ⟨n, hn, hlt⟩ := enter?_of_lt (depth_tagged _ _ ▸ hdepth)
    simp [tagged, Json.record, ofJson?, hn]
  | .card id, j, h, _, levels, hdepth => by
    obtain rfl := Option.some.inj h
    obtain ⟨n, hn, hlt⟩ := enter?_of_lt (depth_tagged _ _ ▸ hdepth)
    simp [tagged, Json.record, ofJson?, hn, reads_uint64 id n hlt]
  | .buff id, j, h, _, levels, hdepth => by
    obtain rfl := Option.some.inj h
    obtain ⟨n, hn, hlt⟩ := enter?_of_lt (depth_tagged _ _ ▸ hdepth)
    simp [tagged, Json.record, ofJson?, hn, reads_uint64 id n hlt]
  | .player id, j, h, _, levels, hdepth => by
    obtain rfl := Option.some.inj h
    obtain ⟨n, hn, hlt⟩ := enter?_of_lt (depth_tagged _ _ ▸ hdepth)
    simp [tagged, Json.record, ofJson?, hn, reads_uint64 id n hlt]

theorem reads_allToJson? : ∀ {vs : List Value} {js : List Json}, allToJson? vs = some js →
    (∀ x, ∀ v ∈ vs, v.HasFloat x → x.ReadsBack) →
    ∀ levels, itemsDepth js < levels → allOfJson? levels js = some vs
  | [], js, h, _, levels, _ => by
    obtain rfl := Option.some.inj h
    rfl
  | v :: vs, js, h, hfloats, levels, hdepth => by
    obtain ⟨head, tail, hhead, htail, rfl⟩ := allToJson?_cons h
    rw [itemsDepth] at hdepth
    have hv := reads_toJson? hhead (fun x hx => hfloats x v List.mem_cons_self hx) levels (by omega)
    have hvs := reads_allToJson? htail
      (fun x w hw hx => hfloats x w (List.mem_cons_of_mem v hw) hx) levels (by omega)
    simp [allOfJson?, hv, hvs]

end

end Value

theorem ValueType.printable_toJson (t : ValueType) : t.toJson.Printable := by
  induction t with
  | array e ih => exact .tagged ih
  | object name => exact .tagged (.text name)
  | _ => exact .text _

theorem ValueType.reads_toJson (t : ValueType) : Reads ofJson? t t.toJson := by
  induction t with
  | array e ih =>
    intro levels hdepth
    rw [toJson, depth_tagged] at hdepth
    obtain ⟨n, rfl⟩ : ∃ n, levels = n + 2 := ⟨levels - 2, by omega⟩
    simp [toJson, tagged, Json.record, ofJson?, ih (n + 1) (by omega)]
  | object name =>
    intro levels hdepth
    rw [toJson, depth_tagged] at hdepth
    obtain ⟨n, rfl⟩ : ∃ n, levels = n + 2 := ⟨levels - 2, by omega⟩
    simp [toJson, tagged, Json.record, ofJson?]
  | _ =>
    intro levels _
    simp [toJson, Json.text, ofJson?, ofName?]

/-! ## Tables -/

/-- A table of values is written as a record whose keys are its own. -/
theorem valuesToJson?_eq_some {t : Table String Value} {j : Json} (h : valuesToJson? t = some j) :
    ∃ js, Value.allToJson? (t.entries.map (·.2)) = some js ∧ j = .record (t.keys.zip js) := by
  simp only [valuesToJson?, Option.bind_eq_bind, Option.bind_eq_some_iff, Option.some.injEq] at h
  obtain ⟨js, hjs, rfl⟩ := h
  exact ⟨js, hjs, rfl⟩

theorem valuesToJson?_eq_none (t : Table String Value) :
    valuesToJson? t = none ↔ ∃ e ∈ t.entries, e.2.HoldsForeign := by
  have hall := Value.allToJson?_eq_none (t.entries.map (·.2))
  simp only [List.mem_map, exists_exists_and_eq_and] at hall
  rw [← hall, valuesToJson?]
  cases Value.allToJson? (t.entries.map (·.2)) <;> simp

theorem printable_valuesToJson? {t : Table String Value} {j : Json}
    (h : valuesToJson? t = some j) : j.Printable := by
  obtain ⟨js, hjs, rfl⟩ := valuesToJson?_eq_some h
  exact .record fun m hm => Value.printable_allToJson? hjs _ (List.of_mem_zip hm).2

/-- Entries are read into a table one after another. -/
theorem entries_zip {es : List (String × Value)} {js : List Json} {levels : Nat}
    (hjs : Value.allToJson? (es.map (·.2)) = some js)
    (hfloats : ∀ x, ∀ e ∈ es, e.2.HasFloat x → x.ReadsBack) (hdepth : ∀ j ∈ js, j.depth < levels)
    (t : Table String Value) :
    entries (Value.ofJson? levels) (((es.map (·.1)).zip js).map fun m => (some m.1, m.2)) t =
      some (es.foldl (fun t e => t.insert e.1 e.2) t) := by
  induction es generalizing js t with
  | nil => rfl
  | cons e es ih =>
    obtain ⟨head, tail, hhead, htail, rfl⟩ := Value.allToJson?_cons hjs
    have hvalue := Value.reads_toJson? hhead (fun x hx => hfloats x e List.mem_cons_self hx) levels
      (hdepth head List.mem_cons_self)
    have hrest := ih htail (fun x f hf hx => hfloats x f (List.mem_cons_of_mem e hf) hx)
      fun j hj => hdepth j (List.mem_cons_of_mem head hj)
    simp [entries, hvalue, hrest]

theorem reads_valuesToJson? {t : Table String Value} {j : Json} (h : valuesToJson? t = some j)
    (hfloats : ∀ x, ∀ e ∈ t.entries, e.2.HasFloat x → x.ReadsBack) :
    Reads (table Value.ofJson?) t j := by
  intro levels hdepth
  obtain ⟨js, hjs, rfl⟩ := valuesToJson?_eq_some h
  obtain ⟨n, hn, hlt⟩ := enter?_record hdepth
  have hlength : js.length = t.keys.length := by
    rw [Value.length_allToJson? hjs, Table.keys, List.length_map, List.length_map]
  have hitem : ∀ j ∈ js, j.depth < n := by
    rw [← List.map_snd_zip (Nat.le_of_eq hlength)]
    exact List.forall_mem_map.2 hlt
  rw [Json.record, JsonReader.table, hn, Option.bind_some, Table.keys,
    entries_zip hjs hfloats hitem]
  exact congrArg some (Table.ofList_of_perm (.refl _))

/-! ## Records -/

theorem PortDecl.printable_toJson (d : PortDecl) : d.toJson.Printable := by
  refine .record ?_
  simp only [List.forall_mem_cons, List.not_mem_nil, false_implies, implies_true, and_true]
  exact ⟨d.type.printable_toJson, .text _, .text _, .bool _, .bool _⟩

theorem PortDecl.reads_toJson (d : PortDecl) : Reads ofJson? d d.toJson := by
  refine Reads.record rfl (by decide) fun n hdepth => ?_
  have htype := d.type.reads_toJson n (hdepth _ List.mem_cons_self)
  simp [Fields.require, Fields.getD, Fields.get?, htype]

theorem StoredKind.printable_toJson (k : StoredKind) : k.toJson.Printable := by
  cases k with
  | action define =>
    exact .tagged (.record (List.forall_mem_singleton.2 (.text define)))
  | entry => exact .text _
  | result => exact .text _

theorem StoredKind.reads_toJson (k : StoredKind) : Reads ofJson? k k.toJson := by
  intro levels hdepth
  cases k with
  | action define =>
    rw [toJson, depth_tagged] at hdepth
    obtain ⟨n, hn, hlt⟩ := enter?_of_lt hdepth
    have hdefine : JsonReader.record ["define"]
        (fun levels f => f.require 0 (string levels)) n (Json.record [("define", .text define)]) =
          some define :=
      Reads.record rfl (by simp) (fun m _ => by simp [Fields.require, Fields.get?]) n hlt
    simp [ofJson?, toJson, tagged, Json.record, choice?, hn, Choice.read]
    exact hdefine
  | entry => simp [ofJson?, toJson, Json.text, choice?, Choice.isUnit]
  | result => simp [ofJson?, toJson, Json.text, choice?, Choice.isUnit]

theorem ConnectionKind.reads_toJson (k : ConnectionKind) : Reads ofJson? k k.toJson := by
  intro levels _
  cases k <;> simp [ofJson?, toJson, Json.text, choice?, Choice.isUnit]

/-- The document of a position. -/
theorem Position.reads_toJson {p : Position} (hx : p.x.ReadsBack) (hy : p.y.ReadsBack) :
    Reads ofJson? p (.record [("x", p.x.toJson), ("y", p.y.toJson)]) := by
  refine Reads.record rfl (by decide) fun n hdepth => ?_
  have hreadx := hx.reads n (hdepth _ List.mem_cons_self)
  have hready := hy.reads n (hdepth _ (List.mem_cons_of_mem _ List.mem_cons_self))
  simp [Fields.require, Fields.get?, hreadx, hready]

theorem ConnectionRecord.printable_toJson (r : ConnectionRecord) : r.toJson.Printable := by
  refine .record ?_
  simp only [List.forall_mem_cons, List.not_mem_nil, false_implies, implies_true, and_true]
  refine ⟨printable_natJson _, .text _, printable_natJson _, .text _, printable_natJson _, ?_⟩
  cases r.kind <;> exact .text _

theorem ConnectionRecord.reads_toJson (r : ConnectionRecord) : Reads ofJson? r r.toJson := by
  refine Reads.record rfl (by decide) fun n hdepth => ?_
  simp only [List.forall_mem_cons] at hdepth
  obtain ⟨hsource, -, hdest, -, hslot, hkind, -⟩ := hdepth
  have hsource := reads_uint32 r.sourceNode n hsource
  have hdest := reads_uint32 r.destNode n hdest
  have hslot := reads_uint32 r.destSlot n hslot
  have hkind := r.kind.reads_toJson n hkind
  simp [Fields.require, Fields.get?, hsource, hdest, hslot, hkind]

/-! ## Nodes -/

/-- The numbers of a stored node are all read back from their texts: its coordinates, and the
floating-point numbers in its values. -/
structure NodeRecord.NumbersReadBack (r : NodeRecord) : Prop where
  x : r.position.x.ReadsBack
  y : r.position.y.ReadsBack
  float : ∀ e, (e ∈ r.consts.entries ∨ e ∈ r.defaults.entries) → ∀ x, e.2.HasFloat x → x.ReadsBack

namespace NodeRecord

theorem toJson?_eq_some {r : NodeRecord} {j : Json} (h : r.toJson? = some j) :
    ∃ consts defaults, valuesToJson? r.consts = some consts ∧
      valuesToJson? r.defaults = some defaults ∧
      j = .record [("id", natJson r.id.toNat),
        ("position", .record [("x", r.position.x.toJson), ("y", r.position.y.toJson)]),
        ("kind", r.kind.toJson), ("consts", consts), ("input_default_values", defaults)] := by
  simp only [toJson?, Option.bind_eq_bind, Option.bind_eq_some_iff, Option.some.injEq] at h
  obtain ⟨consts, hconsts, defaults, hdefaults, rfl⟩ := h
  exact ⟨consts, defaults, hconsts, hdefaults, rfl⟩

theorem toJson?_eq_none (r : NodeRecord) :
    r.toJson? = none ↔
      ∃ e, (e ∈ r.consts.entries ∨ e ∈ r.defaults.entries) ∧ e.2.HoldsForeign := by
  have hsplit : (∃ e, (e ∈ r.consts.entries ∨ e ∈ r.defaults.entries) ∧ e.2.HoldsForeign) ↔
      (∃ e ∈ r.consts.entries, e.2.HoldsForeign) ∨ ∃ e ∈ r.defaults.entries, e.2.HoldsForeign := by
    simp only [or_and_right, exists_or]
  rw [hsplit, ← valuesToJson?_eq_none, ← valuesToJson?_eq_none, toJson?]
  cases valuesToJson? r.consts <;> cases valuesToJson? r.defaults <;> simp

theorem printable_toJson? {r : NodeRecord} {j : Json} (h : r.toJson? = some j) :
    j.Printable := by
  obtain ⟨consts, defaults, hconsts, hdefaults, rfl⟩ := toJson?_eq_some h
  refine .record ?_
  simp only [List.forall_mem_cons, List.not_mem_nil, false_implies, implies_true, and_true]
  refine ⟨printable_natJson _, .record ?_, r.kind.printable_toJson,
    printable_valuesToJson? hconsts, printable_valuesToJson? hdefaults⟩
  simp only [List.forall_mem_cons, List.not_mem_nil, false_implies, implies_true, and_true]
  exact ⟨r.position.x.printable_toJson, r.position.y.printable_toJson⟩

theorem reads_toJson? {r : NodeRecord} {j : Json} (h : r.toJson? = some j)
    (hnumbers : r.NumbersReadBack) : Reads ofJson? r j := by
  obtain ⟨consts, defaults, hconsts, hdefaults, rfl⟩ := toJson?_eq_some h
  refine Reads.record rfl (by decide) fun n hdepth => ?_
  simp only [List.forall_mem_cons] at hdepth
  obtain ⟨hid, hposition, hkind, hcd, hdd, -⟩ := hdepth
  have hid := reads_uint32 r.id n hid
  have hposition := Position.reads_toJson hnumbers.x hnumbers.y n hposition
  have hkind := r.kind.reads_toJson n hkind
  have hconsts := reads_valuesToJson? hconsts (fun x e he => hnumbers.float e (.inl he) x) n hcd
  have hdefaults :=
    reads_valuesToJson? hdefaults (fun x e he => hnumbers.float e (.inr he) x) n hdd
  simp [Fields.require, Fields.get?, hid, hposition, hkind, hconsts, hdefaults]

end NodeRecord

/-! ## Snapshots -/

/-- The numbers of all nodes are read back from their texts. -/
def Snapshot.NumbersReadBack (s : Snapshot) : Prop := ∀ r ∈ s.nodes, r.NumbersReadBack

namespace Snapshot

theorem toJson?_eq_some {s : Snapshot} {j : Json} (h : s.toJson? = some j) :
    ∃ nodes, s.nodes.mapM NodeRecord.toJson? = some nodes ∧
      j = .record [("nodes", .array nodes),
        ("connections", .array (s.connections.map (·.toJson)))] := by
  simp only [toJson?, Option.bind_eq_bind, Option.bind_eq_some_iff, Option.some.injEq] at h
  obtain ⟨nodes, hnodes, rfl⟩ := h
  exact ⟨nodes, hnodes, rfl⟩

theorem mapM_toJson?_eq_none (rs : List NodeRecord) :
    rs.mapM NodeRecord.toJson? = none ↔ ∃ r ∈ rs, r.toJson? = none := by
  induction rs with
  | nil => simp
  | cons r rs ih =>
    rw [List.mapM_cons, List.exists_mem_cons_iff, ← ih]
    cases r.toJson? <;> cases rs.mapM NodeRecord.toJson? <;> simp

theorem toJson?_eq_none (s : Snapshot) : s.toJson? = none ↔ s.HoldsForeign := by
  simp only [HoldsForeign, ← NodeRecord.toJson?_eq_none, ← mapM_toJson?_eq_none, toJson?]
  cases s.nodes.mapM NodeRecord.toJson? <;> simp

/-- The documents of nodes that are written one after another. -/
theorem forall₂_of_mapM {rs : List NodeRecord} {js : List Json} {R : NodeRecord → Json → Prop}
    (hR : ∀ r ∈ rs, ∀ j, r.toJson? = some j → R r j) (h : rs.mapM NodeRecord.toJson? = some js) :
    List.Forall₂ R rs js := by
  induction rs generalizing js with
  | nil =>
    obtain rfl := Option.some.inj h
    exact .nil
  | cons r rs ih =>
    simp only [List.mapM_cons, Option.bind_eq_bind, Option.bind_eq_some_iff, Option.pure_def,
      Option.some.injEq] at h
    obtain ⟨head, hhead, tail, htail, rfl⟩ := h
    obtain ⟨hr, hrs⟩ := List.forall_mem_cons.1 hR
    exact .cons (hr head hhead) (ih hrs htail)

theorem printable_toJson? {s : Snapshot} {j : Json} (h : s.toJson? = some j) : j.Printable := by
  obtain ⟨nodes, hnodes, rfl⟩ := toJson?_eq_some h
  refine .record ?_
  simp only [List.forall_mem_cons, List.not_mem_nil, false_implies, implies_true, and_true]
  refine ⟨.array fun j hj => ?_, .array fun j hj => ?_⟩
  · obtain ⟨i, hi, rfl⟩ := List.getElem_of_mem hj
    have hforall := forall₂_of_mapM (fun _ _ _ => NodeRecord.printable_toJson?) hnodes
    exact hforall.get (hforall.length_eq ▸ hi) hi
  · obtain ⟨r, -, rfl⟩ := List.mem_map.1 hj
    exact r.printable_toJson

theorem reads_toJson? {s : Snapshot} {j : Json} (h : s.toJson? = some j)
    (hnumbers : s.NumbersReadBack) : Reads ofJson? s j := by
  obtain ⟨nodes, hnodes, rfl⟩ := toJson?_eq_some h
  have hlist : List.Forall₂ (Reads NodeRecord.ofJson?) s.nodes nodes :=
    forall₂_of_mapM (fun r hr _ hj => NodeRecord.reads_toJson? hj (hnumbers r hr)) hnodes
  refine Reads.record rfl (by decide) fun n hdepth => ?_
  simp only [List.forall_mem_cons] at hdepth
  have hnodes := Reads.list hlist n hdepth.1
  have hconnections := Reads.list_map s.connections ConnectionRecord.reads_toJson n hdepth.2.1
  simp [Fields.require, Fields.get?, hnodes, hconnections]

end Snapshot

/-! ## Definitions -/

namespace DefinitionRecord

theorem toJson?_eq_some {r : DefinitionRecord} {j : Json} (h : r.toJson? = some j) :
    ∃ graph, r.graph.toJson? = some graph ∧
      j = .record [("name", .text r.name), ("obsolete_names", .array (r.obsoleteNames.map .text)),
        ("obsolete_message", r.obsoleteMessage.elim .null .text),
        ("inputs", .array (r.inputs.map (·.toJson))), ("consts", .array (r.consts.map (·.toJson))),
        ("outputs", .array (r.outputs.map (·.toJson))), ("graph", graph)] := by
  simp only [toJson?, Option.bind_eq_bind, Option.bind_eq_some_iff, Option.some.injEq] at h
  obtain ⟨graph, hgraph, rfl⟩ := h
  exact ⟨graph, hgraph, rfl⟩

theorem toJson?_eq_none (r : DefinitionRecord) : r.toJson? = none ↔ r.HoldsForeign := by
  rw [HoldsForeign, ← Snapshot.toJson?_eq_none, toJson?]
  cases r.graph.toJson? <;> simp

theorem printable_toJson? {r : DefinitionRecord} {j : Json} (h : r.toJson? = some j) :
    j.Printable := by
  obtain ⟨graph, hgraph, rfl⟩ := toJson?_eq_some h
  have hdecls (ds : List PortDecl) : (Json.array (ds.map (·.toJson))).Printable :=
    .array (List.forall_mem_map.2 fun d _ => d.printable_toJson)
  refine .record ?_
  simp only [List.forall_mem_cons, List.not_mem_nil, false_implies, implies_true, and_true]
  refine ⟨.text _, .array (List.forall_mem_map.2 fun s _ => .text s), ?_, hdecls _, hdecls _,
    hdecls _, Snapshot.printable_toJson? hgraph⟩
  cases r.obsoleteMessage with
  | none => exact .null
  | some message => exact .text message

theorem reads_toJson? {r : DefinitionRecord} {j : Json} (h : r.toJson? = some j)
    (hnumbers : r.graph.NumbersReadBack) : Reads ofJson? r j := by
  obtain ⟨graph, hgraph, rfl⟩ := toJson?_eq_some h
  refine Reads.record rfl (by decide) fun n hdepth => ?_
  simp only [List.forall_mem_cons] at hdepth
  obtain ⟨-, hnames, hmessage, hinputs, hconsts, houtputs, hdepth, -⟩ := hdepth
  have hnames := Reads.list_map r.obsoleteNames reads_string n hnames
  have hmessage := reads_optional_string r.obsoleteMessage n hmessage
  have hinputs := Reads.list_map r.inputs PortDecl.reads_toJson n hinputs
  have hconsts := Reads.list_map r.consts PortDecl.reads_toJson n hconsts
  have houtputs := Reads.list_map r.outputs PortDecl.reads_toJson n houtputs
  have hgraph := Snapshot.reads_toJson? hgraph hnumbers n hdepth
  simp [Fields.require, Fields.optional, Fields.get?, hnames, hmessage, hinputs, hconsts, houtputs,
    hgraph]

end DefinitionRecord

/-! ## Texts -/

/-- What the text form of a kind of data has to offer: it is written unless it is refused, and if it
nests containers to no more than the limit and its numbers are read back, so is the whole of it. -/
structure TextForm {α : Type} (write : α → Except GraphError String)
    (read : String → Except GraphError α) (document? : α → Option Json)
    (refused numbersReadBack : α → Prop) : Prop where
  fails_iff : ∀ x, write x = .error (.codec .writeJson) ↔ refused x
  read_back : ∀ x, ¬refused x → numbersReadBack x →
    (∀ j, document? x = some j → j.depth ≤ depthLimit) →
    ∃ text, write x = .ok text ∧ read text = .ok x

/-- A text form that is made of documents that can be printed and a reader that takes them. -/
theorem TextForm.of_reader {α : Type} {write : α → Except GraphError String}
    {read : String → Except GraphError α} {document? : α → Option Json}
    {refused numbersReadBack : α → Prop} {reader : JsonReader α}
    (hwrite : ∀ x, write x = match document? x with
      | some j => .ok j.pretty
      | none => .error (.codec .writeJson))
    (hread : ∀ {text x}, reader.ofText? text = some x → read text = .ok x)
    (hrefused : ∀ x, document? x = none ↔ refused x)
    (hprintable : ∀ {x j}, document? x = some j → j.Printable)
    (hreads : ∀ {x j}, document? x = some j → numbersReadBack x → Reads reader x j) :
    TextForm write read document? refused numbersReadBack where
  fails_iff x := by
    rw [hwrite, ← hrefused]
    cases document? x <;> simp
  read_back x hx hnumbers hdepth := by
    obtain ⟨j, hj⟩ := Option.ne_none_iff_exists'.1 (mt (hrefused x).1 hx)
    have hlevels : j.depth < levels := Nat.lt_succ_of_le (hdepth j hj)
    refine ⟨j.pretty, by rw [hwrite, hj], hread ?_⟩
    rw [ofText?, parse?_pretty (hprintable hj), Option.bind_some, hreads hj hnumbers _ hlevels]

/-- Stored graphs and stored definitions are read back from their JSON text. -/
theorem textForm_snapshot_definition :
    TextForm Snapshot.jsonText Snapshot.ofJsonText Snapshot.toJson? Snapshot.HoldsForeign
        Snapshot.NumbersReadBack ∧
      TextForm DefinitionRecord.jsonText DefinitionRecord.ofJsonText DefinitionRecord.toJson?
        DefinitionRecord.HoldsForeign (·.graph.NumbersReadBack) := by
  constructor
  · refine .of_reader (fun _ => rfl) (fun h => ?_) Snapshot.toJson?_eq_none
      Snapshot.printable_toJson? Snapshot.reads_toJson?
    rw [Snapshot.ofJsonText, h]
  · refine .of_reader (fun _ => rfl) (fun h => ?_) DefinitionRecord.toJson?_eq_none
      DefinitionRecord.printable_toJson? DefinitionRecord.reads_toJson?
    rw [DefinitionRecord.ofJsonText, h]

/-- A record with characters that have to be escaped and characters outside the first plane, extreme
integers, extreme and ordinary floating-point numbers, a repeated obsolete name and no message. -/
def quotedRecord : DefinitionRecord where
  name := "\"étage\\\x07\n𝄞"
  obsoleteNames := ["", "\x7f", ""]
  obsoleteMessage := none
  inputs := [⟨.array (.array (.object "Card")), "deck", "Deck\t", true, false⟩]
  consts := []
  outputs := [⟨.any, "exit", "", false, true⟩]
  graph :=
    { nodes := [
        { id := 4294967295
          position := ⟨⟨0x3dcccccd⟩, ⟨0x80000000⟩⟩
          kind := .action "null"
          consts :=
            .ofList [("Int", .int (-9223372036854775808)), ("\"", .card 18446744073709551615)]
          defaults := .ofList [("deck[0]", .array [.array [.null, .float ⟨0x3fb999999999999a⟩],
            .float ⟨0x0000000000000001⟩])] },
        { id := 0, position := ⟨⟨0⟩, ⟨0⟩⟩, kind := .entry, consts := .empty, defaults := .empty }]
      connections := [⟨0, "exit", 4294967295, "enter", 4294967295, .control⟩] }

theorem quotedRecord_read_back :
    ∃ text, quotedRecord.jsonText = .ok text ∧
      DefinitionRecord.ofJsonText text = .ok quotedRecord := by
  refine textForm_snapshot_definition.2.read_back quotedRecord
    ((DefinitionRecord.toJson?_eq_none _).not.1 (by decide +kernel)) ?_ ?_
  · refine List.forall_mem_cons.2 ⟨⟨?_, ?_, ?float⟩, List.forall_mem_singleton.2 ⟨?_, ?_, ?none⟩⟩
    case float =>
      intro e he x hx
      have he : e.2 ∈ [.card 18446744073709551615, .int (-9223372036854775808),
          .array [.array [.null, .float ⟨0x3fb999999999999a⟩], .float ⟨0x0000000000000001⟩]] :=
        (List.mem_append.2 he : e ∈ _ ++ _) |> List.mem_map_of_mem (f := (·.2))
      have hx : x ∈ [⟨0x3fb999999999999a⟩, ⟨0x0000000000000001⟩] := by
        simp only [List.mem_cons, List.not_mem_nil, or_false] at he
        rcases he with he | he | he <;> rw [he] at hx
        · cases hx
        · cases hx
        · simpa using hx
      simp only [List.mem_cons, List.not_mem_nil, or_false] at hx
      rcases hx with rfl | rfl <;> exact ⟨by decide, by decide +kernel⟩
    case none => simp [Table.empty]
    all_goals exact ⟨by decide, by decide +kernel⟩
  · have hdepth : quotedRecord.toJson?.all (fun j => j.depth ≤ depthLimit) = true := by
      decide +kernel
    intro j hj
    simpa [hj] using hdepth

end EffectGraph
