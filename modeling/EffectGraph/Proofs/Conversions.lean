import EffectGraph.Proofs.Commands
import EffectGraph.Proofs.ReadingBack

/-!
# Converting graphs

The commands that convert graphs between JSON and bytes, in a folder of files.

* A file of bytes that was encoded from a file of JSON can take its place
  (`Command.encoded_interchangeable`): nothing that is asked about the graph tells the two apart,
  and decoding it gives the JSON text of the same snapshot.
* Decoding a file of bytes refuses no snapshot, but not every snapshot survives it
  (`Command.decoded_survives_iff`): exactly those do whose numbers are all read back from their
  texts and that do not nest values too deeply.
-/

namespace EffectGraph

open Command

/-! ## Codecs -/

theorem Snapshot.decode_encode {s : Snapshot} {content : Bytes} (h : s.encode = .ok content)
    (hsize : content.length < UInt64.size) : Snapshot.decode content = .ok s := by
  unfold encode at h
  split at h
  next bs hbs =>
    obtain rfl := Except.ok.inj h
    have hread := Snapshot.ofBytes?_toBytes? hbs hsize []
    rw [List.append_nil] at hread
    rw [decode, hread]
  next => simp at h

/-- The text of a snapshot is read as its document is. -/
theorem Snapshot.ofJsonText_of_jsonText {s : Snapshot} {text : String} (h : s.jsonText = .ok text) :
    Snapshot.ofJsonText text =
      (s.toJson?.bind (Snapshot.ofJson? JsonReader.levels)).elim (.error (.codec .readJson))
        .ok := by
  unfold jsonText at h
  split at h
  next j hj =>
    obtain rfl := Except.ok.inj h
    rw [ofJsonText, JsonReader.ofText?, Json.parse?_pretty (printable_toJson? hj),
      Option.bind_some, hj, Option.bind_some]
    cases Snapshot.ofJson? JsonReader.levels j <;> rfl
  next => simp at h

/-- The text of a snapshot is read as that snapshot exactly if it does not nest too deeply and all
numbers in it are read back. -/
theorem Snapshot.ofJsonText_iff {s : Snapshot} {text : String} (h : s.jsonText = .ok text) :
    Snapshot.ofJsonText text = .ok s ↔
      s.NumbersReadBack ∧ ∀ j, s.toJson? = some j → j.depth ≤ Json.depthLimit := by
  obtain ⟨j, hj⟩ : ∃ j, s.toJson? = some j := by
    cases hj : s.toJson? with
    | none => simp [jsonText, hj] at h
    | some j => exact ⟨j, rfl⟩
  have hread : Snapshot.ofJsonText text = .ok s ↔
      Snapshot.ofJson? JsonReader.levels j = some s := by
    rw [ofJsonText_of_jsonText h, hj, Option.bind_some]
    cases Snapshot.ofJson? JsonReader.levels j <;> simp
  rw [hread, Snapshot.reads_iff (by decide) hj, and_comm]
  simp only [hj, Option.some.injEq, forall_eq']
  exact and_congr_right' (Nat.lt_succ_iff (n := Json.depthLimit))

theorem Snapshot.jsonText_eq_ok {s : Snapshot} (h : ¬s.HoldsForeign) :
    ∃ text, s.jsonText = .ok text := by
  obtain ⟨j, hj⟩ := Option.ne_none_iff_exists'.1 (mt s.toJson?_eq_none.1 h)
  exact ⟨j.pretty, by rw [jsonText, hj]⟩

theorem Snapshot.encode_eq_ok {s : Snapshot} (h : ¬s.HoldsForeign) :
    ∃ content, s.encode = .ok content := by
  obtain ⟨content, hcontent⟩ := Option.ne_none_iff_exists'.1 (mt s.toBytes?_eq_none.1 h)
  exact ⟨content, by rw [encode, hcontent]⟩

namespace Folder

variable {f : Folder}

theorem not_holdsForeign_of_snapshotAt {path : String} {s : Snapshot}
    (h : f.snapshotAt path = .ok s) : ¬s.HoldsForeign := by
  unfold snapshotAt at h
  split at h
  · simp at h
  · exact Snapshot.not_holdsForeign_of_decode h

/-- A file to which the bytes of a snapshot are written holds the snapshot. -/
theorem snapshotAt_write {path : String} {s : Snapshot} {content : Bytes} {f₁ : Folder}
    (hcontent : s.encode = .ok content) (hwrite : f.write path content = .ok f₁)
    (hsize : ∀ content, f₁.read path = .ok content → content.length < UInt64.size) :
    f₁.snapshotAt path = .ok s := by
  have hread := read_write hwrite
  rw [snapshotAt, hread]
  exact Snapshot.decode_encode hcontent (hsize content hread)

end Folder

namespace Command

/-! ## Encoding -/

/-- Whether two files of graphs have the same answers to all questions, on command lines with the
same define files. -/
def Interchangeable (f : Folder) (p q : String) : Prop :=
  ∀ {allowance : Nat} {question : Question} {ds args args' : List String},
    parse args = .request ⟨ds, question.task p⟩ → parse args' = .request ⟨ds, question.task q⟩ →
    (f.perform (respond allowance args)).1.Alike (f.perform (respond allowance args')).1

/-- Whether a conversion writes these bytes to whatever file it is asked to write and that can be
written. -/
def Converts (f : Folder) (task : String → Task) (content : Bytes) : Prop :=
  ∀ {allowance : Nat} {ds args : List String} {output : String} {f₁ : Folder},
    parse args = .request ⟨ds, task output⟩ → f.write output content = .ok f₁ →
    ∃ report, f.perform (respond allowance args) = (report, f₁) ∧ report.code = 0 ∧
      f₁.read output = .ok content

/-- A file of bytes that was encoded from a file of JSON can take its place. If the file of JSON is
named so, nothing that is asked about the graph tells the two apart. Decoding the file of bytes
writes the JSON text of the snapshot that the file of JSON holds, and encoding a file with that text
gives the same bytes again, provided that the numbers of the snapshot are read back from their
texts. -/
theorem encoded_interchangeable {f f₁ : Folder} {allowance : Nat} {ds args : List String}
    {input output : String} {report : Report}
    (hargs : parse args = .request ⟨ds, .encode input output⟩)
    (houtput : output.endsWith ".json" = false)
    (hperform : f.perform (respond allowance args) = (report, f₁)) (hcode : report.code = 0)
    (hsize : ∀ content, f₁.read output = .ok content → content.length < UInt64.size) :
    ∃ source s content text, f.textAt input = .ok source ∧ Snapshot.ofJsonText source = .ok s ∧
      f₁.read output = .ok content ∧ s.jsonText = .ok text ∧
      (input.endsWith ".json" = true → Interchangeable f₁ input output) ∧
      Converts f₁ (.decode output) text.toByteArray.toList ∧
      (s.NumbersReadBack → ∀ {f₂ : Folder} {path : String},
        f₂.read path = .ok text.toByteArray.toList → Converts f₂ (.encode path) content) := by
  rw [Folder.perform_respond hargs] at hperform
  obtain ⟨source, s, content, hsource, hs, hcontent, hwrite⟩ :=
    Folder.exists_of_encoded hperform hcode
  have hread : f₁.read output = .ok content := Folder.read_write hwrite
  have hbytes : f₁.snapshotAt output = .ok s := Folder.snapshotAt_write hcontent hwrite hsize
  obtain ⟨j, hj, hdepth⟩ := Snapshot.writable_of_ofJsonText hs
  have htext : s.jsonText = .ok j.pretty := by rw [Snapshot.jsonText, hj]
  refine ⟨source, s, content, j.pretty, hsource, hs, hread, htext, ?alike, ?decoded, ?encoded⟩
  case alike =>
    intro hinput allowance question ds args args' hargs hargs'
    obtain ⟨old, hold⟩ := Folder.read_of_textAt hsource
    have hkept := Folder.read_write_of_endsWith (by decide) hinput houtput hold hwrite
    have hholdsInput : f₁.Holds input s := by
      rw [Folder.Holds, if_pos hinput]
      exact ⟨source, (Folder.textAt_congr hold hkept).trans hsource, hs⟩
    have hholdsOutput : f₁.Holds output s := by
      rwa [Folder.Holds, if_neg (by simp [houtput])]
    rw [Folder.perform_respond hargs, Folder.perform_respond hargs']
    exact Folder.answer_alike hholdsInput hholdsOutput allowance question ds
  case decoded =>
    intro allowance ds args target f₂ hargs hwrite
    exact ⟨_, by rw [Folder.perform_respond hargs, Folder.answer_decode hbytes htext hwrite], rfl,
      Folder.read_write hwrite⟩
  case encoded =>
    intro hnumbers f₂ path htarget allowance ds args target f₃ hargs hwrite
    have hback : Snapshot.ofJsonText j.pretty = .ok s := by
      refine (Snapshot.ofJsonText_iff htext).2 ⟨hnumbers, fun j' hj' => ?_⟩
      obtain rfl := Option.some.inj (hj.symm.trans hj')
      exact hdepth
    exact ⟨_, by rw [Folder.perform_respond hargs, Folder.answer_encode
      (Folder.textAt_of_read htarget) hback hcontent hwrite], rfl, Folder.read_write hwrite⟩

/-- A node that is not spelled as the printer spells it: as an array, with a constant that is given
twice, and with whole numbers for others. -/
def spelledNode : Json :=
  .array
    [natJson 7, .record [("y", natJson 0), ("x", natJson 3)], .tagged "Entry" .null,
      .record [("b", .tagged "Null" .null), ("a", .tagged "Int" (.number (intText (-1)))),
        ("b", .tagged "Float" (natJson 100))],
      .record []]

/-- A graph with that node, its members in another order and with one that is no field. -/
def spelledJson : Json :=
  .record [("drawn", .null), ("connections", .array []), ("nodes", .array [spelledNode])]

/-- The snapshot of that document. -/
def spelled : Snapshot where
  nodes := [
    { id := 7
      position := ⟨⟨0x40400000⟩, ⟨0⟩⟩
      kind := .entry
      consts := .ofList [("a", .int (-1)), ("b", .float ⟨0x4059000000000000⟩)]
      defaults := .empty }]
  connections := []

/-- The bytes of that snapshot. -/
def spelledBytes : Bytes :=
  [1, 7, 0, 0, 64, 64, 0, 0, 0, 0, 1, 2, 1, 97, 2, 1, 1, 98, 3, 0, 0, 0, 0, 0, 0, 89, 64, 0, 0]

theorem printable_spelledJson : spelledJson.Printable := by
  have hnode : spelledNode.Printable := by
    refine .array ?_
    simp only [List.forall_mem_cons, List.not_mem_nil, false_implies, implies_true, and_true]
    refine ⟨Json.printable_natJson 7, .record ?_, .tagged .null, .record ?_, .record (by simp)⟩
    · simp [Json.printable_natJson]
    · simp [Json.Printable.tagged, Json.Printable.null, Json.printable_natJson,
        Json.Printable.number, isLiteral_intText]
  refine .record ?_
  simp [Json.Printable.null, Json.Printable.array, hnode]

theorem spelled_read_written : Snapshot.ofJson? JsonReader.levels spelledJson = some spelled ∧
    spelled.encode = .ok spelledBytes ∧
    spelled.toJson?.bind (Snapshot.ofJson? JsonReader.levels) = some spelled := by
  decide +kernel

theorem spelled_readsBack :
    spelled.NumbersReadBack ∧ ∀ j, spelled.toJson? = some j → j.depth ≤ Json.depthLimit := by
  obtain ⟨j, hj, hread⟩ := Option.bind_eq_some_iff.1 spelled_read_written.2.2
  obtain ⟨hdepth, hnumbers⟩ := (Snapshot.reads_iff (by decide) hj).1 hread
  refine ⟨hnumbers, fun j' hj' => ?_⟩
  obtain rfl := Option.some.inj (hj.symm.trans hj')
  exact Nat.le_of_lt_succ hdepth

def spelledFolder : Folder :=
  Table.empty.insert "g.json" spelledJson.pretty.toByteArray.toList

theorem spelled_interchangeable : ∃ text f₁ f₂,
    spelledFolder.perform (respond 0 ["encode", "g.json", "g.bin"]) =
      (success (wroteText "g.bin" spelled), f₁) ∧
    spelled.jsonText = .ok text ∧ Interchangeable f₁ "g.json" "g.bin" ∧
    Converts f₁ (.decode "g.bin") text.toByteArray.toList ∧
    f₁.write "h.json" text.toByteArray.toList = .ok f₂ ∧
    Converts f₂ (.encode "h.json") spelledBytes := by
  obtain ⟨hdocument, hbytes, -⟩ := spelled_read_written
  have hargs : parse ["encode", "g.json", "g.bin"] = .request ⟨[], .encode "g.json" "g.bin"⟩ := rfl
  have hsource : spelledFolder.textAt "g.json" = .ok spelledJson.pretty :=
    Folder.textAt_of_read (Folder.read_of_isName (by decide) (by simp [spelledFolder]))
  have hspelled : Snapshot.ofJsonText spelledJson.pretty = .ok spelled := by
    rw [Snapshot.ofJsonText, JsonReader.ofText?, Json.parse?_pretty printable_spelledJson,
      Option.bind_some, hdocument]
  have hwritable : spelledFolder.Writable "g.bin" := Folder.writable_of_isName (by decide)
  obtain ⟨f₁, hwrite⟩ := hwritable spelledBytes
  have hread : f₁.read "g.bin" = .ok spelledBytes := Folder.read_write hwrite
  have hperform : spelledFolder.perform (respond 0 ["encode", "g.json", "g.bin"]) =
      (success (wroteText "g.bin" spelled), f₁) := by
    rw [Folder.perform_respond hargs]
    exact Folder.answer_encode hsource hspelled hbytes hwrite
  obtain ⟨source, s, content, text, hsource', hs, hread', htext, halike, hdecoded, hencoded⟩ :=
    encoded_interchangeable hargs (Bool.eq_false_iff.2 (mt Folder.endsWith_iff.1 (by decide)))
      hperform rfl fun content hcontent => by
        obtain rfl := Except.ok.inj (hread.symm.trans hcontent)
        decide
  obtain rfl : source = spelledJson.pretty := Except.ok.inj (hsource'.symm.trans hsource)
  obtain rfl : s = spelled := Except.ok.inj (hs.symm.trans hspelled)
  obtain rfl : content = spelledBytes := Except.ok.inj (hread'.symm.trans hread)
  have hwritable₁ : f₁.Writable "h.json" := Folder.writable_of_isName (by decide)
  obtain ⟨f₂, hback⟩ := hwritable₁ text.toByteArray.toList
  exact ⟨text, f₁, f₂, hperform, htext, halike (Folder.endsWith_iff.2 (by decide)), hdecoded, hback,
    hencoded spelled_readsBack.1 (Folder.read_write hback)⟩

/-- The graph without nodes. -/
def bareJson : Json := .record [("nodes", .array []), ("connections", .array [])]

/-- A folder with that graph in a file of JSON that is not named so. -/
def misnamedFolder : Folder := Table.empty.insert "g.txt" bareJson.pretty.toByteArray.toList

theorem bare_read_written : Snapshot.ofJson? JsonReader.levels bareJson = some ⟨[], []⟩ ∧
    (⟨[], []⟩ : Snapshot).encode = .ok [0, 0] ∧
    (Snapshot.decode bareJson.pretty.toByteArray.toList).toOption = none := by
  decide +kernel

/-- The folder after the graph has been encoded. -/
def encodedFolder : Folder := misnamedFolder.insert "g.bin" [0, 0]

theorem write_misnamedFolder : misnamedFolder.write "g.bin" [0, 0] = .ok encodedFolder :=
  Folder.write_eq_ok.2 ⟨"g.bin", Folder.fileOf?_of_isName (by decide), rfl⟩

theorem perform_encode_misnamedFolder :
    misnamedFolder.perform (respond 0 ["encode", "g.txt", "g.bin"]) =
      (success (wroteText "g.bin" ⟨[], []⟩), encodedFolder) := by
  obtain ⟨hdocument, hbytes, -⟩ := bare_read_written
  have hargs : parse ["encode", "g.txt", "g.bin"] = .request ⟨[], .encode "g.txt" "g.bin"⟩ := rfl
  have hsource : misnamedFolder.textAt "g.txt" = .ok bareJson.pretty :=
    Folder.textAt_of_read (Folder.read_of_isName (by decide) (by simp [misnamedFolder]))
  have hprintable : bareJson.Printable := .record (by simp [Json.Printable.array])
  have hsnapshot : Snapshot.ofJsonText bareJson.pretty = .ok ⟨[], []⟩ := by
    rw [Snapshot.ofJsonText, JsonReader.ofText?, Json.parse?_pretty hprintable,
      Option.bind_some, hdocument]
  rw [Folder.perform_respond hargs]
  exact Folder.answer_encode hsource hsnapshot hbytes write_misnamedFolder

/-- The text of the graph is not the bytes of one. -/
theorem code_inspect_misnamed :
    (encodedFolder.perform (respond 0 ["inspect", "g.txt"])).1.code = 1 := by
  have hargs : parse ["inspect", "g.txt"] = .request ⟨[], .inspect "g.txt"⟩ := rfl
  obtain ⟨c, hc⟩ : ∃ c, Catalog.standard = .ok c := ⟨_, rfl⟩
  have hname : "g.txt".endsWith ".json" = false :=
    Bool.eq_false_iff.2 (mt Folder.endsWith_iff.1 (by decide))
  have hread : encodedFolder.read "g.txt" = .ok bareJson.pretty.toByteArray.toList :=
    Folder.read_of_isName (by decide) (by simp [encodedFolder, misnamedFolder])
  obtain ⟨e, he⟩ : ∃ e, encodedFolder.snapshotAt "g.txt" = .error e := by
    rw [Folder.snapshotAt, hread]
    cases hdecode : Snapshot.decode bareJson.pretty.toByteArray.toList with
    | error e => exact ⟨e, hdecode⟩
    | ok s => simpa [hdecode, Except.toOption] using bare_read_written.2.2
  rw [Folder.perform_respond hargs, Folder.answer_inspect_undecoded hc hname he]
  rfl

theorem perform_inspect_encoded :
    (encodedFolder.perform (respond 0 ["inspect", "g.bin"])).1 =
      success "--- Nodes (0) ---\n\n--- Connections (0) ---\n" := by
  have hargs : parse ["inspect", "g.bin"] = .request ⟨[], .inspect "g.bin"⟩ := rfl
  obtain ⟨c, hc⟩ : ∃ c, Catalog.standard = .ok c := ⟨_, rfl⟩
  have hholds : encodedFolder.Holds "g.bin" ⟨[], []⟩ := by
    rw [Folder.Holds, if_neg (mt Folder.endsWith_iff.1 (by decide))]
    refine Folder.snapshotAt_write bare_read_written.2.1 write_misnamedFolder fun content h => ?_
    obtain rfl := Except.ok.inj ((Folder.read_write write_misnamedFolder).symm.trans h)
    decide
  have htext : graphText (Snapshot.canvas 0 none).release =
      "--- Nodes (0) ---\n\n--- Connections (0) ---\n" := by decide +kernel
  rw [Folder.perform_respond hargs, Folder.answer_inspect hc hholds rfl]
  exact congrArg success htext

/-- A file of JSON that is not named so is read as bytes when the graph is asked for, though not
when it is encoded: it is refused where the file of bytes that it was encoded to is answered. -/
theorem misnamed_not_interchangeable : ∃ f₁,
    misnamedFolder.perform (respond 0 ["encode", "g.txt", "g.bin"]) =
      (success (wroteText "g.bin" ⟨[], []⟩), f₁) ∧
    (f₁.perform (respond 0 ["inspect", "g.txt"])).1.code = 1 ∧
    (f₁.perform (respond 0 ["inspect", "g.bin"])).1 =
      success "--- Nodes (0) ---\n\n--- Connections (0) ---\n" ∧
    ¬Interchangeable f₁ "g.txt" "g.bin" := by
  refine ⟨encodedFolder, perform_encode_misnamedFolder, code_inspect_misnamed,
    perform_inspect_encoded, fun halike => ?_⟩
  have hcode := (@halike 0 .inspect [] ["inspect", "g.txt"] ["inspect", "g.bin"] rfl rfl).1
  rw [code_inspect_misnamed, perform_inspect_encoded] at hcode
  exact absurd hcode (by decide)

/-! ## Decoding -/

/-- A file of bytes that holds a snapshot is decoded to any file that can be written. -/
theorem answer_decode_of_writable {f : Folder} {input output : String} {s : Snapshot}
    (hsnapshot : f.snapshotAt input = .ok s) (hwritable : f.Writable output) (allowance : Nat)
    (ds : List String) :
    ∃ text f₁, s.jsonText = .ok text ∧ f₁.textAt output = .ok text ∧
      f.answer allowance ⟨ds, .decode input output⟩ = (success (wroteText output s), f₁) := by
  obtain ⟨text, htext⟩ := Snapshot.jsonText_eq_ok (Folder.not_holdsForeign_of_snapshotAt hsnapshot)
  obtain ⟨f₁, hwrite⟩ := hwritable text.toByteArray.toList
  exact ⟨text, f₁, htext, Folder.textAt_of_read (Folder.read_write hwrite),
    Folder.answer_decode hsnapshot htext hwrite⟩

/-- A file with the text of a snapshot is encoded to a file that holds the snapshot exactly if the
text is read as the snapshot. -/
theorem answer_encode_keeps_iff {f f₁ : Folder} {allowance : Nat} {ds : List String}
    {input output text : String} {s : Snapshot} {report : Report} (hforeign : ¬s.HoldsForeign)
    (htext : f.textAt input = .ok text) (hwritable : f.Writable output)
    (hanswer : f.answer allowance ⟨ds, .encode input output⟩ = (report, f₁))
    (hsize : ∀ content, f₁.read output = .ok content → content.length < UInt64.size) :
    report.code = 0 ∧ f₁.snapshotAt output = .ok s ↔ Snapshot.ofJsonText text = .ok s := by
  constructor
  · rintro ⟨hcode, hkept⟩
    obtain ⟨text', s', content, htext', hs', hcontent, hwrite⟩ :=
      Folder.exists_of_encoded hanswer hcode
    have hholds := Folder.snapshotAt_write hcontent hwrite hsize
    obtain rfl : text = text' := Except.ok.inj (htext.symm.trans htext')
    obtain rfl : s' = s := Except.ok.inj (hholds.symm.trans hkept)
    exact hs'
  · intro hs
    obtain ⟨content, hcontent⟩ := Snapshot.encode_eq_ok hforeign
    obtain ⟨f', hwrite⟩ := hwritable content
    rw [Folder.answer_encode htext hs hcontent hwrite, Prod.mk.injEq] at hanswer
    obtain ⟨rfl, rfl⟩ := hanswer
    exact ⟨rfl, Folder.snapshotAt_write hcontent hwrite hsize⟩

/-- Decoding accepts every file of bytes that holds a snapshot. If the text that it writes is
encoded again, the file of bytes that results holds the same snapshot exactly if all numbers of the
snapshot are read back from their texts and it does not nest values too deeply. -/
theorem decoded_survives_iff {f f₁ : Folder} {allowance : Nat} {ds args : List String}
    {input output : String} {report : Report}
    (hargs : parse args = .request ⟨ds, .decode input output⟩)
    (hperform : f.perform (respond allowance args) = (report, f₁)) :
    (report.code = 0 ↔ (∃ s, f.snapshotAt input = .ok s) ∧ f.Writable output) ∧
      (report.code = 0 → ∃ s, f.snapshotAt input = .ok s ∧
        ∀ {allowance' : Nat} {ds' args' : List String} {target : String} {report' : Report}
          {f₂ : Folder}, parse args' = .request ⟨ds', .encode output target⟩ →
          f₁.Writable target → f₁.perform (respond allowance' args') = (report', f₂) →
          (∀ content, f₂.read target = .ok content → content.length < UInt64.size) →
          (report'.code = 0 ∧ f₂.snapshotAt target = .ok s ↔
            s.NumbersReadBack ∧ ∀ j, s.toJson? = some j → j.depth ≤ Json.depthLimit)) := by
  rw [Folder.perform_respond hargs] at hperform
  have haccepted : report.code = 0 → (∃ s, f.snapshotAt input = .ok s) ∧ f.Writable output := by
    intro hcode
    obtain ⟨s, text, hsnapshot, -, hwrite⟩ := Folder.exists_of_decoded hperform hcode
    exact ⟨⟨s, hsnapshot⟩, Folder.writable_of_write hwrite⟩
  refine ⟨⟨haccepted, ?_⟩, fun hcode => ?_⟩
  · rintro ⟨⟨s, hsnapshot⟩, hwritable⟩
    obtain ⟨text, f', -, -, hanswer⟩ := answer_decode_of_writable hsnapshot hwritable allowance ds
    rw [hanswer, Prod.mk.injEq] at hperform
    rw [← hperform.1]
    rfl
  · obtain ⟨⟨s, hsnapshot⟩, hwritable⟩ := haccepted hcode
    obtain ⟨text, f', htext, hfile, hanswer⟩ :=
      answer_decode_of_writable hsnapshot hwritable allowance ds
    rw [hanswer, Prod.mk.injEq] at hperform
    obtain ⟨-, rfl⟩ := hperform
    refine ⟨s, hsnapshot, fun hargs' hwritable' hperform' hsize => ?_⟩
    rw [Folder.perform_respond hargs'] at hperform'
    rw [answer_encode_keeps_iff (Folder.not_holdsForeign_of_snapshotAt hsnapshot) hfile hwritable'
      hperform' hsize, Snapshot.ofJsonText_iff htext]

/-- The folder with one file, of bytes. -/
def bytesFolder (content : Bytes) : Folder := Table.empty.insert "g.bin" content

theorem parse_decode :
    parse ["decode", "g.bin", "g.json"] = .request ⟨[], .decode "g.bin" "g.json"⟩ := rfl

theorem parse_encode :
    parse ["encode", "g.json", "h.bin"] = .request ⟨[], .encode "g.json" "h.bin"⟩ := rfl

/-- A snapshot in `g.bin` is decoded. -/
theorem perform_decode_bytesFolder {s : Snapshot} {content : Bytes}
    (hencode : s.encode = .ok content) (hsize : content.length < UInt64.size) :
    ∃ text f₁, (bytesFolder content).snapshotAt "g.bin" = .ok s ∧ s.jsonText = .ok text ∧
      f₁.textAt "g.json" = .ok text ∧
      (bytesFolder content).perform (respond 0 ["decode", "g.bin", "g.json"]) =
        (success (wroteText "g.json" s), f₁) := by
  have hread : (bytesFolder content).read "g.bin" = .ok content :=
    Folder.read_of_isName (by decide) (by simp [bytesFolder])
  have hsnapshot : (bytesFolder content).snapshotAt "g.bin" = .ok s := by
    rw [Folder.snapshotAt, hread]
    exact Snapshot.decode_encode hencode hsize
  have hwritable : (bytesFolder content).Writable "g.json" :=
    Folder.writable_of_isName (by decide)
  obtain ⟨text, f₁, htext, hfile, hanswer⟩ := answer_decode_of_writable hsnapshot hwritable 0 []
  exact ⟨text, f₁, hsnapshot, htext, hfile, by rw [Folder.perform_respond parse_decode, hanswer]⟩

/-- The text is encoded as what is read from it. -/
theorem perform_encode_text {f : Folder} {text : String} {s s' : Snapshot} {content : Bytes}
    (hfile : f.textAt "g.json" = .ok text) (htext : s.jsonText = .ok text)
    (hread : s.toJson?.bind (Snapshot.ofJson? JsonReader.levels) = some s')
    (hencode : s'.encode = .ok content) (hsize : content.length < UInt64.size) :
    ∃ f₁, f₁.read "h.bin" = .ok content ∧ f₁.snapshotAt "h.bin" = .ok s' ∧
      f.perform (respond 0 ["encode", "g.json", "h.bin"]) =
        (success (wroteText "h.bin" s'), f₁) := by
  have hwritable : f.Writable "h.bin" := Folder.writable_of_isName (by decide)
  obtain ⟨f₁, hwrite⟩ := hwritable content
  refine ⟨f₁, Folder.read_write hwrite, ?_, ?_⟩
  · rw [Folder.snapshotAt, Folder.read_write hwrite]
    exact Snapshot.decode_encode hencode hsize
  · rw [Folder.perform_respond parse_encode]
    exact Folder.answer_encode hfile (by rw [Snapshot.ofJsonText_of_jsonText htext, hread]; rfl)
      hencode hwrite

theorem spelled_survives : ∃ f₁ f₂,
    (bytesFolder spelledBytes).perform (respond 0 ["decode", "g.bin", "g.json"]) =
      (success (wroteText "g.json" spelled), f₁) ∧
    f₁.perform (respond 0 ["encode", "g.json", "h.bin"]) =
      (success (wroteText "h.bin" spelled), f₂) ∧
    f₂.snapshotAt "h.bin" = .ok spelled := by
  obtain ⟨-, hbytes, hback⟩ := spelled_read_written
  obtain ⟨text, f₁, hsnapshot, htext, hfile, hdecoded⟩ :=
    perform_decode_bytesFolder hbytes (by decide)
  obtain ⟨f₂, hread, -, hencoded⟩ := perform_encode_text hfile htext hback hbytes (by decide)
  obtain ⟨-, hsurvives⟩ := decoded_survives_iff parse_decode hdecoded
  obtain ⟨s, hs, hsurvives⟩ := hsurvives rfl
  obtain rfl : s = spelled := Except.ok.inj (hs.symm.trans hsnapshot)
  have hwritable : f₁.Writable "h.bin" := Folder.writable_of_isName (by decide)
  have hsize (content : Bytes) (h : f₂.read "h.bin" = .ok content) :
      content.length < UInt64.size := by
    obtain rfl := Except.ok.inj (hread.symm.trans h)
    decide
  exact ⟨f₁, f₂, hdecoded, hencoded,
    ((hsurvives parse_encode hwritable hencoded hsize).2 spelled_readsBack).2⟩

/-- A graph with one node that logs a floating-point number. -/
def logging (x : Binary64) : Snapshot where
  nodes := [
    { id := 1
      position := ⟨⟨0⟩, ⟨0⟩⟩
      kind := .action "Log"
      consts := .empty
      defaults := .ofList [("message", .float x)] }]
  connections := []

/-- The bytes of that graph. -/
def loggingBytes (x : Binary64) : Bytes :=
  [1, 1, 0, 0, 0, 0, 0, 0, 0, 0, 0, 3, 76, 111, 103, 0, 1, 7, 109, 101, 115, 115, 97, 103, 101,
    3] ++ Bytes.ofNat 8 x.bits.toNat ++ [0]

/-- Infinity, the greatest number below one, and one. -/
theorem logging_read_written :
    (logging ⟨0x7ff0000000000000⟩).encode = .ok (loggingBytes ⟨0x7ff0000000000000⟩) ∧
      (logging ⟨0x7ff0000000000000⟩).toJson?.bind (Snapshot.ofJson? JsonReader.levels) = none ∧
      (logging ⟨0x3fefffffffffffff⟩).encode = .ok (loggingBytes ⟨0x3fefffffffffffff⟩) ∧
      (logging ⟨0x3ff0000000000000⟩).encode = .ok (loggingBytes ⟨0x3ff0000000000000⟩) ∧
      (logging ⟨0x3fefffffffffffff⟩).toJson?.bind (Snapshot.ofJson? JsonReader.levels) =
        some (logging ⟨0x3ff0000000000000⟩) := by
  decide +kernel

theorem length_loggingBytes (x : Binary64) : (loggingBytes x).length < UInt64.size := by
  simp only [loggingBytes, List.length_append, Bytes.length_ofNat, List.length_cons,
    List.length_nil]
  decide

/-- Infinity is written as `null`, which is not read as a number, and the greatest number below one
is written as `0.9999999999999999` and read as one. -/
theorem infinity_does_not_survive :
    (∃ f₁, (bytesFolder (loggingBytes ⟨0x7ff0000000000000⟩)).perform
        (respond 0 ["decode", "g.bin", "g.json"]) =
        (success (wroteText "g.json" (logging ⟨0x7ff0000000000000⟩)), f₁) ∧
      f₁.perform (respond 0 ["encode", "g.json", "h.bin"]) =
        (failure (GraphError.codec .readJson).message, f₁)) ∧
    ∃ f₁ f₂, (bytesFolder (loggingBytes ⟨0x3fefffffffffffff⟩)).perform
        (respond 0 ["decode", "g.bin", "g.json"]) =
        (success (wroteText "g.json" (logging ⟨0x3fefffffffffffff⟩)), f₁) ∧
      f₁.perform (respond 0 ["encode", "g.json", "h.bin"]) =
        (success (wroteText "h.bin" (logging ⟨0x3ff0000000000000⟩)), f₂) ∧
      f₂.snapshotAt "h.bin" = .ok (logging ⟨0x3ff0000000000000⟩) := by
  obtain ⟨hinfinity, hunread, hbelow, hone, hneighbour⟩ := logging_read_written
  constructor
  · obtain ⟨text, f₁, -, htext, hfile, hdecoded⟩ :=
      perform_decode_bytesFolder hinfinity (length_loggingBytes _)
    refine ⟨f₁, hdecoded, ?_⟩
    rw [Folder.perform_respond parse_encode]
    exact Folder.answer_encode_unread hfile
      (by rw [Snapshot.ofJsonText_of_jsonText htext, hunread]; rfl)
  · obtain ⟨text, f₁, -, htext, hfile, hdecoded⟩ :=
      perform_decode_bytesFolder hbelow (length_loggingBytes _)
    obtain ⟨f₂, -, hkept, hencoded⟩ :=
      perform_encode_text hfile htext hneighbour hone (length_loggingBytes _)
    exact ⟨f₁, f₂, hdecoded, hencoded, hkept⟩

end Command

end EffectGraph
