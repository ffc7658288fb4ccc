import EffectGraph.Command.Run
import EffectGraph.Proofs.Folders
import EffectGraph.Proofs.Varints

/-!
# Commands in a folder

What the steps of a command do in a folder, one lemma for each, and from these what its requests do
(`Folder.answer`). A conversion succeeds or leaves all files as they were
(`Folder.answer_encode_cases`, `Folder.answer_decode_cases`). The answers to what is asked about the
graph of a file depend on the snapshot alone that the file holds (`Folder.answer_alike`).
-/

namespace EffectGraph

open Command

namespace Folder

/-! ## Steps -/

/-- Carries out a step in a folder, after what has been logged so far. -/
def performStep {α : Type} (s : Step α) (log : List LogEntry) (f : Folder) :
    (Except String α × List LogEntry) × Folder :=
  perform (s.run.run log) f

variable {α β : Type} {log : List LogEntry} {f : Folder}

@[simp] theorem performStep_pure (a : α) : performStep (pure a) log f = ((.ok a, log), f) := rfl

@[simp] theorem performStep_stop (reason : String) :
    performStep (stop reason : Step α) log f = ((.error reason, log), f) := rfl

@[simp] theorem performStep_note (entries : List LogEntry) :
    performStep (note entries) log f = ((.ok (), log ++ entries), f) := rfl

/-- A step after another is carried out in the folder that the other leaves, unless that fails. -/
theorem performStep_bind (s : Step α) (next : α → Step β) (log : List LogEntry) (f : Folder) :
    performStep (s >>= next) log f =
      match performStep s log f with
      | ((.ok a, log), after) => performStep (next a) log after
      | ((.error reason, log), after) => ((.error reason, log), after) := by
  have hbind : (s >>= next).run.run log = (s.run.run log).bind fun r =>
      match r with
      | (.ok a, log) => (next a).run.run log
      | (.error reason, log) => .done (.error reason, log) := by
    refine congrArg (s.run.run log).bind (funext fun r => ?_)
    obtain ⟨r | r, log⟩ := r <;> rfl
  rw [performStep, hbind, perform_bind, performStep]
  generalize perform (s.run.run log) f = result
  obtain ⟨⟨r | r, log⟩, after⟩ := result <;> rfl

@[simp] theorem performStep_readBytes (path : String) :
    performStep (readBytes path) log f = ((.ok (f.read path), log), f) := rfl

@[simp] theorem performStep_writeBytes (path : String) (content : Bytes) :
    performStep (writeBytes path content) log f =
      match f.write path content with
      | .ok after => ((.ok (.ok ()), log), after)
      | .error e => ((.ok (.error e), log), f) := by
  have hrun : (writeBytes path content).run.run log =
      .write path content fun r => .done (.ok r, log) := rfl
  rw [performStep, hrun]
  cases hwrite : f.write path content <;> simp [perform, hwrite]

/-! ## Files -/

/-- The text of a file, or why there is none. -/
def textAt (f : Folder) (path : String) : Except String String :=
  match f.read path with
  | .error e => .error ("Failed to read file '" ++ path ++ "': " ++ e.text)
  | .ok content =>
    match String.fromUTF8? content.toByteArray with
    | some s => .ok s
    | none => .error ("Failed to read file '" ++ path ++ "': " ++ notTextReason)

theorem performStep_readText (path : String) :
    performStep (readText path) log f = ((f.textAt path, log), f) := by
  rw [readText, performStep_bind, performStep_readBytes, textAt]
  cases f.read path with
  | error e => rfl
  | ok content =>
    dsimp only
    cases String.fromUTF8? content.toByteArray <;> rfl

/-- The snapshot of a file of bytes, or why there is none. -/
def snapshotAt (f : Folder) (path : String) : Except GraphError Snapshot :=
  match f.read path with
  | .error e => .error (openError path e)
  | .ok content => Snapshot.decode content

theorem performStep_readSnapshot (path : String) :
    performStep (readSnapshot path) log f = ((.ok (f.snapshotAt path), log), f) := by
  rw [readSnapshot, performStep_bind, performStep_readBytes, snapshotAt]
  cases f.read path <;> rfl

/-- A file with the bytes of a text has that text. -/
theorem textAt_of_read {path text : String} (h : f.read path = .ok text.toByteArray.toList) :
    f.textAt path = .ok text := by
  have hutf8 : String.fromUTF8? text.toByteArray = some text := by
    simp [String.fromUTF8?, text.isValidUTF8, String.fromUTF8]
  simp only [textAt, h, ByteReader.toByteArray_toList, hutf8]

theorem textAt_congr {path : String} {f' : Folder} {content : Bytes}
    (h : f.read path = .ok content) (h' : f'.read path = .ok content) :
    f'.textAt path = f.textAt path := by
  simp only [textAt, h, h']

/-- A text comes from a file. -/
theorem read_of_textAt {path text : String} (h : f.textAt path = .ok text) :
    ∃ content, f.read path = .ok content := by
  unfold textAt at h
  split at h
  · simp at h
  next content hread => exact ⟨content, hread⟩

/-! ## Requests -/

/-- Carries out a request to its report. -/
def answer (allowance : Nat) (r : Command.Request) (f : Folder) : Report × Folder :=
  let ((result, log), after) := performStep (carryOut allowance r) [] f
  (conclude log result, after)

theorem perform_respond {allowance : Nat} {args : List String} {r : Command.Request}
    (h : parse args = .request r) : perform (respond allowance args) f = f.answer allowance r := by
  unfold respond answer performStep
  rw [h]
  dsimp only
  rw [perform_bind]
  rfl

theorem answer_encode {allowance : Nat} {ds : List String} {input output text : String}
    {s : Snapshot} {content : Bytes} {f₁ : Folder} (htext : f.textAt input = .ok text)
    (hsnapshot : Snapshot.ofJsonText text = .ok s) (hcontent : s.encode = .ok content)
    (hwrite : f.write output content = .ok f₁) :
    f.answer allowance ⟨ds, .encode input output⟩ = (success (wroteText output s), f₁) := by
  simp [answer, carryOut, encodeFile, performStep_bind, performStep_readText, htext, hsnapshot,
    hcontent, hwrite]

theorem answer_encode_unread {allowance : Nat} {ds : List String} {input output text : String}
    {e : GraphError} (htext : f.textAt input = .ok text)
    (hsnapshot : Snapshot.ofJsonText text = .error e) :
    f.answer allowance ⟨ds, .encode input output⟩ = (failure e.message, f) := by
  simp [answer, carryOut, encodeFile, performStep_bind, performStep_readText, htext, hsnapshot]

/-- A file is encoded, or the command fails and leaves all files as they were. -/
theorem answer_encode_cases (allowance : Nat) (ds : List String) (input output : String)
    (f : Folder) :
    (∃ reason, f.answer allowance ⟨ds, .encode input output⟩ = (failure reason, f)) ∨
      ∃ text s content f₁, f.textAt input = .ok text ∧ Snapshot.ofJsonText text = .ok s ∧
        s.encode = .ok content ∧ f.write output content = .ok f₁ := by
  simp only [answer, carryOut, encodeFile, performStep_bind, performStep_readText]
  cases htext : f.textAt input with
  | error reason => exact .inl ⟨reason, rfl⟩
  | ok text =>
    dsimp only
    cases hsnapshot : Snapshot.ofJsonText text with
    | error e => exact .inl ⟨e.message, rfl⟩
    | ok s =>
      cases hcontent : s.encode with
      | error e =>
        refine .inl ⟨e.message, ?_⟩
        simp [hcontent]
      | ok content =>
        cases hwrite : f.write output content with
        | error e =>
          refine .inl ⟨(GraphError.codec (.createFile output e.text)).message, ?_⟩
          simp [hcontent, performStep_bind, hwrite]
        | ok f₁ => exact .inr ⟨text, s, content, f₁, rfl, hsnapshot, hcontent, hwrite⟩

/-- What a command has read and written that has encoded a file. -/
theorem exists_of_encoded {allowance : Nat} {ds : List String} {input output : String}
    {report : Report} {f₁ : Folder}
    (h : f.answer allowance ⟨ds, .encode input output⟩ = (report, f₁)) (hcode : report.code = 0) :
    ∃ text s content, f.textAt input = .ok text ∧ Snapshot.ofJsonText text = .ok s ∧
      s.encode = .ok content ∧ f.write output content = .ok f₁ := by
  rcases answer_encode_cases allowance ds input output f with
    ⟨reason, hfailure⟩ | ⟨text, s, content, f', htext, hs, hcontent, hwrite⟩
  · obtain rfl : failure reason = report := congrArg Prod.fst (hfailure.symm.trans h)
    exact absurd hcode (by simp [Command.failure])
  · obtain rfl : f' = f₁ :=
      congrArg Prod.snd ((answer_encode htext hs hcontent hwrite).symm.trans h)
    exact ⟨text, s, content, htext, hs, hcontent, hwrite⟩

theorem answer_decode {allowance : Nat} {ds : List String} {input output text : String}
    {s : Snapshot} {f₁ : Folder} (hsnapshot : f.snapshotAt input = .ok s)
    (htext : s.jsonText = .ok text) (hwrite : f.write output text.toByteArray.toList = .ok f₁) :
    f.answer allowance ⟨ds, .decode input output⟩ = (success (wroteText output s), f₁) := by
  simp [answer, carryOut, decodeFile, performStep_bind, performStep_readSnapshot, hsnapshot,
    htext, hwrite]

/-- A file is decoded, or the command fails and leaves all files as they were. -/
theorem answer_decode_cases (allowance : Nat) (ds : List String) (input output : String)
    (f : Folder) :
    (∃ reason, f.answer allowance ⟨ds, .decode input output⟩ = (failure reason, f)) ∨
      ∃ s text f₁, f.snapshotAt input = .ok s ∧ s.jsonText = .ok text ∧
        f.write output text.toByteArray.toList = .ok f₁ := by
  simp only [answer, carryOut, decodeFile, performStep_bind, performStep_readSnapshot]
  cases hsnapshot : f.snapshotAt input with
  | error e => exact .inl ⟨e.message, rfl⟩
  | ok s =>
    cases htext : s.jsonText with
    | error e =>
      refine .inl ⟨e.message, ?_⟩
      simp [htext]
    | ok text =>
      cases hwrite : f.write output text.toByteArray.toList with
      | error e =>
        refine .inl ⟨"Could not write to file '" ++ output ++ "': " ++ e.text, ?_⟩
        simp [htext, performStep_bind, hwrite]
      | ok f₁ => exact .inr ⟨s, text, f₁, rfl, htext, hwrite⟩

/-- What a command has read and written that has decoded a file. -/
theorem exists_of_decoded {allowance : Nat} {ds : List String} {input output : String}
    {report : Report} {f₁ : Folder}
    (h : f.answer allowance ⟨ds, .decode input output⟩ = (report, f₁)) (hcode : report.code = 0) :
    ∃ s text, f.snapshotAt input = .ok s ∧ s.jsonText = .ok text ∧
      f.write output text.toByteArray.toList = .ok f₁ := by
  rcases answer_decode_cases allowance ds input output f with
    ⟨reason, hfailure⟩ | ⟨s, text, f', hsnapshot, htext, hwrite⟩
  · obtain rfl : failure reason = report := congrArg Prod.fst (hfailure.symm.trans h)
    exact absurd hcode (by simp [Command.failure])
  · obtain rfl : f' = f₁ :=
      congrArg Prod.snd ((answer_decode hsnapshot htext hwrite).symm.trans h)
    exact ⟨s, text, hsnapshot, htext, hwrite⟩

/-! ## Questions about a graph -/

/-- Whether the file of a graph holds a snapshot, in the form that its name says. -/
def Holds (f : Folder) (path : String) (s : Snapshot) : Prop :=
  if path.endsWith ".json" then ∃ text, f.textAt path = .ok text ∧ Snapshot.ofJsonText text = .ok s
  else f.snapshotAt path = .ok s

theorem performStep_loadGraph {path : String} {s : Snapshot} (h : f.Holds path s) (c : Catalog) :
    performStep (loadGraph path c) log f =
      (((s.rebuild c 0 none).mapError fun e =>
          "Failed to rebuild graph '" ++ path ++ "': " ++ e.message,
        log ++ (s.notices c 0 none).map .alias), f) := by
  unfold Holds at h
  unfold loadGraph
  split at h
  next hjson =>
    obtain ⟨text, htext, hs⟩ := h
    rw [if_pos hjson, performStep_bind, performStep_readText, htext]
    dsimp only
    rw [performStep_bind, performStep_pure, hs]
    dsimp only
    cases s.rebuild c 0 none <;> rfl
  next hjson =>
    rw [if_neg hjson, performStep_bind, performStep_readSnapshot, h]
    dsimp only
    cases s.rebuild c 0 none <;> rfl

theorem performStep_loadGraph_undecoded {path : String} {e : GraphError}
    (hname : path.endsWith ".json" = false) (h : f.snapshotAt path = .error e) (c : Catalog) :
    performStep (loadGraph path c) log f =
      ((.error ("Failed to load graph '" ++ path ++ "': " ++ e.message), log), f) := by
  unfold loadGraph
  rw [hname, if_neg Bool.false_ne_true, performStep_bind, performStep_readSnapshot, h]
  rfl

theorem performStep_loadCatalog_nil {c : Catalog} (hc : Catalog.standard = .ok c) :
    performStep (loadCatalog []) log f = ((.ok c, log), f) := by
  rw [loadCatalog, hc]
  rfl

theorem answer_inspect {c : Catalog} (hc : Catalog.standard = .ok c) {path : String} {s : Snapshot}
    {g : Graph Definition} (h : f.Holds path s) (hrebuild : s.rebuild c 0 none = .ok g)
    (allowance : Nat) :
    f.answer allowance ⟨[], .inspect path⟩ =
      (conclude ((s.notices c 0 none).map .alias) (.ok (graphText g)), f) := by
  simp [answer, carryOut, performStep_bind, performStep_loadCatalog_nil hc,
    performStep_loadGraph h, hrebuild, Except.mapError]

/-- A file that is not named as one of JSON is read as bytes, whatever it holds. -/
theorem answer_inspect_undecoded {c : Catalog} (hc : Catalog.standard = .ok c) {path : String}
    {e : GraphError} (hname : path.endsWith ".json" = false) (h : f.snapshotAt path = .error e)
    (allowance : Nat) :
    f.answer allowance ⟨[], .inspect path⟩ =
      (failure ("Failed to load graph '" ++ path ++ "': " ++ e.message), f) := by
  simp [answer, carryOut, performStep_bind, performStep_loadCatalog_nil hc,
    performStep_loadGraph_undecoded hname h]

/-- A step that writes no file. -/
def ReadsOnly (s : Step α) : Prop := ∀ log f, (performStep s log f).2 = f

theorem ReadsOnly.bind {s : Step α} {next : α → Step β} (hs : ReadsOnly s)
    (hnext : ∀ a, ReadsOnly (next a)) : ReadsOnly (s >>= next) := by
  intro log f
  have hs := hs log f
  rw [performStep_bind]
  generalize performStep s log f = result at hs ⊢
  obtain ⟨⟨r | a, log⟩, after⟩ := result
  · exact hs
  · exact (hnext a log after).trans hs

theorem readsOnly_readText (path : String) : ReadsOnly (readText path) := fun log f => by
  rw [performStep_readText]

theorem readsOnly_loadDefinitions (paths : List String) (id : Nat) (c : Catalog) :
    ReadsOnly (loadDefinitions paths id c) := by
  induction paths generalizing id c with
  | nil => exact fun log f => rfl
  | cons path paths ih =>
    refine (readsOnly_readText path).bind fun text => ?_
    cases DefinitionRecord.ofJsonText text with
    | error e => exact fun log f => rfl
    | ok r =>
      refine ReadsOnly.bind (fun log f => rfl) fun _ => ?_
      cases r.load c id with
      | error e => exact fun log f => rfl
      | ok loaded => exact ih _ _

theorem readsOnly_loadCatalog (paths : List String) : ReadsOnly (loadCatalog paths) := by
  unfold loadCatalog
  cases Catalog.standard with
  | error e => exact fun log f => rfl
  | ok c => exact readsOnly_loadDefinitions _ _ _

end Folder

namespace Command

/-- What can be asked about a graph. -/
inductive Question where
  /-- What are its nodes, ports and connections? -/
  | inspect
  /-- Which values does a run from a node produce? -/
  | run (node : UInt32) (card buff : Option UInt64) (options : Option String)

/-- The task of asking it about the graph of a file. -/
def Question.task : Question → String → Task
  | inspect, path => .inspect path
  | run node card buff options, path => .run path node card buff options

/-- The answer for a graph that has been loaded. -/
def Question.answer (allowance : Nat) : Question → Graph Definition → Step String
  | inspect, g => pure (graphText g)
  | run node card buff options, g => do
    let o ← loadOptions options
    let e : Environment :=
      { game := .null, card := card.elim .null .card, buff := buff.elim .null .buff,
        event := .null }
    runGraph allowance g ⟨node⟩ e o

theorem carryOut_question (allowance : Nat) (q : Question) (ds : List String) (path : String) :
    carryOut allowance ⟨ds, q.task path⟩ =
      (loadCatalog ds >>= fun c => loadGraph path c >>= q.answer allowance) := by
  cases q <;> rfl

end Command

/-- The same exit code and, however the entries of the log are shown, the same standard output. -/
def Report.Alike (a b : Report) : Prop := a.code = b.code ∧ ∀ line, a.stdout line = b.stdout line

namespace Folder

variable {f : Folder}

/-- Two files of graphs that hold one snapshot have the same answers to all questions, in whatever
forms they hold it. -/
theorem answer_alike {p q : String} {s : Snapshot} (hp : f.Holds p s) (hq : f.Holds q s)
    (allowance : Nat) (question : Question) (ds : List String) :
    (f.answer allowance ⟨ds, question.task p⟩).1.Alike
      (f.answer allowance ⟨ds, question.task q⟩).1 := by
  have hfolder := readsOnly_loadCatalog ds [] f
  unfold answer
  rw [carryOut_question, carryOut_question, performStep_bind, performStep_bind]
  generalize performStep (loadCatalog ds) [] f = result at hfolder ⊢
  obtain ⟨⟨reason | c, log⟩, after⟩ := result
  · exact ⟨rfl, fun line => rfl⟩
  · obtain rfl : after = f := hfolder
    dsimp only
    rw [performStep_bind, performStep_bind, performStep_loadGraph hp, performStep_loadGraph hq]
    cases s.rebuild c 0 none with
    | error e => exact ⟨rfl, fun line => rfl⟩
    | ok g => exact ⟨rfl, fun line => rfl⟩

end Folder

end EffectGraph
