import EffectGraph.Command.Script

/-!
# Files in a folder

One script after another (`Folder.perform_bind`), and what a written file does to the files that are
read later: it is read back itself (`Folder.read_write`), and a file is as before if its path ends
otherwise (`Folder.read_write_of_endsWith`). Two paths can lead to one file, as `./b` and `b` do,
but then the same stands in them after the last slash, so that they agree on every ending without
one.
-/

namespace EffectGraph

/-! ## What stands after the last slash -/

namespace Folder

/-- What stands after the last slash of a path. -/
def lastPart? (path : List Char) : Option (List Char) := (path.splitOn '/').getLast?

theorem lastPart?_of_notMem {name : List Char} (h : '/' ∉ name) : lastPart? name = some name := by
  rw [lastPart?, List.splitOn_eq_singleton h, List.getLast?_singleton]

theorem lastPart?_append {name : List Char} (h : '/' ∉ name) (before : List Char) :
    lastPart? (before ++ '/' :: name) = some name := by
  rw [lastPart?, List.splitOn_append_cons_self, List.splitOn_eq_singleton h,
    List.getLast?_append, List.getLast?_singleton, Option.some_or]

/-- A path is all one name, or it has a last slash. -/
theorem lastPart?_cases (path : List Char) :
    ∃ name, '/' ∉ name ∧ (path = name ∨ ∃ before, path = before ++ '/' :: name) := by
  induction path with
  | nil => exact ⟨[], by simp, .inl rfl⟩
  | cons c path ih =>
    obtain ⟨name, hname, rfl | ⟨before, rfl⟩⟩ := ih
    · by_cases hc : c = '/'
      · exact ⟨path, hname, .inr ⟨[], by simp [hc]⟩⟩
      · exact ⟨c :: path, by simp [hname, Ne.symm hc], .inl rfl⟩
    · exact ⟨name, hname, .inr ⟨c :: before, rfl⟩⟩

/-- An ending without a slash belongs to what stands after the last slash. -/
theorem suffix_iff_of_lastPart? {path name ending : List Char} (h : lastPart? path = some name)
    (hending : '/' ∉ ending) : ending <:+ path ↔ ending <:+ name := by
  obtain ⟨name', hname', rfl | ⟨before, rfl⟩⟩ := lastPart?_cases path
  · rw [lastPart?_of_notMem hname', Option.some.injEq] at h
    rw [h]
  · rw [lastPart?_append hname', Option.some.injEq] at h
    subst h
    refine ⟨fun hsuffix => ?_, fun hsuffix => hsuffix.trans ⟨before ++ ['/'], by simp⟩⟩
    rcases List.suffix_or_suffix_of_suffix hsuffix (List.suffix_append before _) with hle | hge
    · rcases List.suffix_cons_iff.1 hle with rfl | hle
      · exact absurd List.mem_cons_self hending
      · exact hle
    · exact absurd (hge.subset List.mem_cons_self) hending

theorem endsWith_iff {path ending : String} :
    path.endsWith ending = true ↔ ending.toList <:+ path.toList := by
  rw [String.endsWith_eq_endsWith_toSlice, String.Slice.endsWith_string_iff, String.copy_toSlice]

variable {f f₁ : Folder}

/-! ## Carrying out scripts -/

/-- A script after another is carried out in the folder that the other leaves. -/
theorem perform_bind {α β : Type} (s : Script α) (next : α → Script β) (f : Folder) :
    perform (s.bind next) f = perform (next (perform s f).1) (perform s f).2 := by
  induction s generalizing f with
  | done a => rfl
  | read path next' ih => exact ih _ _
  | write path content next' ih =>
    simp only [Script.bind, perform]
    cases f.write path content with
    | ok after => exact ih _ _
    | error e => exact ih _ _

/-! ## Where a path leads -/

/-- The files decide only why a path leads nowhere. -/
theorem follow_eq_ok {base : String} {names : List String} {target : Target}
    (h : f.follow base names = .ok target) : f₁.follow base names = .ok target := by
  induction names generalizing base with
  | nil => exact h
  | cons name rest ih =>
    unfold follow at h ⊢
    split at h
    next hdot => exact (if_pos hdot).trans (ih h)
    next hdot =>
      rw [if_neg hdot]
      split at h
      next hup => exact (if_pos hup).trans (ih h)
      next hup =>
        rw [if_neg hup]
        split at h
        next hlast => exact (if_pos hlast).trans h
        next hlast => split at h <;> simp at h

theorem locate_eq_ok {path : String} {target : Target} (h : f.locate path = .ok target) :
    f₁.locate path = .ok target := by
  unfold locate at h ⊢
  split at h
  · simp at h
  · split at h
    · simp at h
    next hempty hlong =>
      rw [if_neg hempty, if_neg hlong]
      exact follow_eq_ok h

/-- The paths to folders from which names are looked up. -/
def IsBase (base : String) : Prop := base = "" ∨ ∃ before, base.toList = before ++ ['/']

theorem isBase_outOf {base : String} (h : IsBase base) : IsBase (outOf base) := by
  unfold outOf
  split
  · exact h
  · exact .inr ⟨base.toList ++ ['.', '.'], by simp⟩

/-- A path leads to the last of its names, in some folder. -/
theorem follow_eq_file {start base name : String} {names : List String} (hstart : IsBase start)
    (h : f.follow start names = .ok (.file base name)) :
    IsBase base ∧ names.getLast? = some name := by
  induction names generalizing start with
  | nil => simp [follow] at h
  | cons first rest ih =>
    unfold follow at h
    have hcons (hrest : rest.getLast? = some name) : (first :: rest).getLast? = some name := by
      simp [List.getLast?_cons, hrest]
    split at h
    · exact (ih hstart h).imp_right hcons
    · split at h
      · exact (ih (isBase_outOf hstart) h).imp_right hcons
      · split at h
        next hlast =>
          obtain rfl := List.isEmpty_iff.1 hlast
          simp only [Except.ok.injEq, Target.file.injEq] at h
          obtain ⟨rfl, rfl⟩ := h
          exact ⟨hstart, rfl⟩
        · split at h <;> simp at h

/-- What stands after the last slash is the last name of a path, unless it is empty. -/
theorem getLast?_parts {path : String} {last : List Char} (h : lastPart? path.toList = some last)
    (hne : last ≠ []) : (parts path).getLast? = some (String.ofList last) := by
  obtain ⟨before, hsplit⟩ := List.getLast?_eq_some_iff.1 h
  have hne : String.ofList last ≠ "" := by simpa [← String.toList_inj] using hne
  rw [parts, hsplit, List.map_append, List.filter_append, List.map_singleton,
    List.filter_cons_of_pos (by simpa using hne), List.filter_nil, List.getLast?_append,
    List.getLast?_singleton, Option.some_or]

/-- What stands after the last slash of a path without a slash at its end is the name of the file to
which it leads, and stands there in the shortest path to that file too. -/
theorem lastPart?_of_locate {path base name : String} (hslash : path.endsWith "/" = false)
    (h : f.locate path = .ok (.file base name)) :
    lastPart? path.toList = some name.toList ∧
      lastPart? (base ++ name).toList = some name.toList := by
  have hfollow : f.follow (if path.startsWith "/" then "/" else "") (parts path) =
      .ok (.file base name) := by
    unfold locate at h
    split at h
    · simp at h
    · split at h
      · simp at h
      · exact h
  have hstart : IsBase (if path.startsWith "/" then "/" else "") := by
    split
    · exact .inr ⟨[], rfl⟩
    · exact .inl rfl
  obtain ⟨hbase, hlast⟩ := follow_eq_file hstart hfollow
  obtain ⟨last, hnoslash, hpath⟩ := lastPart?_cases path.toList
  have hsome : lastPart? path.toList = some last := by
    rcases hpath with hpath | ⟨before, hpath⟩ <;> rw [hpath]
    · exact lastPart?_of_notMem hnoslash
    · exact lastPart?_append hnoslash before
  have hne : last ≠ [] := by
    rintro rfl
    rcases hpath with hpath | ⟨before, hpath⟩
    · simp [parts, hpath] at hlast
    · have hends : path.endsWith "/" = true := endsWith_iff.2 ⟨before, by simp [hpath]⟩
      simp [hslash] at hends
  obtain rfl : last = name.toList := by
    rw [getLast?_parts hsome hne, Option.some.injEq] at hlast
    rw [← hlast, String.toList_ofList]
  refine ⟨hsome, ?_⟩
  rw [String.toList_append]
  rcases hbase with rfl | ⟨before, hbefore⟩
  · exact lastPart?_of_notMem hnoslash
  · rw [hbefore, List.append_assoc]
    exact lastPart?_append hnoslash before

/-! ## Reading and writing -/

/-- The shortest path to the file to which a path leads, if a file can be read and written there. -/
def fileOf? (path : String) : Option String :=
  match locate .empty path with
  | .ok (.file base name) =>
    if path.endsWith "/" ∨ maxNameSize < name.utf8ByteSize then none else some (base ++ name)
  | _ => none

theorem fileOf?_eq_some (f : Folder) {path file : String} :
    fileOf? path = some file ↔
      ∃ base name, f.locate path = .ok (.file base name) ∧ path.endsWith "/" = false ∧
        name.utf8ByteSize ≤ maxNameSize ∧ base ++ name = file := by
  constructor
  · intro h
    unfold fileOf? at h
    split at h
    next base name hlocate =>
      split at h
      · simp at h
      next hok =>
        rw [not_or, Bool.not_eq_true, Nat.not_lt] at hok
        exact ⟨base, name, locate_eq_ok hlocate, hok.1, hok.2, Option.some.inj h⟩
    next => simp at h
  · rintro ⟨base, name, hlocate, hslash, hshort, rfl⟩
    have hlocate : locate .empty path = .ok (.file base name) := locate_eq_ok hlocate
    simp [fileOf?, hlocate, hslash, Nat.not_lt.2 hshort]

/-- Whether a path is the name of a file in the folder in which commands are carried out. -/
def IsName (path : String) : Prop :=
  '/' ∉ path.toList ∧ path ≠ "" ∧ path ≠ "." ∧ path ≠ ".." ∧ path.utf8ByteSize ≤ maxNameSize

instance (path : String) : Decidable (IsName path) :=
  inferInstanceAs (Decidable (_ ∧ _ ∧ _ ∧ _ ∧ _))

theorem fileOf?_of_isName {name : String} (h : IsName name) : fileOf? name = some name := by
  obtain ⟨hslash, hempty, hdot, hup, hshort⟩ := h
  have hparts : parts name = [name] := by
    simp [parts, List.splitOn_eq_singleton hslash, hempty]
  have hends : name.endsWith "/" = false :=
    Bool.eq_false_iff.2 fun hends => hslash ((endsWith_iff.1 hends).subset (by decide))
  have hstarts : name.startsWith "/" = false := by
    rw [Bool.eq_false_iff, Ne, String.startsWith_string_iff]
    exact fun hstarts => hslash (hstarts.subset (by decide))
  refine (fileOf?_eq_some .empty).2 ⟨"", name, ?_, hends, hshort, String.empty_append⟩
  have hbound : name.utf8ByteSize ≤ maxPathSize := Nat.le_trans hshort (by decide)
  simp [locate, hempty, Nat.not_lt.2 hbound, hparts, hstarts, follow, hdot, hup]

theorem read_eq_ok {path : String} {content : Bytes} :
    f.read path = .ok content ↔ ∃ file, fileOf? path = some file ∧ f.get? file = some content := by
  constructor
  · intro h
    unfold read at h
    rcases hlocate : f.locate path with e | _ | ⟨base, name⟩ <;>
      simp only [hlocate, bind, Except.bind, reduceCtorEq] at h
    split at h
    · simp at h
    next hshort =>
      rcases hget : f.get? (base ++ name) with _ | content' <;> simp only [hget, reduceCtorEq] at h
      split at h
      · simp at h
      next hslash =>
        obtain rfl := Except.ok.inj h
        exact ⟨base ++ name, (fileOf?_eq_some f).2 ⟨base, name, hlocate, by simpa using hslash,
          Nat.le_of_not_lt hshort, rfl⟩, hget⟩
  · rintro ⟨file, hfile, hget⟩
    obtain ⟨base, name, hlocate, hslash, hshort, rfl⟩ := (fileOf?_eq_some f).1 hfile
    simp [read, hlocate, bind, Except.bind, Nat.not_lt.2 hshort, hget, hslash]

theorem write_eq_ok {path : String} {content : Bytes} :
    f.write path content = .ok f₁ ↔
      ∃ file, fileOf? path = some file ∧ f₁ = f.insert file content := by
  constructor
  · intro h
    unfold write at h
    rcases hlocate : f.locate path with e | _ | ⟨base, name⟩ <;>
      simp only [hlocate, bind, Except.bind, reduceCtorEq] at h
    split at h
    · simp at h
    next hslash =>
      split at h
      · simp at h
      next hshort =>
        obtain rfl := Except.ok.inj h
        exact ⟨base ++ name, (fileOf?_eq_some f).2 ⟨base, name, hlocate, by simpa using hslash,
          Nat.le_of_not_lt hshort, rfl⟩, rfl⟩
  · rintro ⟨file, hfile, rfl⟩
    obtain ⟨base, name, hlocate, hslash, hshort, rfl⟩ := (fileOf?_eq_some f).1 hfile
    simp [write, hlocate, bind, Except.bind, Nat.not_lt.2 hshort, hslash]

theorem read_of_isName {name : String} (h : IsName name) {content : Bytes}
    (hget : f.get? name = some content) : f.read name = .ok content :=
  read_eq_ok.2 ⟨name, fileOf?_of_isName h, hget⟩

/-- What was written to a path is read from it. -/
theorem read_write {path : String} {content : Bytes} (h : f.write path content = .ok f₁) :
    f₁.read path = .ok content := by
  obtain ⟨file, hfile, rfl⟩ := write_eq_ok.1 h
  exact read_eq_ok.2 ⟨file, hfile, by simp⟩

/-- A file is as before if its path has an ending that the written path lacks. -/
theorem read_write_of_endsWith {path written ending : String} {content old : Bytes}
    (hending : '/' ∉ ending.toList) (hpath : path.endsWith ending = true)
    (hwritten : written.endsWith ending = false) (hread : f.read path = .ok old)
    (h : f.write written content = .ok f₁) : f₁.read path = .ok old := by
  obtain ⟨file, hfile, hget⟩ := read_eq_ok.1 hread
  obtain ⟨file', hfile', rfl⟩ := write_eq_ok.1 h
  have hne : file ≠ file' := by
    rintro rfl
    obtain ⟨base, name, hlocate, hslash, -, rfl⟩ := (fileOf?_eq_some f).1 hfile
    obtain ⟨base', name', hlocate', hslash', -, heq⟩ := (fileOf?_eq_some f).1 hfile'
    obtain ⟨hlast, hshortest⟩ := lastPart?_of_locate hslash hlocate
    obtain ⟨hlast', hshortest'⟩ := lastPart?_of_locate hslash' hlocate'
    have hname : name'.toList = name.toList := by
      rw [heq, hshortest, Option.some.injEq] at hshortest'
      exact hshortest'.symm
    have hends : written.endsWith ending = true := by
      rw [endsWith_iff, suffix_iff_of_lastPart? hlast' hending, hname,
        ← suffix_iff_of_lastPart? hlast hending, ← endsWith_iff]
      exact hpath
    simp [hwritten] at hends
  exact read_eq_ok.2 ⟨file, hfile, by rw [Table.get?_insert, if_neg hne, hget]⟩

/-- A path that can be written, whatever is written to it. -/
def Writable (f : Folder) (path : String) : Prop := ∀ content, ∃ f₁, f.write path content = .ok f₁

theorem writable_of_write {path : String} {content : Bytes} (h : f.write path content = .ok f₁) :
    f.Writable path := by
  obtain ⟨file, hfile, -⟩ := write_eq_ok.1 h
  exact fun content' => ⟨_, write_eq_ok.2 ⟨file, hfile, rfl⟩⟩

theorem writable_of_isName {name : String} (h : IsName name) : f.Writable name :=
  fun _ => ⟨_, write_eq_ok.2 ⟨name, fileOf?_of_isName h, rfl⟩⟩

end Folder

end EffectGraph
