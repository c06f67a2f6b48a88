import HapAndroid.Platform.Files

/-!
# `FileTool`

The file helpers every other class uses.  `readSDFile` has no error result: a
file that cannot be opened is reported by a text of the same type as the
contents, the path name and the exception.  `writeSDFile` has a flag, which its
callers mostly drop, and leaves a shortened file behind when the write breaks
off.

The lemmas are one pair per operation: what a success says about its own path,
and that no other path changes.
-/

namespace HapAndroid.FileTool

/-! ## Reading -/

/-- The name by which a caller can recognise the exception. -/
def exceptionName : Text := "FileNotFoundException"

/-- The `toString()` of the exception for a file that cannot be opened. -/
def fileNotFound (fileName errno : Text) : Text :=
  ("java.io." : Text) ++ exceptionName ++
    ((": " : Text) ++ fileName ++ (": open failed: " : Text) ++ errno)

/-- The text `readSDFile` returns in place of the contents. -/
def errorText (fileName errno : Text) : Text :=
  '\n' :: fileName ++ ':' :: fileNotFound fileName errno

/-- Read a file as UTF-8. -/
def readSDFile (fs : Files) (fileName : Text) : Text :=
  match fs.node (toPath fs fileName) with
  | some (.file data) => Utf8.decode data
  | none => errorText fileName "ENOENT (No such file or directory)"
  | some .dir => errorText fileName "EISDIR (Is a directory)"
  | some .locked => errorText fileName "EACCES (Permission denied)"

/-- Whether a file can be opened for reading. -/
def readable (fs : Files) (fileName : Text) : Bool := (fs.readFile (toPath fs fileName)).isSome

theorem readSDFile_of_node {fs : Files} {fileName : Text} {data : List UInt8}
    (h : fs.node (toPath fs fileName) = some (.file data)) :
    readSDFile fs fileName = Utf8.decode data := by
  rw [readSDFile, h]

theorem readable_iff {fs : Files} {fileName : Text} :
    readable fs fileName = true ↔ ∃ data, fs.node (toPath fs fileName) = some (.file data) := by
  rw [readable, Option.isSome_iff_exists]
  simp only [FileTree.readFile_eq_some]

/-- Open a file for writing and write some bytes.  The flag says whether all
of them were written. -/
def writeBytes (st : Storage) (data : List UInt8) (fileName : Text) (fs : Files) :
    Bool × Files :=
  match st.write (toPath fs fileName) with
  | .refused => (false, fs)
  | .done =>
      match fs.writeFile (toPath fs fileName) data with
      | some fs' => (true, fs')
      | none => (false, fs)
  | .cut n => (false, (fs.writeFile (toPath fs fileName) (data.take n)).getD fs)

/-- `new FileOutputStream(fileName)`: an empty file, or `none` for an exception. -/
def openWrite (st : Storage) (fileName : Text) (fs : Files) : Option Files :=
  match st.write (toPath fs fileName) with
  | .refused => none
  | _ => fs.writeFile (toPath fs fileName) []

/-- Write a text, in UTF-8. -/
def writeSDFile (st : Storage) (str fileName : Text) (fs : Files) : Bool × Files :=
  writeBytes st (Utf8.encode str) fileName fs

/-- Copy a file.  A `false` is an exception.  The target is opened, and so
emptied, before the source is read: a file that is copied onto itself is empty
afterwards. -/
def copyFile (st : Storage) (fromFile toFile : Text) (fs : Files) : Bool × Files :=
  match fs.readFile (toPath fs fromFile) with
  | some data =>
      writeBytes st (if toPath fs fromFile = toPath fs toFile then [] else data) toFile fs
  | none => (false, fs)

theorem node_openWrite_of_ne {st : Storage} {fileName : Text} {fs fs' : Files}
    (h : openWrite st fileName fs = some fs') {q : List Text} (hq : q ≠ toPath fs fileName) :
    fs'.node q = fs.node q := by
  rw [openWrite] at h
  split at h
  · cases h
  · rw [fs.node_writeFile h, if_neg hq]

theorem writeBytes_true {st : Storage} {data : List UInt8} {fileName : Text} {fs : Files}
    (h : (writeBytes st data fileName fs).1 = true) :
    fs.writeFile (toPath fs fileName) data = some (writeBytes st data fileName fs).2 := by
  unfold writeBytes at h ⊢
  split at h
  · cases h
  · split at h
    · next heq => simp [heq]
    · cases h
  · cases h

/-- Nothing is written to a dead path. -/
theorem writeBytes_dead {st : Storage} {data : List UInt8} {fileName : Text} {fs : Files}
    (h : Dead fs (toPath fs fileName)) : writeBytes st data fileName fs = (false, fs) := by
  simp only [writeBytes, fs.writeFile_eq_none _ h.node.2, Option.getD_none]
  split <;> rfl

/-- A completed write leaves the bytes in the file. -/
theorem node_writeBytes_self {st : Storage} {data : List UInt8} {fileName : Text} {fs : Files}
    (h : (writeBytes st data fileName fs).1 = true) :
    (writeBytes st data fileName fs).2.node (toPath fs fileName) = some (.file data) := by
  rw [fs.node_writeFile (writeBytes_true h), if_pos rfl]

/-- A write, completed or not, changes no other path. -/
theorem node_writeBytes_of_ne (st : Storage) (data : List UInt8) {fileName : Text} (fs : Files)
    {q : List Text} (hq : q ≠ toPath fs fileName) :
    (writeBytes st data fileName fs).2.node q = fs.node q := by
  unfold writeBytes
  split
  · rfl
  · split
    · next fs' hfs => rw [fs.node_writeFile hfs, if_neg hq]
    · rfl
  · next n _ =>
    cases hfs : fs.writeFile (toPath fs fileName) (data.take n) with
    | none => rfl
    | some fs' => exact (fs.node_writeFile hfs q).trans (if_neg hq)

/-- A write makes no directory and removes none. -/
theorem dir_writeBytes_iff (st : Storage) (data : List UInt8) (fileName : Text) (fs : Files)
    (q : List Text) :
    (writeBytes st data fileName fs).2.node q = some .dir ↔ fs.node q = some .dir := by
  have hwrite : ∀ {bytes : List UInt8} {fs' : Files},
      fs.writeFile (toPath fs fileName) bytes = some fs' →
        (fs'.node q = some .dir ↔ fs.node q = some .dir) := by
    intro bytes fs' hfs
    rw [fs.node_writeFile hfs]
    split
    · next h => simp [h, fs.not_dir_of_writeFile hfs]
    · rfl
  unfold writeBytes
  split
  · rfl
  · split
    · next fs' hfs => exact hwrite hfs
    · rfl
  · next n _ =>
    cases hfs : fs.writeFile (toPath fs fileName) (data.take n) with
    | none => rfl
    | some fs' => exact hwrite hfs

/-- A write changes no path name. -/
@[simp] theorem toPath_writeBytes (st : Storage) (data : List UInt8) (fileName : Text) (fs : Files)
    (s : Text) : toPath (writeBytes st data fileName fs).2 s = toPath fs s :=
  toPath_congr (dir_writeBytes_iff st data fileName fs) s

@[simp] theorem toPath_writeSDFile (st : Storage) (str fileName : Text) (fs : Files) (s : Text) :
    toPath (writeSDFile st str fileName fs).2 s = toPath fs s :=
  toPath_writeBytes st _ fileName fs s

/-- What was written can be read. -/
theorem readSDFile_writeSDFile {st : Storage} {str fileName : Text} {fs : Files}
    (h : (writeSDFile st str fileName fs).1 = true) :
    readSDFile (writeSDFile st str fileName fs).2 fileName = str := by
  have hnode : (writeSDFile st str fileName fs).2.node
      (toPath (writeSDFile st str fileName fs).2 fileName) = some (.file (Utf8.encode str)) := by
    rw [toPath_writeSDFile]
    exact node_writeBytes_self h
  rw [readSDFile_of_node hnode, Utf8.decode_encode]

theorem toPath_openWrite {st : Storage} {fileName : Text} {fs fs' : Files}
    (h : openWrite st fileName fs = some fs') (s : Text) : toPath fs' s = toPath fs s := by
  rw [openWrite] at h
  split at h
  · cases h
  · refine toPath_congr (fun q => ?_) s
    rw [fs.node_writeFile h]
    split
    · next hq => simp [hq, fs.not_dir_of_writeFile h]
    · rfl

/-- Writing removes nothing. -/
theorem node_writeBytes_ne_none (st : Storage) (data : List UInt8) (fileName : Text) (fs : Files)
    {q : List Text} (hq : fs.node q ≠ none) :
    (writeBytes st data fileName fs).2.node q ≠ none := by
  by_cases hqp : q = toPath fs fileName
  · subst hqp
    unfold writeBytes
    split
    · exact hq
    · split
      · next fs' hfs => rw [fs.node_writeFile hfs, if_pos rfl]; simp
      · exact hq
    · next n _ =>
      cases hfs : fs.writeFile (toPath fs fileName) (data.take n) with
      | none => exact hq
      | some fs' =>
          rw [Option.getD_some, fs.node_writeFile hfs, if_pos rfl]
          simp
  · rw [node_writeBytes_of_ne st data fs hqp]
    exact hq

@[simp] theorem toPath_copyFile (st : Storage) (fromFile toFile : Text) (fs : Files) (s : Text) :
    toPath (copyFile st fromFile toFile fs).2 s = toPath fs s := by
  rw [copyFile]
  split
  · exact toPath_writeBytes ..
  · rfl

/-- Copying removes nothing. -/
theorem node_copyFile_ne_none (st : Storage) (fromFile toFile : Text) (fs : Files)
    {q : List Text} (hq : fs.node q ≠ none) :
    (copyFile st fromFile toFile fs).2.node q ≠ none := by
  rw [copyFile]
  split
  · exact node_writeBytes_ne_none st _ _ fs hq
  · exact hq

/-- A completed copy leaves a file. -/
theorem node_copyFile_self {st : Storage} {fromFile toFile : Text} {fs : Files}
    (h : (copyFile st fromFile toFile fs).1 = true) :
    (copyFile st fromFile toFile fs).2.node (toPath fs toFile) ≠ none := by
  rw [copyFile] at h ⊢
  split at h
  · next data hdata =>
    rw [node_writeBytes_self h]
    simp
  · cases h

/-- In a directory, a storage that refuses nothing writes any file that is not
a directory or locked. -/
theorem writeBytes_sound {fs : Files} {fileName : Text} (data : List UInt8)
    (hne : toPath fs fileName ≠ []) (hpar : fs.node (toPath fs fileName).dropLast = some .dir)
    (hfree : ∀ x, fs.node (toPath fs fileName) = some x → ∃ d, x = .file d) :
    (writeBytes .sound data fileName fs).1 = true := by
  obtain ⟨fs', hfs⟩ := fs.writeFile_isSome data hne hpar hfree
  simp [writeBytes, Storage.sound, hfs]

theorem node_writeSDFile_sound {fs : Files} {fileName : Text} (str : Text)
    (hne : toPath fs fileName ≠ []) (hpar : fs.node (toPath fs fileName).dropLast = some .dir)
    (hfree : fs.node (toPath fs fileName) = none) (q : List Text) :
    (writeSDFile .sound str fileName fs).2.node q =
      if q = toPath fs fileName then some (.file (Utf8.encode str)) else fs.node q := by
  have htrue := writeBytes_sound (Utf8.encode str) hne hpar fun x hx => by
    rw [hfree] at hx
    cases hx
  exact fs.node_writeFile (writeBytes_true htrue) q

/-! ## Deleting -/

/-- `f.delete()` for an entry of a directory.  The entry is found through the
path name of the directory. -/
def deleteEntry (fileName : Text) (fs : Files) (f : List Text) : Files :=
  if isDirectory fs fileName then (fs.delete f).getD fs else fs

/-- The files after the entries of a directory were deleted, those that can be
removed. -/
def emptied (fs : Files) (fileName : Text) : Files :=
  if isDirectory fs fileName then
    (fs.children (toPath fs fileName)).foldl (deleteEntry fileName) fs
  else fs

/-- Delete a file, or a directory with its entries. -/
def deleteSDFile (fs : Files) (fileName : Text) : Bool × Files :=
  if fileExists fs fileName then deleteFile (emptied fs fileName) fileName else (false, fs)

theorem node_deleteEntry_of_ne {fileName : Text} {fs : Files} {f q : List Text} (hq : q ≠ f) :
    (deleteEntry fileName fs f).node q = fs.node q := by
  rw [deleteEntry]
  split
  · cases hd : fs.delete f with
    | none => rfl
    | some fs' => rw [Option.getD_some, fs.node_delete hd, if_neg hq]
  · rfl

theorem dir_of_deleteEntry {fileName : Text} {fs : Files} {f q : List Text}
    (h : (deleteEntry fileName fs f).node q = some .dir) : fs.node q = some .dir := by
  rw [deleteEntry] at h
  split at h
  · cases hd : fs.delete f with
    | none => rwa [hd, Option.getD_none] at h
    | some fs' =>
        rw [hd, Option.getD_some, fs.node_delete hd] at h
        split at h
        · cases h
        · exact h
  · exact h

theorem node_foldl_deleteEntry {fileName : Text} (l : List (List Text)) {q : List Text}
    (hq : q ∉ l) (fs : Files) : (l.foldl (deleteEntry fileName) fs).node q = fs.node q := by
  induction l generalizing fs with
  | nil => rfl
  | cons f l ih =>
      rw [List.foldl_cons, ih (fun h => hq (List.mem_cons_of_mem _ h)), node_deleteEntry_of_ne]
      rintro rfl
      exact hq (List.mem_cons_self ..)

theorem dir_of_foldl_deleteEntry {fileName : Text} (l : List (List Text)) {q : List Text}
    (fs : Files) (h : (l.foldl (deleteEntry fileName) fs).node q = some .dir) :
    fs.node q = some .dir := by
  induction l generalizing fs with
  | nil => exact h
  | cons f l ih => exact dir_of_deleteEntry (ih _ h)

theorem dir_of_emptied {fs : Files} {fileName : Text} {q : List Text}
    (h : (emptied fs fileName).node q = some .dir) : fs.node q = some .dir := by
  rw [emptied] at h
  split at h
  · exact dir_of_foldl_deleteEntry _ fs h
  · exact h

theorem node_emptied {fs : Files} {fileName : Text} {q : List Text}
    (hchild : ∀ n, q ≠ toPath fs fileName ++ [n]) : (emptied fs fileName).node q = fs.node q := by
  rw [emptied]
  split
  · refine node_foldl_deleteEntry _ (fun hmem => ?_) fs
    obtain ⟨n, hn, -⟩ := fs.mem_children.mp hmem
    exact hchild n hn
  · rfl

/-- After the entries are deleted, a path name stands for the same path or is dead. -/
theorem toPath_emptied (fs : Files) (fileName s : Text) :
    toPath (emptied fs fileName) s = toPath fs s ∨
      Dead (emptied fs fileName) (toPath (emptied fs fileName) s) :=
  toPath_of_fewer (fun _ => dir_of_emptied) s

/-- A path name under which something is left stands for the same path. -/
theorem toPath_emptied_of_exists {fs : Files} {fileName s : Text}
    (h : fileExists (emptied fs fileName) s = true) :
    toPath (emptied fs fileName) s = toPath fs s :=
  (toPath_emptied fs fileName s).resolve_right fun hdead =>
    (FileTree.existsAt_iff _).mp h hdead.node.1

/-- Deleting touches the path and the entries directly below it. -/
theorem node_deleteSDFile_of_ne {fs : Files} {fileName : Text} {q : List Text}
    (hq : q ≠ toPath fs fileName) (hchild : ∀ n, q ≠ toPath fs fileName ++ [n]) :
    (deleteSDFile fs fileName).2.node q = fs.node q := by
  rw [deleteSDFile]
  split
  · rcases toPath_emptied fs fileName fileName with hsame | hdead
    · rw [node_deleteFile_of_ne (by rwa [hsame]), node_emptied hchild]
    · rw [deleteFile_dead hdead, node_emptied hchild]
  · rfl

end HapAndroid.FileTool
