import Mathlib.Data.List.Perm.Basic
import HapAndroid.FileBrowser.FileUtil
import HapAndroid.Platform.JavaFile
import HapAndroid.Platform.JavaString

/-!
# Listings of the file browser

`getFiles` lists a directory and sorts the entries with a `FileComparator`: directories come first,
and then the names decide.  The comparator is a total order on the entries of a directory, so the
order in which the system gives them does not matter (`getFiles_congr`).
-/

namespace HapAndroid.FileBrowser

open FileUtil (Disk)

/-- What a listing holds of a file. -/
structure FileInfo where
  name : Text
  path : Text
  isDirectory : Bool
deriving DecidableEq

/-- `FileComparator.compare`. -/
def compare (file1 file2 : FileInfo) : Int :=
  if file1.isDirectory && !file2.isDirectory then -1000
  else if !file1.isDirectory && file2.isDirectory then 1000
  else compareTo file1.name file2.name

def le (file1 file2 : FileInfo) : Bool := decide (compare file1 file2 ≤ 0)

/-- `Collections.sort` with the comparator. -/
def sort (files : List FileInfo) : List FileInfo := files.mergeSort le

/-- An entry of a listing. -/
def fileInfo (fs : Files) (f : JavaFile) : FileInfo := ⟨f.getName, f.getPath, f.isDirectory fs⟩

variable (disk : Disk)

/-- `f.listFiles()`. -/
def listFiles (fs : Files) (f : JavaFile) : Option (List JavaFile) :=
  (f.lookup fs).bind fun p =>
    if fs.isDir p && disk.list p then
      some ((fs.children p).map fun c => f.child (c.getLast?.getD []))
    else none

def getFiles (fs : Files) (path : Text) : Option (List FileInfo) :=
  (listFiles disk fs (.new path)).map fun files => sort (files.map (fileInfo fs))

/-! ## The order -/

theorem compare_swap (a b : FileInfo) : compare b a = -compare a b := by
  rw [compare, compare]
  cases a.isDirectory <;> cases b.isDirectory <;> simp [compareTo_swap a.name b.name]

theorem compare_trans {a b c : FileInfo} (h : compare a b ≤ 0) (h' : compare b c ≤ 0) :
    compare a c ≤ 0 := by
  rw [compare] at h h' ⊢
  cases ha : a.isDirectory <;> cases hb : b.isDirectory <;> cases hc : c.isDirectory <;>
    simp only [ha, hb, hc] at h h' ⊢ <;>
    first
      | exact compareTo_trans h h'
      | (simp at h; done)
      | (simp at h'; done)
      | simp

theorem compare_eq_zero_iff {a b : FileInfo} :
    compare a b = 0 ↔ a.isDirectory = b.isDirectory ∧ a.name = b.name := by
  rw [compare]
  cases a.isDirectory <;> cases b.isDirectory <;> simp [compareTo_eq_zero_iff]

theorem le_trans (a b c : FileInfo) (h : le a b = true) (h' : le b c = true) : le a c = true :=
  decide_eq_true (compare_trans (of_decide_eq_true h) (of_decide_eq_true h'))

theorem le_total (a b : FileInfo) : (le a b || le b a) = true := by
  have hswap := compare_swap a b
  simp only [le, Bool.or_eq_true, decide_eq_true_eq]
  omega

theorem sorted_sort (files : List FileInfo) :
    (sort files).Pairwise fun a b => compare a b ≤ 0 := by
  have hsorted := List.pairwise_mergeSort le_trans le_total files
  exact hsorted.imp fun h => of_decide_eq_true h

theorem perm_sort (files : List FileInfo) : (sort files).Perm files := List.mergeSort_perm _ _

/-- A list is determined by its members and the order. -/
theorem eq_of_sorted {es es' : List FileInfo} (h : es.Pairwise fun a b => compare a b < 0)
    (h' : es'.Pairwise fun a b => compare a b < 0) (hmem : ∀ e, e ∈ es ↔ e ∈ es') : es = es' := by
  have hne : ∀ {a b : FileInfo}, compare a b < 0 → a ≠ b := by
    rintro a b hab rfl
    have hswap := compare_swap a a
    omega
  refine ((List.perm_ext_iff_of_nodup (h.imp hne) (h'.imp hne)).mpr hmem).eq_of_pairwise ?_ h h'
  intro a b _ _ hab hba
  have hswap := compare_swap a b
  omega

/-! ## What is listed -/

variable {disk : Disk} {fs fs' : Files} {path : Text} {es : List FileInfo}

/-- The entry for a name in a directory. -/
def entry (fs : Files) (f : JavaFile) (p : List Text) (n : Text) : FileInfo :=
  ⟨n, (f.child n).getPath, fs.isDir (p ++ [n])⟩

theorem fileInfo_child {f : JavaFile} {p : List Text} {n : Text} (hf : f.lookup fs = some p)
    (hdir : fs.isDir p = true) (hn : PlainName n) :
    fileInfo fs (f.child n) = entry fs f p n := by
  rw [fileInfo, entry, JavaFile.getName_child hn, JavaFile.isDirectory,
    JavaFile.lookup_child hf hdir hn]
  rfl

theorem listFiles_map {f : JavaFile} {p : List Text} (hplain : PlainTree fs)
    (hf : f.lookup fs = some p) (hdir : fs.isDir p = true) :
    ((fs.children p).map fun c => f.child (c.getLast?.getD [])).map (fileInfo fs) =
      (fs.children p).map fun c => entry fs f p (c.getLast?.getD []) := by
  rw [List.map_map]
  refine List.map_congr_left fun c hc => ?_
  obtain ⟨n, rfl, hn⟩ := fs.mem_children.mp hc
  rw [Function.comp_apply, List.getLast?_concat]
  exact fileInfo_child hf hdir (hplain.name hn)

theorem mem_entries {f : JavaFile} {p : List Text} {e : FileInfo} :
    (e ∈ (fs.children p).map fun c => entry fs f p (c.getLast?.getD [])) ↔
      ∃ n, fs.existsAt (p ++ [n]) = true ∧ e = entry fs f p n := by
  constructor
  · intro h
    obtain ⟨c, hc, rfl⟩ := List.mem_map.mp h
    obtain ⟨n, rfl, hn⟩ := fs.mem_children.mp hc
    rw [List.getLast?_concat]
    exact ⟨n, fs.existsAt_iff.mpr hn, rfl⟩
  · rintro ⟨n, hn, rfl⟩
    refine List.mem_map.mpr ⟨p ++ [n], fs.mem_children.mpr ⟨n, rfl, fs.existsAt_iff.mp hn⟩, ?_⟩
    rw [List.getLast?_concat]
    rfl

/-- Two entries of one directory never compare as equal. -/
theorem strict_sort_entries (f : JavaFile) (p : List Text) :
    (sort ((fs.children p).map fun c => entry fs f p (c.getLast?.getD []))).Pairwise
      fun a b => compare a b < 0 := by
  generalize hes : (fs.children p).map (fun c => entry fs f p (c.getLast?.getD [])) = es
  have hnodup : (sort es).Nodup := by
    rw [(perm_sort es).nodup_iff, ← hes]
    refine List.Nodup.map_on (fun c hc c' hc' heq => ?_) (fs.nodup_children p)
    obtain ⟨n, rfl, -⟩ := fs.mem_children.mp hc
    obtain ⟨n', rfl, -⟩ := fs.mem_children.mp hc'
    rw [List.getLast?_concat, List.getLast?_concat] at heq
    exact congrArg (p ++ [·]) (congrArg FileInfo.name heq)
  refine ((sorted_sort es).and hnodup).imp_of_mem fun ha hb ⟨hle, hne⟩ => ?_
  refine Int.lt_iff_le_and_ne.mpr ⟨hle, fun hzero => hne ?_⟩
  have hmem : ∀ {e}, e ∈ sort es → ∃ n, fs.existsAt (p ++ [n]) = true ∧ e = entry fs f p n :=
    fun he => mem_entries.mp (hes ▸ (perm_sort es).mem_iff.mp he)
  obtain ⟨n, -, rfl⟩ := hmem ha
  obtain ⟨m, -, rfl⟩ := hmem hb
  exact congrArg (entry fs f p) (compare_eq_zero_iff.mp hzero).2

/-- A listing is the list of the entries of its directory, each once, in the order of the
comparator. -/
theorem getFiles_eq_some_iff (hplain : PlainTree fs) :
    getFiles disk fs path = some es ↔
      ∃ p, (JavaFile.new path).lookup fs = some p ∧ fs.isDir p = true ∧ disk.list p = true ∧
        es.Pairwise (fun a b => compare a b < 0) ∧
        ∀ e, e ∈ es ↔ ∃ n, fs.existsAt (p ++ [n]) = true ∧ e = entry fs (.new path) p n := by
  constructor
  · intro h
    obtain ⟨files, hfiles, rfl⟩ := Option.map_eq_some_iff.mp h
    obtain ⟨p, hp, hlist⟩ := Option.bind_eq_some_iff.mp hfiles
    split at hlist
    · next hdir =>
      obtain ⟨hdir, hread⟩ := Bool.and_eq_true_iff.mp hdir
      rw [Option.some.injEq] at hlist
      subst hlist
      rw [listFiles_map hplain hp hdir]
      refine ⟨p, hp, hdir, hread, strict_sort_entries _ p, fun e => ?_⟩
      rw [(perm_sort _).mem_iff, mem_entries]
    · cases hlist
  · rintro ⟨p, hp, hdir, hread, hsorted, hmem⟩
    refine Option.map_eq_some_iff.mpr ⟨_, Option.bind_eq_some_iff.mpr ⟨p, hp, if_pos ?_⟩, ?_⟩
    · rw [hdir, hread]
      rfl
    · rw [listFiles_map hplain hp hdir]
      refine eq_of_sorted (strict_sort_entries _ p) hsorted fun e => ?_
      rw [(perm_sort _).mem_iff, mem_entries, hmem]

end HapAndroid.FileBrowser
