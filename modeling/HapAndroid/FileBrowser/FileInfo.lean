import HapAndroid.FileBrowser.FileUtil
import HapAndroid.Lib.Below

/-!
# `getFileInfo`

The properties dialog of the file browser counts the files and folders below a directory
and adds up the lengths of the files.  The walk gives up once it has counted 10000: the
loop that gets there breaks, and each of the loops it was called from counts one entry
more before it breaks too.

`calcFileContent_spec` says what a call adds to the counts, in the three situations a loop
can be in: the rest fits under the limit, it does not, or the limit was reached before.
The calls are bounded by a stack as in `FileUtil`, and `getFileInfo_reported` shows that a
stack as deep as the tree is enough.
-/

namespace HapAndroid.FileUtil

/-- What is reported of a file.  A `long` holds the size.  The counts are `int`s in the source and
do not wrap: together they stay within 10000 and the number of loops that are open
(`Reported.cut`), and no stack holds 2^31 of those. -/
structure FileInfo where
  name : Text
  isDirectory : Bool
  size : Int64
  fileCount : Nat
  folderCount : Nat
deriving DecidableEq

/-- A new report, with its first two fields set. -/
def FileInfo.start (name : Text) (isDirectory : Bool) : FileInfo := ⟨name, isDirectory, 0, 0, 0⟩

section model
variable (disk : Disk) (lockedLength : List Text → Nat) (fs : Files)

/-- `f.length()` of a file.  The length of a file that may not be opened is known too. -/
def fileLength (f : List Text) : Nat :=
  match fs.node f with
  | some (.file data) => data.length
  | some .locked => lockedLength f
  | _ => 0

/-- Count an entry that was listed. -/
def countEntry (tmp : List Text) (info : FileInfo) : FileInfo :=
  if fs.isDir tmp then { info with folderCount := info.folderCount + 1 }
  else { info with fileCount := info.fileCount + 1 }

/-- The loop of `calcFileContent`, with the recursive call. -/
def eachEntry (visit : FileInfo → List Text → Option FileInfo) :
    List (List Text) → FileInfo → Option FileInfo
  | [], info => some info
  | tmp :: files, info =>
      let info := countEntry fs tmp info
      if info.fileCount + info.folderCount ≥ 10000 then some info
      else
        match visit info tmp with
        | none => none
        | some info => eachEntry visit files info

/-- `calcFileContent` with a stack of the given depth.  A `none` is a call too deep. -/
def calcFileContent : Nat → FileInfo → List Text → Option FileInfo
  | 0, _, _ => none
  | depth + 1, info, f =>
      let info := { info with size := info.size + Int64.ofNat (fileLength lockedLength fs f) }
      if fs.isDir f then
        if disk.list f then eachEntry fs (calcFileContent depth) (fs.children f) info
        else some info
      else some info

def getFileInfo (depth : Nat) (f : List Text) : Option FileInfo :=
  calcFileContent disk lockedLength fs depth (.start (f.getLast?.getD []) (fs.isDir f)) f

/-! ## What should be reported -/

/-- The number of files and folders below a path. -/
def entriesBelow (f : List Text) : Nat := (fs.below f).length

def foldersBelow (f : List Text) : Nat := ((fs.below f).filter fs.isDir).length

def filesBelow (f : List Text) : Nat := ((fs.below f).filter fun q => !fs.isDir q).length

/-- The sum of the lengths of the files below a path. -/
def lengthBelow (f : List Text) : Nat := ((fs.below f).map (fileLength lockedLength fs)).sum

/-- The report on a directory: exact below the limit, and just above it otherwise. -/
structure Reported (f : List Text) (info : FileInfo) : Prop where
  exact : entriesBelow fs f < 10000 →
    info.fileCount = filesBelow fs f ∧ info.folderCount = foldersBelow fs f ∧
      info.size = Int64.ofNat (lengthBelow lockedLength fs f)
  cut : 10000 ≤ entriesBelow fs f →
    10000 ≤ info.fileCount + info.folderCount ∧
      info.fileCount + info.folderCount ≤ 10000 + fs.depthBelow f

end model

/-! ## Sums over the entries -/

section sums
variable (lockedLength : List Text → Nat) (fs : Files)

theorem length_filter_eq_sum {α : Type} (P : α → Bool) (l : List α) :
    (l.filter P).length = (l.map fun a => (P a).toNat).sum := by
  induction l with
  | nil => rfl
  | cons a l ih =>
      rw [List.map_cons, List.sum_cons, ← ih, List.filter_cons]
      cases P a <;> simp [Nat.add_comm]

theorem entriesBelow_eq (f : List Text) :
    entriesBelow fs f = ((fs.children f).map fun c => 1 + entriesBelow fs c).sum := by
  have h := fs.sum_below (fun _ => 1) f
  simpa [entriesBelow] using h

theorem foldersBelow_eq (f : List Text) : foldersBelow fs f =
    ((fs.children f).map fun c => (fs.isDir c).toNat + foldersBelow fs c).sum := by
  simpa only [foldersBelow, length_filter_eq_sum] using
    fs.sum_below (fun q => (fs.isDir q).toNat) f

theorem filesBelow_eq (f : List Text) : filesBelow fs f =
    ((fs.children f).map fun c => (!fs.isDir c).toNat + filesBelow fs c).sum := by
  simpa only [filesBelow, length_filter_eq_sum] using
    fs.sum_below (fun q => (!fs.isDir q).toNat) f

theorem lengthBelow_eq (f : List Text) : lengthBelow lockedLength fs f =
    ((fs.children f).map fun c =>
      fileLength lockedLength fs c + lengthBelow lockedLength fs c).sum :=
  fs.sum_below (fileLength lockedLength fs) f

end sums

/-! ## One call -/

namespace FileInfo

/-- The number that is held against the limit. -/
def count (info : FileInfo) : Nat := info.fileCount + info.folderCount

/-- The report with some files and folders more. -/
def add (info : FileInfo) (files folders length : Nat) : FileInfo :=
  { info with
    size := info.size + Int64.ofNat length
    fileCount := info.fileCount + files
    folderCount := info.folderCount + folders }

theorem add_add (info : FileInfo) (a b c a' b' c' : Nat) :
    (info.add a b c).add a' b' c' = info.add (a + a') (b + b') (c + c') := by
  simp [add, Nat.add_assoc, Int64.ofNat_add, Int64.add_assoc]

theorem count_add (info : FileInfo) (a b c : Nat) :
    (info.add a b c).count = info.count + (a + b) := by
  simp only [add, count]
  omega

end FileInfo

theorem countEntry_eq (fs : Files) (tmp : List Text) (info : FileInfo) :
    countEntry fs tmp info = info.add (!fs.isDir tmp).toNat (fs.isDir tmp).toNat 0 := by
  rw [countEntry]
  cases fs.isDir tmp <;> simp [FileInfo.add]

theorem eachEntry_cons (fs : Files) (visit : FileInfo → List Text → Option FileInfo)
    (tmp : List Text) (files : List (List Text)) (info : FileInfo) :
    eachEntry fs visit (tmp :: files) info =
      if (countEntry fs tmp info).count ≥ 10000 then some (countEntry fs tmp info)
      else (visit (countEntry fs tmp info) tmp).bind (eachEntry fs visit files) := by
  rw [eachEntry]
  cases visit (countEntry fs tmp info) tmp <;> rfl

theorem count_countEntry (fs : Files) (tmp : List Text) (info : FileInfo) :
    (countEntry fs tmp info).count = info.count + 1 := by
  rw [countEntry_eq, FileInfo.count_add]
  cases fs.isDir tmp <;> rfl

section spec
variable {disk : Disk} {lockedLength : List Text → Nat} {fs : Files}

theorem files_add_folders (f : List Text) :
    filesBelow fs f + foldersBelow fs f = entriesBelow fs f := by
  rw [filesBelow, foldersBelow, entriesBelow, length_filter_eq_sum, length_filter_eq_sum]
  induction fs.below f with
  | nil => rfl
  | cons q qs ih =>
      rw [List.map_cons, List.sum_cons, List.map_cons, List.sum_cons, List.length_cons, ← ih]
      cases fs.isDir q <;> simp <;> omega

/-- What a call does to a report under the limit: everything is added if it fits, and
otherwise the limit is passed by less than the levels below. -/
def Visits (lockedLength : List Text → Nat) (fs : Files)
    (visit : FileInfo → List Text → Option FileInfo) (f : List Text) : Prop :=
  ∀ info : FileInfo, info.count < 10000 → ∃ info', visit info f = some info' ∧
    (info.count + entriesBelow fs f < 10000 → info' = info.add (filesBelow fs f)
      (foldersBelow fs f) (fileLength lockedLength fs f + lengthBelow lockedLength fs f)) ∧
    (10000 ≤ info.count + entriesBelow fs f →
      10000 ≤ info'.count ∧ info'.count + 1 ≤ 10000 + fs.depthBelow f)

/-- A loop that starts at the limit counts at most one entry. -/
theorem eachEntry_full (fs : Files) (visit : FileInfo → List Text → Option FileInfo)
    (files : List (List Text)) {info : FileInfo} (hfull : 10000 ≤ info.count) :
    ∃ info', eachEntry fs visit files info = some info' ∧ 10000 ≤ info'.count ∧
      info'.count ≤ info.count + 1 := by
  cases files with
  | nil => exact ⟨info, rfl, hfull, by omega⟩
  | cons tmp files =>
      have hcount := count_countEntry fs tmp info
      refine ⟨countEntry fs tmp info, ?_, by omega, by omega⟩
      rw [eachEntry_cons, if_pos (by omega)]

/-- The loop, when the calls do what they should. -/
theorem eachEntry_spec {visit : FileInfo → List Text → Option FileInfo} {levels : Nat}
    (files : List (List Text)) (hvisit : ∀ c ∈ files, Visits lockedLength fs visit c)
    (hlevels : ∀ c ∈ files, fs.depthBelow c + 1 ≤ levels) (info : FileInfo)
    (hlow : info.count < 10000) :
    ∃ info', eachEntry fs visit files info = some info' ∧
      (info.count + (files.map fun c => 1 + entriesBelow fs c).sum < 10000 →
        info' = info.add (files.map fun c => (!fs.isDir c).toNat + filesBelow fs c).sum
          (files.map fun c => (fs.isDir c).toNat + foldersBelow fs c).sum
          (files.map fun c =>
            fileLength lockedLength fs c + lengthBelow lockedLength fs c).sum) ∧
      (10000 ≤ info.count + (files.map fun c => 1 + entriesBelow fs c).sum →
        10000 ≤ info'.count ∧ info'.count + 1 ≤ 10000 + levels) := by
  induction files generalizing info with
  | nil => exact ⟨info, rfl, fun _ => by simp [FileInfo.add], fun h => by simp at h; omega⟩
  | cons tmp files ih =>
      have htmp := hlevels tmp List.mem_cons_self
      have hentry := countEntry_eq fs tmp info
      have hcount := count_countEntry fs tmp info
      simp only [List.map_cons, List.sum_cons]
      rw [eachEntry_cons]
      by_cases hlimit : (countEntry fs tmp info).count ≥ 10000
      · -- The entry is the ten thousandth.
        refine ⟨countEntry fs tmp info, if_pos hlimit, fun h => by omega, fun _ => by omega⟩
      · obtain ⟨info1, hcall, hexact, hcut⟩ :=
          hvisit tmp List.mem_cons_self (countEntry fs tmp info) (by omega)
        rw [if_neg hlimit, hcall, Option.bind_some]
        by_cases hfits : (countEntry fs tmp info).count + entriesBelow fs tmp < 10000
        · have h1 := hexact hfits
          have hcount1 : info1.count = info.count + (1 + entriesBelow fs tmp) := by
            rw [h1, FileInfo.count_add, files_add_folders]
            omega
          obtain ⟨info2, hrun, hexact2, hcut2⟩ := ih
            (fun c hc => hvisit c (List.mem_cons_of_mem tmp hc))
            (fun c hc => hlevels c (List.mem_cons_of_mem tmp hc)) info1 (by omega)
          refine ⟨info2, hrun, fun h => ?_, fun h => hcut2 (by omega)⟩
          rw [hexact2 (by omega), h1, hentry, FileInfo.add_add, FileInfo.add_add]
          congr 1 <;> omega
        · obtain ⟨hge, hle⟩ := hcut (by omega)
          obtain ⟨info2, hrun, hge2, hle2⟩ := eachEntry_full fs visit files hge
          exact ⟨info2, hrun, fun h => by omega, fun _ => ⟨hge2, by omega⟩⟩

/-- A call with a stack that reaches to the bottom of the tree. -/
theorem calcFileContent_spec (hlist : ∀ p, disk.list p = true) {depth : Nat} {f : List Text}
    (hf : fs.node f ≠ none) (hdepth : fs.height < depth + f.length) :
    Visits lockedLength fs (calcFileContent disk lockedLength fs depth) f := by
  induction depth generalizing f with
  | zero =>
      have := fs.length_le_height hf
      omega
  | succ depth ih =>
      intro info hlow
      rw [calcFileContent]
      have hsize : ({ info with
          size := info.size + Int64.ofNat (fileLength lockedLength fs f) } : FileInfo) =
            info.add 0 0 (fileLength lockedLength fs f) := rfl
      rw [hsize]
      by_cases hdir : fs.isDir f = true
      · simp only [if_pos hdir, if_pos (hlist f)]
        have hchild {c : List Text} (hc : c ∈ fs.children f) :
            Visits lockedLength fs (calcFileContent disk lockedLength fs depth) c := by
          obtain ⟨n, rfl, hn⟩ := fs.mem_children.mp hc
          refine ih hn ?_
          rw [List.length_append, List.length_singleton]
          omega
        obtain ⟨info', hrun, hexact, hcut⟩ := eachEntry_spec (fs.children f)
          (fun c hc => hchild hc) (fun c hc => fs.depthBelow_child hc)
          (info.add 0 0 (fileLength lockedLength fs f)) (by rw [FileInfo.count_add]; omega)
        rw [← entriesBelow_eq, FileInfo.count_add] at hexact hcut
        refine ⟨info', hrun, fun h => ?_, fun h => hcut (by omega)⟩
        rw [hexact (by omega), FileInfo.add_add, ← filesBelow_eq, ← foldersBelow_eq,
          ← lengthBelow_eq, Nat.zero_add, Nat.zero_add]
      · simp only [if_neg hdir]
        have hnone : fs.below f = [] := fs.below_of_not_dir (fun h => hdir (fs.isDir_iff.mpr h))
        refine ⟨_, rfl, fun h => ?_, fun h => ?_⟩
        · simp [filesBelow, foldersBelow, lengthBelow, hnone]
        · rw [entriesBelow, hnone, List.length_nil] at h
          omega

/-- A deeper stack changes nothing. -/
theorem eachEntry_mono {visit visit' : FileInfo → List Text → Option FileInfo}
    (h : ∀ {info c info'}, visit info c = some info' → visit' info c = some info')
    {files : List (List Text)} {info info' : FileInfo}
    (hrun : eachEntry fs visit files info = some info') :
    eachEntry fs visit' files info = some info' := by
  induction files generalizing info with
  | nil => exact hrun
  | cons tmp files ih =>
      rw [eachEntry_cons] at hrun ⊢
      split at hrun
      · next hlimit => rw [if_pos hlimit, hrun]
      · next hlimit =>
        obtain ⟨info1, hcall, hrest⟩ := Option.bind_eq_some_iff.mp hrun
        rw [if_neg hlimit, h hcall, Option.bind_some, ih hrest]

theorem calcFileContent_succ {depth : Nat} {info info' : FileInfo} {f : List Text}
    (h : calcFileContent disk lockedLength fs depth info f = some info') :
    calcFileContent disk lockedLength fs (depth + 1) info f = some info' := by
  induction depth generalizing info info' f with
  | zero => cases h
  | succ depth ih =>
      rw [calcFileContent] at h ⊢
      split at h
      · next hdir =>
        rw [if_pos hdir]
        split at h
        · next hlist =>
          rw [if_pos hlist]
          exact eachEntry_mono ih h
        · next hlist => rw [if_neg hlist, h]
      · next hdir => rw [if_neg hdir, h]

theorem calcFileContent_mono {depth depth' : Nat} (hle : depth ≤ depth') {info info' : FileInfo}
    {f : List Text} (h : calcFileContent disk lockedLength fs depth info f = some info') :
    calcFileContent disk lockedLength fs depth' info f = some info' := by
  induction hle with
  | refl => exact h
  | step _ ih => exact calcFileContent_succ ih

end spec

/-- The report on a directory comes, with any stack deeper than the tree, and is right. -/
theorem getFileInfo_reported (lockedLength : List Text → Nat) (fs : Files) (f : List Text)
    (hdir : fs.isDir f = true) :
    ∃ info, (∀ depth, fs.height < depth →
        getFileInfo Disk.sound lockedLength fs depth f = some info) ∧
      Reported lockedLength fs f info := by
  have hnode := fs.isDir_iff.mp hdir
  have hstart : (FileInfo.start (f.getLast?.getD []) (fs.isDir f)).count = 0 := rfl
  obtain ⟨info, hrun, hexact, hcut⟩ :=
    @calcFileContent_spec Disk.sound lockedLength fs (fun _ => rfl) (fs.height + 1) f
      (by rw [hnode]; nofun) (by omega) (.start (f.getLast?.getD []) (fs.isDir f)) (by omega)
  rw [hstart, Nat.zero_add] at hexact hcut
  refine ⟨info, fun depth hdepth => calcFileContent_mono hdepth hrun, fun h => ?_, fun h => ?_⟩
  · have hzero : fileLength lockedLength fs f = 0 := by rw [fileLength, hnode]
    rw [hexact h, hzero]
    simp [FileInfo.add, FileInfo.start]
  · obtain ⟨hge, hle⟩ := hcut h
    rw [FileInfo.count] at hge hle
    exact ⟨hge, by omega⟩

/-- A directory with a folder in a folder. -/
theorem getFileInfo_nested :
    ∃ info, (∀ depth, (FileTree.ofDirs [["a".toList, "b".toList]] : Files).height < depth →
        getFileInfo Disk.sound (fun _ => 0) (FileTree.ofDirs [["a".toList, "b".toList]]) depth [] =
          some info) ∧
      Reported (fun _ => 0) (FileTree.ofDirs [["a".toList, "b".toList]]) [] info :=
  getFileInfo_reported _ _ _ (by decide)

end HapAndroid.FileUtil
