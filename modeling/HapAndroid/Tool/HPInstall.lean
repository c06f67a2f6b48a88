import HapAndroid.Tool.Saving

/-!
# `HPInstall`

The installer copies thirteen files: the program, three control scripts, six
templates and three scripts against leaks.  The program comes from the assets of the
application or from a directory the user has typed, everything else from the assets.
They go to the private directory of the application, which is named without dots.
At the end a marker is left, a file named after the version and a preference, and
with it no later start of the application installs again.

An exception ends both branches of the copying.  The branch for the assets then ends
the installation, the other one goes on to the marker, which only asks whether there
is a program.  Nor is there an exception when the directory typed is the private one:
the program is then copied onto itself, and emptied.  `marker_complete_iff` has the
installations whose marker can be trusted.

The commands handed to the shell, `chmod` and the stop scripts, are not part of the
model: they neither make nor remove one of the files.
-/

namespace HapAndroid

/-- The contents of the assets of the application. -/
abbrev Assets := Text → Option (List UInt8)

/-- Delete the file that is to be written, if it is there. -/
def FileTool.deleteOld (fs : Files) (filename : Text) : Files :=
  if fileExists fs filename then (deleteFile fs filename).2 else fs

/-- `CopyFileFromAssets`.  A `false` is an exception. -/
def FileTool.copyFileFromAssets (st : Storage) (assets : Assets)
    (assetsName savePath saveName : Text) (fs : Files) : Bool × Files :=
  let filename := inDir savePath saveName
  let fs1 := if fileExists fs savePath then fs else (mkdirs st fs savePath).2
  let fs2 := deleteOld fs1 filename
  match assets assetsName with
  | some data => writeBytes st data filename fs2
  | none => (false, fs2)

/-- `createNewFile`: the files after it, or `none` for an exception.  A file that is
there already is left alone. -/
def createMarker (st : Storage) (fs : Files) (name : Text) : Option Files :=
  if fileExists fs name then some fs
  else
    match st.write (toPath fs name) with
    | .refused => none
    | _ => fs.createNew (toPath fs name) []

/-- A directory named without dots. -/
abbrev DirName := {s : Text // Straight s}

/-- Where a copied file comes from. -/
inductive Origin where
  | assets (name : Text)
  | file (path : Text)
deriving DecidableEq

/-- One file to copy. -/
structure Copy where
  origin : Origin
  savePath : DirName
  saveName : Text
deriving DecidableEq

namespace Copy

/-- The file it makes. -/
def target (c : Copy) : Text := inDir c.savePath c.saveName

/-- An asset that keeps its name. -/
def asset (savePath : DirName) (name : Text) : Copy := ⟨.assets name, savePath, name⟩

/-- Copy one file.  A `false` is an exception. -/
def perform (st : Storage) (assets : Assets) (c : Copy) (fs : Files) : Bool × Files :=
  match c.origin with
  | .assets name => FileTool.copyFileFromAssets st assets name c.savePath c.saveName fs
  | .file path => FileTool.copyFile st path c.target fs

/-- Copy some files up to the first exception: the ones copied, whether there was no
exception, and the files. -/
def performAll (st : Storage) (assets : Assets) : List Copy → Files → List Copy × Bool × Files
  | [], fs => ([], true, fs)
  | c :: cs, fs =>
      match c.perform st assets fs with
      | (true, fs') =>
          let rest := performAll st assets cs fs'
          (c :: rest.1, rest.2)
      | (false, fs') => ([], false, fs')

end Copy

/-- An installation. -/
structure HPInstall where
  /-- `Install_Path` -/
  installPath : DirName
  /-- `File_Path` -/
  filePath : Text

theorem Straight.inDir {d n : Text} (hd : Straight d) (hn : PlainName n) :
    Straight (HapAndroid.inDir d n) := by
  rw [Straight, HapAndroid.inDir, List.splitOn_append_cons_self,
    List.splitOn_eq_singleton hn.2.2.2]
  intro c hc
  rcases List.mem_append.mp hc with hc | hc
  · exact hd c hc
  · rw [List.mem_singleton.mp hc]
    exact not_or.mpr ⟨hn.2.1, hn.2.2.1⟩

namespace HPInstall

def program : Text := "HaP"
def controlScripts : List Text := ["start.sh", "stop.sh", "status.sh"]
def templates : List Text :=
  ["global.hp", "defaults.hp", "frontend.hp", "get.hp", "post.hp", "connection.hp"]
def leakScripts : List Text := ["pstart.sh", "pstop.sh", "pstatus.sh"]
def defaultName : Text := "默认透明代理"

theorem plain_modeName : PlainName modeName := by decide

theorem plain_defaultName : PlainName defaultName := by decide

/-- The directory of the templates. -/
def modeDir (h : HPInstall) : DirName :=
  ⟨inDir h.installPath modeName, h.installPath.2.inDir plain_modeName⟩

/-- Whether everything comes from the assets. -/
def fromAssets (h : HPInstall) : Bool := h.filePath = "assets".toList

/-- The copy of the program. -/
def programCopy (h : HPInstall) : Copy :=
  if h.fromAssets then .asset h.installPath program
  else ⟨.file (inDir h.filePath program), h.installPath, program⟩

/-- The other twelve copies. -/
def assetCopies (h : HPInstall) : List Copy :=
  controlScripts.map (.asset h.installPath) ++ (templates ++ leakScripts).map (.asset h.modeDir)

/-- The copies in their order. -/
def copies (h : HPInstall) : List Copy := h.programCopy :: h.assetCopies

/-- The directory of the default mode. -/
def defaultMode (h : HPInstall) : DirName :=
  ⟨inDir h.installPath defaultName, h.installPath.2.inDir plain_defaultName⟩

/-- The copies of the templates for the default mode. -/
def defaultCopies (h : HPInstall) : List Copy :=
  [getHp, postHp, connectionHp].map fun part =>
    ⟨.file (inDir h.modeDir part), h.defaultMode, part⟩

/-- Make the default mode out of the templates. -/
def makeDefault (h : HPInstall) (st : Storage) (fs : Files) : Files :=
  match mkdirs st fs h.defaultMode with
  | (true, fs') => (Copy.performAll st (fun _ => none) h.defaultCopies fs').2.2
  | (false, fs') => fs'

/-- What an installation leaves: the device, the files it has copied, and whether it
has set the marker. -/
structure Outcome where
  device : Device
  copied : List Copy
  marked : Bool

/-- The end of the installation: if there is a program, set the marker. -/
def finish (h : HPInstall) (st : Storage) (copied : List Copy) (d : Device) : Outcome :=
  if fileExists d.fs (inDir h.installPath program) then
    match createMarker st d.fs (inDir h.installPath SuperUser.version) with
    | some fs =>
        ⟨⟨h.makeDefault st fs,
            d.sp.putBoolean ("install_".toList ++ SuperUser.version) true⟩, copied, true⟩
    | none => ⟨d, copied, false⟩
  else ⟨d, copied, false⟩

/-- Make the directory of the templates if it is not there. -/
def prepare (h : HPInstall) (st : Storage) (fs : Files) : Bool × Files :=
  if fileExists fs h.modeDir then (true, fs) else mkdirs st fs h.modeDir

/-- `run`. -/
def run (h : HPInstall) (st : Storage) (assets : Assets) (d : Device) : Outcome :=
  match h.prepare st d.fs with
  | (false, fs) => ⟨⟨fs, d.sp⟩, [], false⟩
  | (true, fs) =>
      let r := Copy.performAll st assets h.copies fs
      if h.fromAssets then
        if r.2.1 then h.finish st r.1 ⟨r.2.2, d.sp⟩
        -- Only this branch returns after an exception.
        else ⟨⟨r.2.2, d.sp⟩, r.1, false⟩
      else h.finish st r.1 ⟨r.2.2, d.sp⟩

end HPInstall

/-! ## One copy -/

/-- A write completes exactly if the file can be opened and the storage takes it
whole. -/
theorem writeBytes_true_iff {st : Storage} {data : List UInt8} {name : Text} {fs : Files} :
    (FileTool.writeBytes st data name fs).1 = true ↔
      st.write (toPath fs name) = .done ∧ Opens fs (toPath fs name) := by
  rw [opens_iff data]
  simp only [FileTool.writeBytes]
  cases st.write (toPath fs name) with
  | refused => simp
  | cut n => simp
  | done =>
      cases hfs : fs.writeFile (toPath fs name) data with
      | none => simp
      | some fs' => simp

namespace Copy

/-- The path of the directory. -/
def dir (c : Copy) : List Text := components c.savePath

/-- The path of the target. -/
def path (c : Copy) : List Text := c.dir ++ [c.saveName]

/-- What the source holds. -/
def source (assets : Assets) (fs : Files) (c : Copy) : Option (List UInt8) :=
  match c.origin with
  | .assets name => assets name
  | .file path => fs.readFile (toPath fs path)

variable {st : Storage} {assets : Assets} {c : Copy} {fs : Files}

/-- The copy goes through: its source is there, the storage takes it whole, its
directory is one and nothing is in the way.  An old target of an asset is deleted
first, so only a directory with something in it is in the way there. -/
def Ready (st : Storage) (assets : Assets) (fs : Files) (c : Copy) : Prop :=
  (c.source assets fs).isSome ∧ st.write c.path = .done ∧ fs.node c.dir = some .dir ∧
    match c.origin with
    | .assets _ => ∀ k, fs.node (c.path ++ [k]) = none
    | .file _ => ∀ x, fs.node c.path = some x → ∃ data, x = .file data

/-- The source is not the target, or has nothing in it. -/
def Apart (fs : Files) (c : Copy) : Prop :=
  ∀ path, c.origin = .file path → toPath fs path = c.path → fs.node c.path = some (.file [])

/-- What the target gets.  A file that is copied onto itself is empty. -/
def stored (fs : Files) (c : Copy) (data : List UInt8) : List UInt8 :=
  match c.origin with
  | .assets _ => data
  | .file path => if toPath fs path = c.path then [] else data

/-- The target holds what the source held. -/
def Holds (assets : Assets) (fs fs' : Files) (c : Copy) : Prop :=
  ∃ data, c.source assets fs = some data ∧ fs'.node c.path = some (.file data)

theorem toPath_savePath : toPath fs c.savePath = c.dir := toPath_of_straight c.savePath.2

theorem toPath_target (hplain : PlainName c.saveName) : toPath fs c.target = c.path := by
  rw [target, toPath_inDir hplain, toPath_savePath, path]

theorem fileExists_savePath (hdir : fs.node c.dir ≠ none) :
    fileExists fs c.savePath = true := by
  rw [fileExists, toPath_savePath]
  exact fs.existsAt_iff.mpr hdir

theorem node_deleteOld_of_ne {name : Text} {q : List Text} (hq : q ≠ toPath fs name) :
    (FileTool.deleteOld fs name).node q = fs.node q := by
  rw [FileTool.deleteOld]
  split
  · exact node_deleteFile_of_ne hq
  · rfl

/-- After the deletion a file can be put there, unless something is in the old one. -/
theorem deleteOld_free_iff {name : Text} (hne : toPath fs name ≠ []) :
    (∀ x, (FileTool.deleteOld fs name).node (toPath fs name) = some x → ∃ data, x = .file data) ↔
      ∀ k, fs.node (toPath fs name ++ [k]) = none := by
  have hold : fileExists fs name = true ↔ fs.node (toPath fs name) ≠ none := fs.existsAt_iff
  by_cases hex : fs.node (toPath fs name) = none
  · rw [FileTool.deleteOld, if_neg (fun h => hold.mp h hex), hex]
    refine iff_of_true (fun x hx => by cases hx) fun k => ?_
    by_contra hk
    exact fs.exists_of_append hk hex
  · rw [FileTool.deleteOld, if_pos (hold.mpr hex), deleteFile]
    by_cases hempty : ∀ k, fs.node (toPath fs name ++ [k]) = none
    · obtain ⟨fs', hfs⟩ := fs.delete_isSome hne hex hempty
      refine iff_of_true (fun x hx => ?_) hempty
      rw [hfs] at hx
      dsimp only at hx
      rw [fs.node_delete hfs, if_pos rfl] at hx
      cases hx
    · refine iff_of_false (fun h => ?_) hempty
      obtain ⟨k, hk⟩ := not_forall.mp hempty
      rw [fs.delete_eq_none hk] at h
      obtain ⟨data, hdata⟩ := h _ (fs.parent hk)
      cases hdata

theorem node_copyFile_of_ne {fromFile toFile : Text} {q : List Text} (hq : q ≠ toPath fs toFile) :
    (FileTool.copyFile st fromFile toFile fs).2.node q = fs.node q := by
  rw [FileTool.copyFile]
  split
  · exact FileTool.node_writeBytes_of_ne st _ fs hq
  · rfl

/-- A copy changes no other file than its target. -/
theorem node_perform_of_ne (hplain : PlainName c.saveName) (hdir : fs.node c.dir ≠ none)
    {q : List Text} (hq : q ≠ c.path) : (c.perform st assets fs).2.node q = fs.node q := by
  have hq' : ∀ t : Files, q ≠ toPath t c.target := fun t => by rwa [toPath_target hplain]
  rw [perform]
  split
  · next name _ =>
    simp only [FileTool.copyFileFromAssets, fileExists_savePath hdir, if_true]
    split
    · exact (FileTool.node_writeBytes_of_ne st _ _ (hq' _)).trans (node_deleteOld_of_ne (hq' fs))
    · exact node_deleteOld_of_ne (hq' fs)
  · exact node_copyFile_of_ne (hq' fs)

/-- A copy returns exactly if it goes through. -/
theorem perform_true_iff (hplain : PlainName c.saveName) (hdir : fs.node c.dir ≠ none) :
    (c.perform st assets fs).1 = true ↔ c.Ready st assets fs := by
  have htarget : ∀ t : Files, toPath t c.target = c.path := fun t => toPath_target hplain
  have hne : c.path ≠ [] := by simp [path]
  have hpar : c.path.dropLast = c.dir := List.dropLast_concat
  rw [perform, Ready, source]
  cases c.origin with
  | assets name =>
      have hsave : c.dir ≠ toPath fs c.target := by simp [htarget, path]
      simp only [FileTool.copyFileFromAssets, fileExists_savePath hdir, if_true]
      cases assets name with
      | none => simp
      | some data =>
          dsimp only
          have hfree := @deleteOld_free_iff fs c.target (by rwa [htarget])
          rw [htarget] at hfree
          rw [writeBytes_true_iff, Opens, show inDir c.savePath c.saveName = c.target from rfl,
            htarget, hpar, node_deleteOld_of_ne hsave, hfree]
          simp [hne]
  | file path =>
      simp only [FileTool.copyFile]
      cases hdata : fs.readFile (toPath fs path) with
      | none => simp
      | some data =>
          dsimp only
          rw [writeBytes_true_iff, Opens, htarget, hpar]
          simp [hne]

/-- What a copy that returned has left in its target. -/
theorem node_perform_self (hplain : PlainName c.saveName)
    (h : (c.perform st assets fs).1 = true) :
    ∃ data, c.source assets fs = some data ∧
      (c.perform st assets fs).2.node c.path = some (.file (c.stored fs data)) := by
  have htarget : ∀ t : Files, toPath t c.target = c.path := fun t => toPath_target hplain
  rw [perform] at h ⊢
  rw [source]
  cases horigin : c.origin with
  | assets name =>
      rw [horigin] at h
      simp only [FileTool.copyFileFromAssets] at h ⊢
      cases hdata : assets name with
      | none =>
          rw [hdata] at h
          cases h
      | some data =>
          rw [hdata] at h
          have hnode := FileTool.node_writeBytes_self h
          rw [show inDir c.savePath c.saveName = c.target from rfl, htarget] at hnode
          refine ⟨data, rfl, hnode.trans ?_⟩
          rw [stored, horigin]
  | file path =>
      rw [horigin] at h
      simp only [FileTool.copyFile, htarget] at h ⊢
      cases hdata : fs.readFile (toPath fs path) with
      | none =>
          rw [hdata] at h
          cases h
      | some data =>
          rw [hdata] at h
          have hnode := FileTool.node_writeBytes_self h
          rw [htarget] at hnode
          refine ⟨data, rfl, hnode.trans ?_⟩
          rw [stored, horigin]

/-- That is what the source held, unless the source was the target. -/
theorem holds_iff {fs' : Files} {data : List UInt8} (hdata : c.source assets fs = some data)
    (hnode : fs'.node c.path = some (.file (c.stored fs data))) :
    c.Holds assets fs fs' ↔ c.Apart fs := by
  have hholds : c.Holds assets fs fs' ↔ c.stored fs data = data := by
    simp [Holds, hdata, hnode, eq_comm]
  rw [hholds, Apart, stored]
  cases horigin : c.origin with
  | assets name => simp
  | file path =>
      rw [source, horigin] at hdata
      have hread := fs.readFile_eq_some.mp hdata
      simp only [Origin.file.injEq, forall_eq']
      split
      · next hself =>
        rw [hself] at hread
        simp [hself, hread, eq_comm]
      · next hself => simp [hself]

/-! ## Several copies -/

/-- An asset that another copy does not disturb: the target of the other is another one,
and neither its directory nor in its target. -/
structure Undisturbed (c' c : Copy) : Prop where
  asset : ∃ name, c.origin = .assets name
  target : c'.path ≠ c.path
  dir : c.dir ≠ c'.path
  below : ∀ k, c.path ++ [k] ≠ c'.path

theorem source_of_asset {name : Text} (h : c.origin = .assets name) (fs : Files) :
    c.source assets fs = assets name := by
  rw [source, h]

theorem Ready.congr {fs' : Files} {c' : Copy} (h : Undisturbed c' c)
    (hsame : ∀ q, q ≠ c'.path → fs'.node q = fs.node q) :
    c.Ready st assets fs' ↔ c.Ready st assets fs := by
  obtain ⟨name, hname⟩ := h.asset
  simp only [Ready, source_of_asset hname, hname, hsame _ h.dir, hsame _ (h.below _)]

section performAll
variable {cs : List Copy}

theorem performAll_cons (c : Copy) (cs : List Copy) (fs : Files) :
    performAll st assets (c :: cs) fs =
      if (c.perform st assets fs).1 = true then
        (c :: (performAll st assets cs (c.perform st assets fs).2).1,
          (performAll st assets cs (c.perform st assets fs).2).2)
      else ([], false, (c.perform st assets fs).2) := by
  rw [performAll]
  split
  · next h => rw [h, if_pos rfl]
  · next h => rw [h, if_neg (by simp)]

/-- Without an exception everything has been copied. -/
theorem copied_of_returned (h : (performAll st assets cs fs).2.1 = true) :
    (performAll st assets cs fs).1 = cs := by
  induction cs generalizing fs with
  | nil => rfl
  | cons c cs ih =>
      rw [performAll_cons] at h ⊢
      split
      · next hone =>
        rw [if_pos hone] at h
        rw [ih h]
      · next hone =>
        rw [if_neg hone] at h
        cases h

/-- With one, something has not. -/
theorem returned_iff_copied (hnodup : cs.Nodup) :
    (performAll st assets cs fs).2.1 = true ↔ ∀ c ∈ cs, c ∈ (performAll st assets cs fs).1 := by
  refine ⟨fun h c hc => by rwa [copied_of_returned h], fun h => ?_⟩
  induction cs generalizing fs with
  | nil => rfl
  | cons c cs ih =>
      obtain ⟨hnot, hnodup⟩ := List.nodup_cons.mp hnodup
      rw [performAll_cons] at h ⊢
      split
      · next hone =>
        rw [if_pos hone] at h
        refine ih hnodup fun c' hc' => ?_
        refine (List.mem_cons.mp (h c' (List.mem_cons_of_mem _ hc'))).resolve_left ?_
        rintro rfl
        exact hnot hc'
      · next hone =>
        rw [if_neg hone] at h
        cases h c (List.mem_cons_self ..)

variable (hplain : ∀ c ∈ cs, PlainName c.saveName) (hdir : ∀ c ∈ cs, fs.node c.dir ≠ none)
  (hclear : ∀ c ∈ cs, ∀ c' ∈ cs, c.dir ≠ c'.path)
include hplain hdir hclear

/-- What is no target is unchanged. -/
theorem node_performAll_of_ne {q : List Text} (hq : ∀ c ∈ cs, q ≠ c.path) :
    (performAll st assets cs fs).2.2.node q = fs.node q := by
  induction cs generalizing fs with
  | nil => rfl
  | cons c cs ih =>
      obtain ⟨hc, hrest⟩ := List.forall_mem_cons.mp hdir
      obtain ⟨hpc, hprest⟩ := List.forall_mem_cons.mp hplain
      obtain ⟨hqc, hqrest⟩ := List.forall_mem_cons.mp hq
      have hone : (c.perform st assets fs).2.node q = fs.node q := node_perform_of_ne hpc hc hqc
      rw [performAll_cons]
      split
      · refine (ih hprest (fun c' hc' => ?_) (fun a ha b hb => ?_) hqrest).trans hone
        · rw [node_perform_of_ne hpc hc
            (hclear c' (List.mem_cons_of_mem _ hc') c (List.mem_cons_self ..))]
          exact hrest c' hc'
        · exact hclear a (List.mem_cons_of_mem _ ha) b (List.mem_cons_of_mem _ hb)
      · exact hone

/-- The later copies leave the target of the first one alone. -/
theorem node_performAll_head {c : Copy} (hpc : PlainName c.saveName) (hc : fs.node c.dir ≠ none)
    (hund : ∀ c' ∈ cs, Undisturbed c c') :
    (performAll st assets (c :: cs) fs).2.2.node c.path =
      (c.perform st assets fs).2.node c.path := by
  rw [performAll_cons]
  split
  · refine node_performAll_of_ne hplain (fun c' hc' => ?_) hclear fun c' hc' =>
      (hund c' hc').target
    rw [node_perform_of_ne hpc hc (hund c' hc').dir]
    exact hdir c' hc'
  · rfl

/-- Copies that do not disturb later ones all return exactly if each is ready at the
start. -/
theorem performAll_iff (hapart : cs.Pairwise Undisturbed) :
    (performAll st assets cs fs).2.1 = true ↔ ∀ c ∈ cs, c.Ready st assets fs := by
  induction cs generalizing fs with
  | nil => simp [performAll]
  | cons c cs ih =>
      obtain ⟨hc, hrest⟩ := List.forall_mem_cons.mp hdir
      obtain ⟨hpc, hprest⟩ := List.forall_mem_cons.mp hplain
      obtain ⟨hac, harest⟩ := List.pairwise_cons.mp hapart
      have hframe : ∀ q, q ≠ c.path → (c.perform st assets fs).2.node q = fs.node q :=
        fun q => node_perform_of_ne hpc hc
      have hrest' : ∀ c' ∈ cs, (c.perform st assets fs).2.node c'.dir ≠ none := by
        intro c' hc'
        rw [hframe _ (hac c' hc').dir]
        exact hrest c' hc'
      rw [performAll_cons, List.forall_mem_cons, ← perform_true_iff hpc hc]
      split
      · next hone =>
        rw [hone, eq_self, true_and]
        refine (ih hprest hrest' (fun a ha b hb => ?_) harest).trans ?_
        · exact hclear a (List.mem_cons_of_mem _ ha) b (List.mem_cons_of_mem _ hb)
        · exact forall₂_congr fun c' hc' => (Ready.congr (hac c' hc') hframe)
      · next hone => simp [hone]

/-- What copies that all returned have left in their targets. -/
theorem node_performAll_self (hapart : cs.Pairwise Undisturbed)
    (h : (performAll st assets cs fs).2.1 = true) :
    ∀ c ∈ cs, ∃ data, c.source assets fs = some data ∧
      (performAll st assets cs fs).2.2.node c.path = some (.file (c.stored fs data)) := by
  induction cs generalizing fs with
  | nil => simp
  | cons c cs ih =>
      obtain ⟨hc, hrest⟩ := List.forall_mem_cons.mp hdir
      obtain ⟨hpc, hprest⟩ := List.forall_mem_cons.mp hplain
      obtain ⟨hac, harest⟩ := List.pairwise_cons.mp hapart
      have hclear' : ∀ a ∈ cs, ∀ b ∈ cs, a.dir ≠ b.path := fun a ha b hb =>
        hclear a (List.mem_cons_of_mem _ ha) b (List.mem_cons_of_mem _ hb)
      have hhead := @node_performAll_head st assets fs cs hprest hrest hclear' c hpc hc hac
      rw [performAll_cons] at h hhead ⊢
      split at h
      · next hone =>
        rw [if_pos hone] at hhead ⊢
        refine List.forall_mem_cons.mpr ⟨?_, fun c' hc' => ?_⟩
        · rw [hhead]
          exact node_perform_self hpc hone
        · have hrest' : ∀ c' ∈ cs, (c.perform st assets fs).2.node c'.dir ≠ none := by
            intro c' hc'
            rw [node_perform_of_ne hpc hc (hac c' hc').dir]
            exact hrest c' hc'
          -- The source of a later copy is an asset, so it is the same as at the start.
          obtain ⟨data, hdata, hnode⟩ := ih hprest hrest' hclear' harest h c' hc'
          obtain ⟨name, hname⟩ := (hac c' hc').asset
          rw [source_of_asset hname] at hdata
          refine ⟨data, (source_of_asset hname fs).trans hdata, hnode.trans ?_⟩
          rw [stored, stored, hname]
      · cases h

end performAll

/-- Copying files changes the targets only. -/
theorem node_performAll_files {cs : List Copy} (hplain : ∀ c ∈ cs, PlainName c.saveName)
    (hfile : ∀ c ∈ cs, ∃ path, c.origin = .file path) {q : List Text}
    (hq : ∀ c ∈ cs, q ≠ c.path) : (performAll st assets cs fs).2.2.node q = fs.node q := by
  induction cs generalizing fs with
  | nil => rfl
  | cons c cs ih =>
      obtain ⟨⟨path, hpath⟩, hfrest⟩ := List.forall_mem_cons.mp hfile
      obtain ⟨hpc, hprest⟩ := List.forall_mem_cons.mp hplain
      obtain ⟨hqc, hqrest⟩ := List.forall_mem_cons.mp hq
      have hone : (c.perform st assets fs).2.node q = fs.node q := by
        rw [perform, hpath]
        exact node_copyFile_of_ne (by rwa [toPath_target hpc])
      rw [performAll_cons]
      split
      · exact (ih hprest hfrest hqrest).trans hone
      · exact hone

end Copy

/-! ## The thirteen copies -/

namespace HPInstall

variable (h : HPInstall)

/-- The private directory, and the program, the marker, the templates and the default
mode in it. -/
def installDir : List Text := components h.installPath
def programPath : List Text := h.installDir ++ [program]
def markerPath : List Text := h.installDir ++ [SuperUser.version]
def modePath : List Text := h.installDir ++ [modeName]
def defaultPath : List Text := h.installDir ++ [defaultName]

variable {fs fs' : Files}

theorem toPath_installPath : toPath fs h.installPath = h.installDir :=
  toPath_of_straight h.installPath.2

theorem toPath_entry {n : Text} (hn : PlainName n) :
    toPath fs (inDir h.installPath n) = h.installDir ++ [n] := by
  rw [toPath_inDir hn, toPath_installPath]

theorem components_entry {n : Text} (hn : PlainName n) :
    components (inDir h.installPath n) = h.installDir ++ [n] := by
  have hpath : toPath .bare (inDir h.installPath n) = components (inDir h.installPath n) :=
    toPath_of_straight (h.installPath.2.inDir hn)
  rw [← hpath, h.toPath_entry hn]

theorem components_modeDir : components h.modeDir = h.modePath :=
  h.components_entry plain_modeName

theorem components_defaultMode : components h.defaultMode = h.defaultPath :=
  h.components_entry plain_defaultName

/-- Where the copies go: into the directory of the installation or into that of the
templates. -/
theorem mem_copies {c : Copy} (hc : c ∈ h.copies) :
    (c.dir = h.installDir ∧ c.saveName ∈ program :: controlScripts) ∨
      (c.dir = h.modePath ∧ c.saveName ∈ templates ++ leakScripts) := by
  rcases List.mem_cons.mp hc with rfl | hc
  · refine .inl ?_
    rw [programCopy]
    split
    · exact ⟨rfl, List.mem_cons_self ..⟩
    · exact ⟨rfl, List.mem_cons_self ..⟩
  · rcases List.mem_append.mp hc with hc | hc
    · obtain ⟨name, hname, rfl⟩ := List.mem_map.mp hc
      exact .inl ⟨rfl, List.mem_cons_of_mem _ hname⟩
    · obtain ⟨name, hname, rfl⟩ := List.mem_map.mp hc
      exact .inr ⟨h.components_modeDir, hname⟩

theorem plain_copies : ∀ c ∈ h.copies, PlainName c.saveName := by
  intro c hc
  have hall : ∀ n ∈ program :: controlScripts ++ (templates ++ leakScripts), PlainName n := by
    decide
  rcases h.mem_copies hc with ⟨-, hn⟩ | ⟨-, hn⟩
  · exact hall _ (List.mem_append_left _ hn)
  · exact hall _ (List.mem_append_right _ hn)

/-- The targets are beside the directory of the templates or in it. -/
theorem target_copies {c : Copy} (hc : c ∈ h.copies) :
    (∃ n ∈ program :: controlScripts, c.path = h.installDir ++ [n]) ∨
      ∃ n ∈ templates ++ leakScripts, c.path = h.installDir ++ [modeName, n] := by
  rcases h.mem_copies hc with ⟨hd, hn⟩ | ⟨hd, hn⟩
  · exact .inl ⟨_, hn, by rw [Copy.path, hd]⟩
  · exact .inr ⟨_, hn, by rw [Copy.path, hd, modePath, List.append_assoc]; rfl⟩

theorem mode_not_beside : modeName ∉ program :: controlScripts := by decide

/-- No target is the directory of a copy or in the target of one. -/
theorem clear_copies {c c' : Copy} (hc : c ∈ h.copies) (hc' : c' ∈ h.copies) :
    c.dir ≠ c'.path ∧ ∀ k, c.path ++ [k] ≠ c'.path := by
  have hbeside : ∀ n ∈ program :: controlScripts, n ≠ modeName := fun n hn heq =>
    mode_not_beside (heq ▸ hn)
  constructor
  · rcases h.mem_copies hc with ⟨hd, -⟩ | ⟨hd, -⟩
    · rcases h.target_copies hc' with ⟨n', -, ht'⟩ | ⟨n', -, ht'⟩
      · simp [hd, ht']
      · simp [hd, ht']
    · rcases h.target_copies hc' with ⟨n', hn', ht'⟩ | ⟨n', -, ht'⟩
      · simpa [hd, ht', modePath] using (hbeside n' hn').symm
      · simp [hd, ht', modePath]
  · intro k
    rcases h.target_copies hc with ⟨n, hn, ht⟩ | ⟨n, -, ht⟩
    · rcases h.target_copies hc' with ⟨n', -, ht'⟩ | ⟨n', -, ht'⟩
      · simp [ht, ht']
      · simp [ht, ht', hbeside n hn]
    · rcases h.target_copies hc' with ⟨n', -, ht'⟩ | ⟨n', -, ht'⟩
      · simp [ht, ht']
      · simp [ht, ht']

theorem saveNames_copies : h.copies.map Copy.saveName =
    program :: (controlScripts ++ (templates ++ leakScripts)) := by
  rw [copies, programCopy]
  split <;> rfl

theorem nodup_saveNames : (h.copies.map Copy.saveName).Nodup := by
  rw [saveNames_copies]
  decide

theorem nodup_copies : h.copies.Nodup := List.Nodup.of_map Copy.saveName h.nodup_saveNames

theorem asset_copies {c : Copy} (hc : c ∈ h.assetCopies) : ∃ name, c.origin = .assets name := by
  rcases List.mem_append.mp hc with hc | hc
  · obtain ⟨name, -, rfl⟩ := List.mem_map.mp hc
    exact ⟨name, rfl⟩
  · obtain ⟨name, -, rfl⟩ := List.mem_map.mp hc
    exact ⟨name, rfl⟩

theorem asset_of_fromAssets (hassets : h.fromAssets = true) {c : Copy} (hc : c ∈ h.copies) :
    ∃ name, c.origin = .assets name := by
  rcases List.mem_cons.mp hc with rfl | hc
  · rw [programCopy, if_pos hassets]
    exact ⟨program, rfl⟩
  · exact h.asset_copies hc

theorem installDir_ne_target : ∀ c ∈ h.copies, h.installDir ≠ c.path := by
  intro c hc
  rcases h.target_copies hc with ⟨n, -, ht⟩ | ⟨n, -, ht⟩
  · simp [ht]
  · simp [ht]

theorem pairwise_copies : h.copies.Pairwise Copy.Undisturbed := by
  have hnames : h.copies.Pairwise fun c' c => c'.saveName ≠ c.saveName :=
    List.pairwise_map.mp h.nodup_saveNames
  have hund : ∀ c' ∈ h.copies, ∀ c ∈ h.assetCopies, c'.saveName ≠ c.saveName →
      Copy.Undisturbed c' c := fun c' hc' c hc hne =>
    ⟨h.asset_copies hc, fun heq => hne (by simpa using (List.append_inj' heq rfl).2),
      (h.clear_copies (List.mem_cons_of_mem _ hc) hc').1,
      (h.clear_copies (List.mem_cons_of_mem _ hc) hc').2⟩
  obtain ⟨hfirst, hrest⟩ := List.pairwise_cons.mp hnames
  refine List.pairwise_cons.mpr ⟨fun c hc => hund _ (List.mem_cons_self ..) c hc (hfirst c hc), ?_⟩
  exact hrest.imp_of_mem fun hc' hc hne => hund _ (List.mem_cons_of_mem _ hc') _ hc hne

/-! ## The directory of the templates -/

/-- The directory of the templates is there or can be made. -/
def Preparable (h : HPInstall) (st : Storage) (fs : Files) : Prop :=
  fs.node h.modePath ≠ none ∨ fs.Reaches st.mkdir h.modePath

theorem toPath_modeDir : toPath fs h.modeDir = h.modePath :=
  (toPath_of_straight h.modeDir.2).trans h.components_modeDir

theorem noDots_modePath : NoDots h.modePath := by
  rw [← components_modeDir, components]
  exact fun c hc => h.modeDir.2 c (List.mem_of_mem_filter hc)

theorem prepare_true_iff (st : Storage) (fs : Files) :
    (h.prepare st fs).1 = true ↔ h.Preparable st fs := by
  have hold : fileExists fs h.modeDir = true ↔ fs.node h.modePath ≠ none :=
    h.toPath_modeDir ▸ fs.existsAt_iff
  rw [prepare, Preparable, ← hold]
  split
  · next hex => exact iff_of_true rfl (.inl hex)
  · next hex =>
    have hnone : fs.node h.modePath = none := by
      by_contra hne
      exact hex (hold.mpr hne)
    rw [mkdirs_eq_true_iff, toPath_modeDir, or_iff_right hex]
    simp [hnone, h.noDots_modePath]

/-- After the preparation both directories are there. -/
theorem prepared {st : Storage} (hp : h.prepare st fs = (true, fs')) :
    fs'.node h.installDir = some .dir ∧ fs'.node h.modePath ≠ none := by
  have hmode : fs'.node h.modePath ≠ none := by
    rw [prepare] at hp
    split at hp
    · next hex =>
      cases hp
      exact h.toPath_modeDir ▸ fs.existsAt_iff.mp hex
    · have hdir := (mkdirs_dir hp).2
      rw [toPath_modeDir] at hdir
      simp [hdir]
  exact ⟨fs'.parent hmode, hmode⟩

variable {h} {st : Storage} {assets : Assets}

section copying

variable (hdir : fs.node h.installDir = some .dir) (hmode : fs.node h.modePath ≠ none)
include hdir hmode

theorem dir_copies : ∀ c ∈ h.copies, fs.node c.dir ≠ none := by
  intro c hc
  rcases h.mem_copies hc with ⟨hd, -⟩ | ⟨hd, -⟩
  · rw [hd, hdir]
    simp
  · rw [hd]
    exact hmode

/-- The copying returns exactly if every copy is ready. -/
theorem performAll_copies_iff :
    (Copy.performAll st assets h.copies fs).2.1 = true ↔ ∀ c ∈ h.copies, c.Ready st assets fs :=
  Copy.performAll_iff h.plain_copies (dir_copies hdir hmode)
    (fun _ hc _ hc' => (h.clear_copies hc hc').1) h.pairwise_copies

/-- What is no target is as before the copying. -/
theorem node_performAll {q : List Text} (hq : ∀ c ∈ h.copies, q ≠ c.path) :
    (Copy.performAll st assets h.copies fs).2.2.node q = fs.node q :=
  Copy.node_performAll_of_ne h.plain_copies (dir_copies hdir hmode)
    (fun _ hc _ hc' => (h.clear_copies hc hc').1) hq

end copying

/-! ## The marker -/

/-- There will be a program at the end of the copying, though it may be an old one or
only a part of one: it is there, or its copy gets as far as opening it. -/
def ProgramThere (h : HPInstall) (st : Storage) (fs : Files) : Prop :=
  fs.node h.programPath ≠ none ∨
    (∃ data, fs.node (toPath fs (inDir h.filePath program)) = some (.file data)) ∧
      st.write h.programPath ≠ .refused

/-- The marker is there already or can be made. -/
def Markable (h : HPInstall) (st : Storage) (fs : Files) : Prop :=
  fs.node h.markerPath ≠ none ∨ st.write h.markerPath ≠ .refused

/-- An installation that sets the marker has copied all thirteen files: each holds what
its source held when the copying began. -/
def MarkerComplete (h : HPInstall) (st : Storage) (assets : Assets) (d : Device) : Prop :=
  (h.run st assets d).marked = true → ∀ c ∈ h.copies, c ∈ (h.run st assets d).copied ∧
    c.Holds assets (h.prepare st d.fs).2 (h.run st assets d).device.fs

theorem createMarker_isSome {name : Text} (hne : toPath fs name ≠ [])
    (hpar : fs.node (toPath fs name).dropLast = some .dir) :
    (createMarker st fs name).isSome ↔
      fs.node (toPath fs name) ≠ none ∨ st.write (toPath fs name) ≠ .refused := by
  have hold : fileExists fs name = true ↔ fs.node (toPath fs name) ≠ none := fs.existsAt_iff
  rw [createMarker]
  split
  · next hex => exact iff_of_true rfl (.inl (hold.mp hex))
  · next hex =>
    have hnone : fs.node (toPath fs name) = none := by
      by_contra h
      exact hex (hold.mpr h)
    have hnew : (fs.createNew (toPath fs name) []).isSome := by
      have hfree : ¬ fs.existsAt (toPath fs name) = true := hex
      rw [FileTree.createNew, if_neg hfree]
      obtain ⟨fs', hfs⟩ := fs.put_isSome (.file []) hne hpar (by simp [hnone])
      rw [hfs]
      rfl
    cases st.write (toPath fs name) with
    | refused => simp [hnone]
    | cut n => simpa using hnew
    | done => simpa using hnew

theorem node_createMarker_of_ne {name : Text} (hm : createMarker st fs name = some fs')
    {q : List Text} (hq : q ≠ toPath fs name) : fs'.node q = fs.node q := by
  rw [createMarker] at hm
  split at hm
  · cases hm
    rfl
  · split at hm
    · cases hm
    · rw [fs.node_createNew hm, if_neg hq]

theorem plain_program : PlainName program := by decide

theorem plain_version : PlainName SuperUser.version := by decide

/-- The end of an installation sets the marker exactly if there is a program and the
marker can be made. -/
theorem marked_finish {copied : List Copy} {d : Device}
    (hdir : d.fs.node h.installDir = some .dir) :
    (h.finish st copied d).marked = true ↔ d.fs.node h.programPath ≠ none ∧ h.Markable st d.fs := by
  have hprogram : fileExists d.fs (inDir h.installPath program) = true ↔
      d.fs.node h.programPath ≠ none := by
    rw [fileExists, h.toPath_entry plain_program]
    exact d.fs.existsAt_iff
  have hmarker := @createMarker_isSome d.fs st (inDir h.installPath SuperUser.version)
  rw [h.toPath_entry plain_version, ← markerPath] at hmarker
  have hiff := hmarker (by simp [markerPath]) (by rwa [markerPath, List.dropLast_concat])
  rw [Markable, ← hiff, ← hprogram, finish]
  split
  · next hex =>
    cases createMarker st d.fs (inDir h.installPath SuperUser.version) with
    | none => simp
    | some fs => simp [hex]
  · next hex => simp [hex]

theorem copied_finish (copied : List Copy) (d : Device) :
    (h.finish st copied d).copied = copied := by
  rw [finish]
  split
  · split <;> rfl
  · rfl

/-- A write leaves something where nothing was exactly if it is not refused. -/
theorem node_writeBytes_ne_none_iff {data : List UInt8} {name : Text}
    (hopens : Opens fs (toPath fs name)) (hnone : fs.node (toPath fs name) = none) :
    (FileTool.writeBytes st data name fs).2.node (toPath fs name) ≠ none ↔
      st.write (toPath fs name) ≠ .refused := by
  simp only [FileTool.writeBytes]
  cases st.write (toPath fs name) with
  | refused => simp [hnone]
  | cut n =>
      obtain ⟨fs', hfs⟩ := (opens_iff (data.take n)).mp hopens
      simp [hfs, fs.node_writeFile hfs]
  | done =>
      obtain ⟨fs', hfs⟩ := (opens_iff data).mp hopens
      simp [hfs, fs.node_writeFile hfs]

/-- A copy of a file leaves something at its target exactly if something was there or
the source could be read and the target be opened. -/
theorem node_copyFile_ne_none_iff {fromFile toFile : Text} (hne : toPath fs toFile ≠ [])
    (hpar : fs.node (toPath fs toFile).dropLast = some .dir) :
    (FileTool.copyFile st fromFile toFile fs).2.node (toPath fs toFile) ≠ none ↔
      fs.node (toPath fs toFile) ≠ none ∨
        (∃ data, fs.node (toPath fs fromFile) = some (.file data)) ∧
          st.write (toPath fs toFile) ≠ .refused := by
  by_cases hex : fs.node (toPath fs toFile) = none
  · have hopens : Opens fs (toPath fs toFile) := ⟨hne, hpar, by simp [hex]⟩
    rw [FileTool.copyFile]
    simp only [← fs.readFile_eq_some]
    cases fs.readFile (toPath fs fromFile) with
    | none => simp [hex]
    | some data =>
        dsimp only
        rw [node_writeBytes_ne_none_iff hopens hex]
        simp [hex]
  · exact iff_of_true (FileTool.node_copyFile_ne_none st _ _ fs hex) (.inl hex)

/-- Making the default mode changes nothing that is there, but in its own directory. -/
theorem node_makeDefault {q : List Text} (hq : fs.node q ≠ none) (hout : ¬ h.defaultPath <+: q) :
    (h.makeDefault st fs).node q = fs.node q := by
  rw [makeDefault]
  split
  · next fs' hmk =>
    rw [Copy.node_performAll_files, mkdirs_keeps hmk hq]
    · intro c hc
      obtain ⟨part, hpart, rfl⟩ := List.mem_map.mp hc
      have hall : ∀ part ∈ [getHp, postHp, connectionHp], PlainName part := by decide
      exact hall part hpart
    · intro c hc
      obtain ⟨part, -, rfl⟩ := List.mem_map.mp hc
      exact ⟨_, rfl⟩
    · intro c hc heq
      obtain ⟨part, -, rfl⟩ := List.mem_map.mp hc
      refine hout (heq ▸ ?_)
      rw [Copy.path, Copy.dir, components_defaultMode]
      exact List.prefix_append _ _
  · next fs' hmk => exact mkdirs_keeps hmk hq

theorem default_not_beside : ∀ n ∈ modeName :: program :: controlScripts, n ≠ defaultName := by
  decide

/-- The end of an installation leaves the thirteen files alone. -/
theorem node_finish {copied : List Copy} {d : Device} {c : Copy} (hc : c ∈ h.copies)
    (hthere : d.fs.node c.path ≠ none) :
    (h.finish st copied d).device.fs.node c.path = d.fs.node c.path := by
  have hbeside : ∀ n ∈ modeName :: program :: controlScripts, ∀ r,
      ¬ h.defaultPath <+: h.installDir ++ n :: r := by
    intro n hn r hpre
    rw [defaultPath, List.prefix_append_right_inj, List.cons_prefix_cons] at hpre
    exact default_not_beside n hn hpre.1.symm
  have hout : ¬ h.defaultPath <+: c.path := by
    rcases h.target_copies hc with ⟨n, hn, ht⟩ | ⟨n, -, ht⟩
    · rw [ht]
      exact hbeside n (List.mem_cons_of_mem _ hn) []
    · rw [ht]
      exact hbeside modeName (List.mem_cons_self ..) [n]
  have hmarker : c.path ≠ toPath d.fs (inDir h.installPath SuperUser.version) := by
    rw [h.toPath_entry plain_version]
    rcases h.target_copies hc with ⟨n, hn, ht⟩ | ⟨n, -, ht⟩
    · have hversion : SuperUser.version ∉ program :: controlScripts := by decide
      rw [ht]
      intro heq
      have hlast : n = SuperUser.version := by simpa using heq
      exact hversion (hlast ▸ hn)
    · simp [ht]
  rw [finish]
  split
  · split
    · next fs hm =>
      have hsame := node_createMarker_of_ne hm hmarker
      rw [← hsame] at hthere ⊢
      exact node_makeDefault hthere hout
    · rfl
  · rfl

section copying

variable (hdir : fs.node h.installDir = some .dir) (hmode : fs.node h.modePath ≠ none)
include hdir hmode

/-- After copying from a directory there is a program in exactly these cases. -/
theorem program_iff (hlocal : h.fromAssets = false) :
    (Copy.performAll st assets h.copies fs).2.2.node h.programPath ≠ none ↔
      h.ProgramThere st fs := by
  have hcopy : h.programCopy = ⟨.file (inDir h.filePath program), h.installPath, program⟩ := by
    rw [programCopy, if_neg (by simp [hlocal])]
  have hpath : h.programCopy.path = h.programPath := by
    rw [hcopy]
    rfl
  have htarget : toPath fs (inDir h.installPath program) = h.programPath :=
    h.toPath_entry plain_program
  have hall := dir_copies hdir hmode
  obtain ⟨hund, -⟩ := List.pairwise_cons.mp h.pairwise_copies
  have hhead := @Copy.node_performAll_head st assets fs h.assetCopies
    (fun c hc => h.plain_copies c (List.mem_cons_of_mem _ hc))
    (fun c hc => hall c (List.mem_cons_of_mem _ hc))
    (fun _ hc _ hc' => (h.clear_copies (List.mem_cons_of_mem _ hc) (List.mem_cons_of_mem _ hc')).1)
    h.programCopy (h.plain_copies _ (List.mem_cons_self ..)) (hall _ (List.mem_cons_self ..)) hund
  have hperform : h.programCopy.perform st assets fs =
      FileTool.copyFile st (inDir h.filePath program) (inDir h.installPath program) fs := by
    rw [hcopy]
    rfl
  rw [hpath, hperform] at hhead
  have hiff := @node_copyFile_ne_none_iff fs st (inDir h.filePath program)
    (inDir h.installPath program)
  rw [htarget] at hiff
  have hpar : fs.node h.programPath.dropLast = some .dir := by
    rw [programPath, List.dropLast_concat]
    exact hdir
  rw [copies, hhead, hiff (by simp [programPath]) hpar, ProgramThere]

/-- The copying does not touch the marker. -/
theorem markable_iff :
    h.Markable st (Copy.performAll st assets h.copies fs).2.2 ↔ h.Markable st fs := by
  have hne : ∀ c ∈ h.copies, h.markerPath ≠ c.path := by
    intro c hc
    rcases h.target_copies hc with ⟨n, hn, ht⟩ | ⟨n, -, ht⟩
    · have hversion : SuperUser.version ∉ program :: controlScripts := by decide
      rw [ht, markerPath]
      intro heq
      have hlast : SuperUser.version = n := by simpa using heq
      exact hversion (hlast ▸ hn)
    · simp [ht, markerPath]
  rw [Markable, Markable, node_performAll hdir hmode hne]

/-- If the copying returns, the thirteen files are right at the end exactly if no source
was its own target. -/
theorem holds_finish_iff {copied : List Copy} {sp : Prefs}
    (hret : (Copy.performAll st assets h.copies fs).2.1 = true) :
    (∀ c ∈ h.copies, c.Holds assets fs
        (h.finish st copied ⟨(Copy.performAll st assets h.copies fs).2.2, sp⟩).device.fs) ↔
      ∀ c ∈ h.copies, c.Apart fs := by
  refine forall₂_congr fun c hc => ?_
  obtain ⟨data, hdata, hnode⟩ := Copy.node_performAll_self h.plain_copies (dir_copies hdir hmode)
    (fun _ hc _ hc' => (h.clear_copies hc hc').1) h.pairwise_copies hret c hc
  refine Copy.holds_iff hdata ?_
  rw [node_finish hc (by simp [hnode]), hnode]

end copying

/-- The marker means a complete installation exactly if the files come from the assets,
or the marker is not reached, or every copy goes through and none is of a file onto
itself.  The conditions are about the files when the copying begins. -/
theorem marker_complete_iff (h : HPInstall) (st : Storage) (assets : Assets) (d : Device) :
    h.MarkerComplete st assets d ↔
      (h.fromAssets = false → h.Preparable st d.fs →
        h.ProgramThere st (h.prepare st d.fs).2 → h.Markable st (h.prepare st d.fs).2 →
          ∀ c ∈ h.copies, c.Ready st assets (h.prepare st d.fs).2 ∧
            c.Apart (h.prepare st d.fs).2) := by
  rw [MarkerComplete, run, ← prepare_true_iff]
  rcases hprep : h.prepare st d.fs with ⟨ok, fs⟩
  cases ok with
  | false => simp
  | true =>
      obtain ⟨hdir, hmode⟩ := h.prepared hprep
      have hcopied := @Copy.returned_iff_copied st assets fs h.copies h.nodup_copies
      have hready := @performAll_copies_iff h fs st assets hdir hmode
      have hholds : ∀ {copied : List Copy},
          (Copy.performAll st assets h.copies fs).2.1 = true → _ := fun {copied} hret =>
        @holds_finish_iff h fs st assets hdir hmode copied d.sp hret
      cases hlocal : h.fromAssets with
      | true =>
          dsimp only
          rw [if_pos rfl]
          refine iff_of_true ?_ (by simp)
          split
          · next hret =>
            rw [copied_finish]
            have hapart : ∀ c ∈ h.copies, c.Apart fs := by
              intro c hc
              obtain ⟨name, hname⟩ := h.asset_of_fromAssets hlocal hc
              simp [Copy.Apart, hname]
            exact fun _ c hc => ⟨hcopied.mp hret c hc, (hholds hret).mpr hapart c hc⟩
          · intro hmarked
            cases hmarked
      | false =>
          have hinstall : (Copy.performAll st assets h.copies fs).2.2.node h.installDir =
              some .dir := (node_performAll hdir hmode h.installDir_ne_target).trans hdir
          dsimp only
          rw [if_neg (by simp), copied_finish, marked_finish hinstall,
            program_iff hdir hmode hlocal, markable_iff hdir hmode]
          constructor
          · intro hall _ _ hthere hmark
            have hboth := hall ⟨hthere, hmark⟩
            have hret := hcopied.mpr fun c hc => (hboth c hc).1
            exact fun c hc => ⟨hready.mp hret c hc,
              (hholds hret).mp (fun c hc => (hboth c hc).2) c hc⟩
          · rintro hall ⟨hthere, hmark⟩ c hc
            have hboth := hall rfl rfl hthere hmark
            have hret := hready.mpr fun c hc => (hboth c hc).1
            exact ⟨hcopied.mp hret c hc, (hholds hret).mpr (fun c hc => (hboth c hc).2) c hc⟩

theorem straight_privateDir : Straight "/p".toList := by decide

/-- The private directory. -/
def privateDir : DirName := ⟨"/p".toList, straight_privateDir⟩

/-- A device with an old program. -/
def oldProgram : Device :=
  ⟨((FileTree.bare.mkdir ["p".toList]).bind (·.writeFile ["p".toList, program] [1])).getD .bare,
    .empty⟩

/-- An installation from a directory that has no program. -/
def emptySource : HPInstall := ⟨privateDir, "/sdcard"⟩

/-- An installation from the private directory itself. -/
def ownSource : HPInstall := ⟨privateDir, "/p"⟩

/-- Nothing is copied, and the marker is set.  From the private directory everything is
copied, and the program is emptied. -/
theorem marker_without_install :
    (emptySource.run .sound (fun _ => some []) oldProgram).marked = true ∧
      (emptySource.run .sound (fun _ => some []) oldProgram).copied = [] ∧
      (emptySource.run .sound (fun _ => some []) oldProgram).device.fs.node
        ["p".toList, SuperUser.version] = some (.file []) ∧
      ¬ emptySource.MarkerComplete .sound (fun _ => some []) oldProgram ∧
      (ownSource.run .sound (fun _ => some []) oldProgram).marked = true ∧
      (ownSource.run .sound (fun _ => some []) oldProgram).device.fs.node
        ["p".toList, program] = some (.file []) := by
  have hmarked : (emptySource.run .sound (fun _ => some []) oldProgram).marked = true := by
    decide +kernel
  have hnone : (emptySource.run .sound (fun _ => some []) oldProgram).copied = [] := by
    decide +kernel
  refine ⟨hmarked, hnone, by decide +kernel, fun hcomplete => ?_, by decide +kernel,
    by decide +kernel⟩
  have hcopied := (hcomplete hmarked _ (List.mem_cons_self ..)).1
  rw [hnone] at hcopied
  cases hcopied

end HPInstall

end HapAndroid
