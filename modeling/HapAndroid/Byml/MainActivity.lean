import HapAndroid.Byml.EditMode

/-!
# `MainActivity`

The main screen with the list of modes.  The list lives in three places: the
numbered preferences, the counter `i`, and the titles `mData` on the screen.
Six pieces of code change them: the start (`onCreate`), the message of an
import, the results 19 and 20 of the editor, the delete dialog, and the tasks,
which write the preferences themselves.  Each is a function here.  The
compositions of them that a user sees as one operation are in the modules about
the list.
-/

namespace HapAndroid

/-- What the application runs in. -/
structure Env where
  /-- The private directory. -/
  filePath : Text
  con : Context
  des : Cipher
  st : Storage

/-- The path of a private directory whose path name has no dots. -/
def Env.path (env : Env) : List Text := components env.filePath

theorem Env.toPath_filePath (env : Env) {fs : Files} (h : Straight env.filePath) :
    toPath fs env.filePath = env.path :=
  toPath_of_straight h

/-- A private directory `/d`, no packages, a cipher that changes nothing, a storage
that refuses nothing. -/
def Env.plain : Env := ⟨"/d", .bare, .plain, .sound⟩

/-- The state of the main screen. -/
structure MainActivity where
  dev : Device
  i : Nat
  /-- The titles of the list. -/
  mData : List Text
  nowI : Nat
  nowName : Text
  /-- The label of the start button. -/
  bstart : Text
  /-- Whether the installer was started. -/
  hstart : Bool
  /-- Whether the start was ended by an exception that nothing catches. -/
  crashed : Bool := false

/-- The screen without modes, on a device with some files. -/
def MainActivity.blank (fs : Files) : MainActivity :=
  { dev := ⟨fs, .empty⟩, i := 0, mData := [], nowI := 0, nowName := [], bstart := [],
    hstart := false }

def defaultMode : Text := "默认透明代理"

/-- What is added to the title of a mode whose files are missing. -/
def lostMark : Text := "(文件丢失)"

namespace MainActivity

/-- The title of a mode when the list is loaded. -/
def titleOf (fs : Files) (filePath str : Text) : Text :=
  if fileExists fs (partFile filePath str getHp) then str else str ++ lostMark

/-- The load loop: the counter and the titles. -/
def load (env : Env) (d : Device) : Nat → Nat → List Text → Nat × List Text
  | 0, i, mData => (i, mData)
  | fuel + 1, i, mData =>
      match d.sp.getString? (modeKey i) with
      | none => (i, mData)
      | some str =>
          if str.length < 1 then (i, mData)
          else load env d fuel (i + 1) (mData ++ [titleOf d.fs env.filePath str])

/-- The preference that says whether the news of this version were shown. -/
def newfixKey : Text := ("newfix_" : Text) ++ SuperUser.version

/-- `install_init`: when the version marker is missing, set the commands and
start the installer.  The news are shown first; reading whether they were can
throw. -/
def installInit (env : Env) (d : Device) : Option (Device × Bool) :=
  (d.sp.getBoolean newfixKey false).map fun _ =>
    if fileExists d.fs (inDir env.filePath SuperUser.version) then (d, false)
    else
      let cmd (sh : Text) : Text :=
        ("cd " : Text) ++ env.filePath ++ ("\nsh ./" : Text) ++ sh ++ ['\n']
      (⟨d.fs, ((d.sp.putString "_start" (cmd "start.sh")).putString "_stop"
        (cmd "stop.sh")).putString "_status" (cmd "status.sh")⟩, true)

/-- What becomes of the default mode.  In every case some files may have
changed. -/
inductive DefaultOutcome where
  | made (fs : Files)
  /-- The directory cannot be made. -/
  | skipped (fs : Files)
  /-- A copy throws. -/
  | failed (fs : Files)

/-- Copy one part of the template. -/
def copyPart (env : Env) (part : Text) (fs : Files) : Bool × Files :=
  FileTool.copyFile env.st (partFile env.filePath modeName part)
    (partFile env.filePath defaultMode part) fs

/-- Make the default mode from the template. -/
def makeDefault (env : Env) (fs : Files) : DefaultOutcome :=
  let fs0 := (FileTool.deleteSDFile fs (inDir env.filePath defaultMode)).2
  match mkdirs env.st fs0 (inDir env.filePath defaultMode) with
  | (false, fs1) => .skipped fs1
  | (true, fs1) =>
      let c1 := copyPart env getHp fs1
      if c1.1 then
        let c2 := copyPart env postHp c1.2
        if c2.1 then
          let c3 := copyPart env connectionHp c2.2
          if c3.1 then .made c3.2 else .failed c3.2
        else .failed c2.2
      else .failed c1.2

/-- Append a mode: the messages 1 and 2, and the default mode at the start. -/
def appendMode (a : MainActivity) (name : Text) : MainActivity :=
  { a with
    mData := a.mData ++ [name]
    dev := ⟨a.dev.fs, putSlot a.dev.sp a.i name⟩
    i := a.i + 1 }

/-- The end of `data_init`: the mode started last. -/
def restoreNow (a : MainActivity) : MainActivity :=
  match a.dev.sp.getInt "now_i" a.nowI with
  | none => { a with crashed := true }
  | some nowI =>
      let nowName := a.dev.sp.getString "now_name" a.nowName
      { a with
        nowI := nowI.toNat
        nowName := nowName
        bstart := ("启动:" : Text) ++ nowName }

/-- The screen at the beginning of `data_init`. -/
def unloaded (d : Device) : MainActivity where
  dev := d
  i := 0
  mData := []
  nowI := 0
  nowName := defaultMode
  bstart := "启动"
  hstart := false

/-- `data_init` after `install_init`, for an intent without data. -/
def loadModes (env : Env) (inst : Device × Bool) : MainActivity :=
  let loaded := load env inst.1 inst.1.sp.keys.length 0 []
  let a : MainActivity :=
    { unloaded inst.1 with i := loaded.1, mData := loaded.2, hstart := inst.2 }
  if loaded.1 = 0 ∧ inst.2 = false then
    match makeDefault env inst.1.fs with
    | .made fs => restoreNow (appendMode { a with dev := ⟨fs, inst.1.sp⟩ } defaultMode)
    | .skipped fs => restoreNow { a with dev := ⟨fs, inst.1.sp⟩ }
    -- The exception handler returns from `data_init`.
    | .failed fs => { a with dev := ⟨fs, inst.1.sp⟩ }
  else restoreNow a

/-- `onCreate` with `data_init`. -/
def onCreate (env : Env) (d : Device) : MainActivity :=
  match installInit env d with
  | none => { unloaded d with crashed := true }
  | some inst => loadModes env inst

/-! ## The list -/

/-- A click on an entry of the list. -/
def onChildClick (a : MainActivity) (group : Nat) : Option MainActivity :=
  a.mData[group]?.map fun title => { a with nowI := group, nowName := title }

/-- `d_6`: the editor for a new mode, unless the name is refused. -/
def openAdd (env : Env) (a : MainActivity) (name : Text) : Option EditMode :=
  if name.length < 1 ∨ fileExists a.dev.fs (inDir env.filePath name) then none
  else some (.onCreate env.filePath name a.i true)

/-- The editor for the clicked mode. -/
def openEdit (env : Env) (a : MainActivity) : EditMode :=
  .onCreate env.filePath a.nowName a.nowI false

/-- `onActivityResult` for the results of the editor. -/
def onActivityResult (a : MainActivity) (r : ActivityResult) : MainActivity :=
  if r.code = 19 then { a with mData := a.mData.set r.iN r.title }
  else if r.code = 20 then { a with i := a.i + 1, mData := a.mData ++ [r.title] }
  else a

/-- The preferences after `d_7`.  Unless the last mode is deleted, the stored
name is itself used as a key before the slots are moved down. -/
def deleteSlots (sp : Prefs) (i nowI : Nat) : Prefs :=
  if i ≠ nowI + 1 then shiftDown (sp.putString (slot sp nowI) []) nowI (i - nowI)
  else putSlot sp nowI []

/-- `d_7`: delete the clicked mode.  The flag says whether its files were
deleted. -/
def deleteMode (env : Env) (a : MainActivity) : Bool × MainActivity :=
  let del := FileTool.deleteSDFile a.dev.fs (inDir env.filePath a.nowName)
  (del.1,
    { a with
      dev := ⟨del.2, deleteSlots a.dev.sp a.i a.nowI⟩
      i := a.i - 1
      mData := a.mData.eraseIdx a.nowI
      bstart := if containsText a.bstart a.nowName then "模式以被删除" else a.bstart })

/-! ## Import and export -/

/-- The task of an import begun at a counter. -/
def taskAt (env : Env) (i : Nat) (name : Text) : HPStart where
  filePath := env.filePath
  mName := name
  isAdd := true
  ipos := i
  hasHandler := true

/-- The task and the job of an import, from the result 21 of the file browser
or from an intent with data.  The parts of the object go to the task in the
order connection, get, post. -/
def importTask (env : Env) (a : MainActivity) (m : MHP) : Option (HPStart × Job) :=
  m.name.map fun name => (taskAt env a.i name, .mhp m.connection m.get m.post)

/-- Java serialization of MHP objects. -/
structure Serial where
  write : MHP → List UInt8
  /-- `none` is an exception. -/
  read : List UInt8 → Option MHP

/-- `new File(path).getParent()`. -/
def getParent (path : Text) : Option Text :=
  match (path.reverse.dropWhile (· ≠ '/')).reverse with
  | [] => none
  | ['/'] => some ['/']
  | dir => some dir.dropLast

/-- Remember the directory of a chosen file. -/
def rememberDir (sp : Prefs) (dir : Option Text) : Prefs :=
  dir.elim sp (sp.putString "IPath")

/-- Result 21: the file chosen for an import.  The directory is remembered, and
the import begins. -/
def importFile (env : Env) (ser : Serial) (a : MainActivity) (path : Text) :
    Option (MainActivity × HPStart × Job) :=
  if (".mhp" : Text).isSuffixOf path then do
    let data ← a.dev.fs.readFile (toPath a.dev.fs path)
    let m ← ser.read data
    let task ← importTask env a m
    pure ({ a with dev := ⟨a.dev.fs, rememberDir a.dev.sp (getParent path)⟩ }, task)
  else none

/-- The data of an intent. -/
structure Uri where
  /-- `toString()`. -/
  text : Text
  /-- `getPath()`, which may be null. -/
  path : Option Text

/-- `data_init` for an intent with data: the import it begins.  The extension is that of
`MimeTypeMap`. -/
def viewIntent (env : Env) (ser : Serial) (fileExtension : Text → Text) (a : MainActivity)
    (u : Uri) : Option (HPStart × Job) :=
  if fileExtension u.text = ("mhp" : Text) then do
    let path ← u.path
    let data ← a.dev.fs.readFile (toPath a.dev.fs path)
    let m ← ser.read data
    importTask env a m
  else none

/-- The object `d_8` builds. -/
def exportMhp (env : Env) (fs : Files) (name : Text) : MHP :=
  let part (p : Text) : Option Text :=
    some (DesUtils.encrypt env.des (FileTool.readSDFile fs (partFile env.filePath name p)))
  { name := some name, get := part getHp, post := part postHp, connection := part connectionHp }

/-- The files and the object with which `d_8` calls `writeObject`.  The target is
opened before the parts are read; if it cannot be opened nothing is written. -/
def exportObject (env : Env) (a : MainActivity) (path : Text) : Option (Files × MHP) :=
  (FileTool.openWrite env.st path a.dev.fs).map fun fs => (fs, exportMhp env fs a.nowName)

/-- `d_8`: export the clicked mode to a file.  The flag says whether success is
reported. -/
def exportMode (env : Env) (ser : Serial) (a : MainActivity) (path : Text) : Bool × Files :=
  match exportObject env a path with
  | none => (false, a.dev.fs)
  | some (fs, m) => FileTool.writeBytes env.st (ser.write m) path fs

/-! ## The list in the slots -/

/-- The loop counts and shows the names it reads. -/
theorem load_eq (env : Env) (d : Device) : ∀ (fuel i : Nat) (mData : List Text),
    load env d fuel i mData =
      (i + (namesFrom d.sp fuel i).length,
        mData ++ (namesFrom d.sp fuel i).map (titleOf d.fs env.filePath))
  | 0, i, mData => by simp [load, namesFrom]
  | fuel + 1, i, mData => by
      rw [load, namesFrom, slot, Prefs.getString]
      cases d.sp.getString? (modeKey i) with
      | none => simp
      | some str =>
          cases str with
          | nil => simp
          | cons c cs =>
              simp only [List.length_cons, Nat.lt_one_iff, Nat.succ_ne_zero,
                if_false, Option.getD_some, reduceCtorEq, load_eq env d fuel (i + 1),
                List.map_cons, List.append_assoc, List.singleton_append, Prod.mk.injEq, and_true]
              omega

/-- A default mode that is made has its GET part. -/
theorem makeDefault_made {env : Env} {fs fs' : Files} (h : makeDefault env fs = .made fs') :
    fs'.node (toPath fs' (partFile env.filePath defaultMode getHp)) ≠ none := by
  simp only [makeDefault] at h
  split at h
  · cases h
  · split at h
    · next h1 =>
      split at h
      · next h2 =>
        split at h
        · cases h
          simp only [copyPart, FileTool.toPath_copyFile]
          exact FileTool.node_copyFile_ne_none _ _ _ _
            (FileTool.node_copyFile_ne_none _ _ _ _ (FileTool.node_copyFile_self h1))
        · cases h
      · cases h
    · cases h

section RestoreNow

variable (a : MainActivity)

@[simp] theorem dev_restoreNow : (restoreNow a).dev = a.dev := by
  rw [restoreNow]
  split
  · rfl
  · rfl

@[simp] theorem i_restoreNow : (restoreNow a).i = a.i := by
  rw [restoreNow]
  split
  · rfl
  · rfl

@[simp] theorem mData_restoreNow : (restoreNow a).mData = a.mData := by
  rw [restoreNow]
  split
  · rfl
  · rfl

@[simp] theorem hstart_restoreNow : (restoreNow a).hstart = a.hstart := by
  rw [restoreNow]
  split
  · rfl
  · rfl

end RestoreNow

@[simp] theorem hstart_loadModes (env : Env) (inst : Device × Bool) :
    (loadModes env inst).hstart = inst.2 := by
  simp only [loadModes]
  split
  · split
    · exact hstart_restoreNow _
    · exact hstart_restoreNow _
    · rfl
  · exact hstart_restoreNow _

theorem installInit_of_marker {env : Env} {d : Device} {inst : Device × Bool}
    (h : installInit env d = some inst) (hinst : inst.2 = false) : inst = (d, false) := by
  obtain ⟨-, -, rfl⟩ := Option.map_eq_some_iff.mp h
  split
  · rfl
  · next hmark => simp [hmark] at hinst

/-- A start that goes on has come through `install_init`. -/
theorem onCreate_of_i_ne_zero {env : Env} {d : Device} (hi : (onCreate env d).i ≠ 0) :
    ∃ inst, installInit env d = some inst ∧ onCreate env d = loadModes env inst := by
  rw [onCreate] at hi ⊢
  split at hi
  · exact absurd rfl hi
  · next inst hinst => exact ⟨inst, hinst, rfl⟩

/-- A start with the version marker in place loads the list, or makes the
default mode. -/
theorem onCreate_cases {env : Env} {d : Device} {l : List Text} (hlists : Lists d.sp l)
    (hne : ∀ n ∈ l, n ≠ []) (hinst : (onCreate env d).hstart = false)
    (hi : (onCreate env d).i ≠ 0) :
    (l ≠ [] ∧ (onCreate env d).dev = d ∧ (onCreate env d).i = l.length ∧
        (onCreate env d).mData = l.map (titleOf d.fs env.filePath)) ∨
      (l = [] ∧ ∃ fs, makeDefault env d.fs = .made fs ∧
        (onCreate env d).dev = ⟨fs, putSlot d.sp 0 defaultMode⟩ ∧ (onCreate env d).i = 1 ∧
        (onCreate env d).mData = [defaultMode]) := by
  obtain ⟨inst, hinit, hload⟩ := onCreate_of_i_ne_zero hi
  rw [hload] at hinst hi ⊢
  rw [hstart_loadModes] at hinst
  obtain rfl := installInit_of_marker hinit hinst
  have hread : namesFrom d.sp d.sp.keys.length 0 = l := hlists.readBack_eq hne
  simp only [loadModes, load_eq, hread, Nat.zero_add, List.nil_append, and_true] at hi ⊢
  cases l with
  | cons n l => exact Or.inl ⟨by simp, by simp [unloaded]⟩
  | nil =>
      refine Or.inr ⟨rfl, ?_⟩
      simp only [List.length_nil, if_true, List.map_nil] at hi ⊢
      split at hi
      · next fs hmade => exact ⟨fs, hmade, by simp [appendMode, unloaded]⟩
      · exact absurd (i_restoreNow _) hi
      · exact absurd rfl hi

/-! ## What a start can stumble over -/

/-- The keys of the number and the flag that a start reads. -/
def typedKeys : List Text := ["now_i", newfixKey]

/-- The number and the flag that a start reads are stored as such. -/
def Typed (sp : Prefs) : Prop :=
  sp.getInt "now_i" 0 ≠ none ∧ sp.getBoolean newfixKey false ≠ none

theorem Typed.congr {sp sp' : Prefs} (h : Typed sp)
    (hget : ∀ key ∈ typedKeys, sp'.get key = sp.get key) : Typed sp' := by
  rw [Typed, Prefs.getInt, Prefs.getBoolean, hget "now_i" (by decide), hget newfixKey (by decide)]
  exact h

theorem Typed.putString {sp : Prefs} (h : Typed sp) {k : Text} (hk : k ∉ typedKeys) (s : Text) :
    Typed (sp.putString k s) :=
  h.congr fun key hkey => by
    rw [Prefs.get_putString, if_neg]
    rintro rfl
    exact hk hkey

theorem modeKey_not_mem_typedKeys (k : Nat) : modeKey k ∉ typedKeys := by
  intro h
  simp only [typedKeys, List.mem_cons, List.not_mem_nil, or_false] at h
  rcases h with h | h
  · exact ne_modeKey (by decide) k h.symm
  · exact ne_modeKey (by decide) k h.symm

theorem Typed.putSlot {sp : Prefs} (h : Typed sp) (k : Nat) (name : Text) :
    Typed (putSlot sp k name) :=
  h.putString (modeKey_not_mem_typedKeys k) name

/-- Deleting a mode keeps the types, unless the mode has the name of such a key. -/
theorem Typed.deleteSlots {sp : Prefs} (h : Typed sp) {i k : Nat} (hname : slot sp k ∉ typedKeys) :
    Typed (deleteSlots sp i k) := by
  rw [MainActivity.deleteSlots]
  split
  · refine (h.putString hname []).congr fun key hkey =>
      get_shiftDown_of_ne _ _ _ fun j _ _ hj => ?_
    exact modeKey_not_mem_typedKeys j (hj ▸ hkey)
  · exact h.putSlot k []

end MainActivity

/-- Deleting a mode removes it from the list in the slots, when its name is not
the key of another one. -/
theorem Lists.deleteSlots {sp : Prefs} {l : List Text} (h : Lists sp l) {k : Nat}
    (hk : k < l.length)
    (hkey : l.length = k + 1 ∨ ∀ j, j < l.length → j ≠ k → l[k] ≠ modeKey j) :
    Lists (MainActivity.deleteSlots sp l.length k) (l.eraseIdx k) := by
  rw [MainActivity.deleteSlots]
  by_cases hlast : l.length = k + 1
  · rw [if_neg (not_not.mpr hlast)]
    exact h.eraseIdx_last hlast
  · rw [if_pos hlast]
    have hname := hkey.resolve_left hlast
    -- Clearing the key changes at most the slot that is removed.
    have hcleared : Lists (sp.putString (slot sp k) [])
        (l.set k (slot (sp.putString (slot sp k) []) k)) := by
      intro j
      by_cases hj : j = k
      · rw [hj]
        simp [hk]
      · rw [List.getD_eq_getElem?_getD, List.getElem?_set_ne (Ne.symm hj),
          ← List.getD_eq_getElem?_getD, ← h j, slot_putString]
        split
        · next hjk =>
          have hend : l.length ≤ j := by
            by_contra hlt
            refine hname j (by omega) hj ?_
            rw [← h.slot_eq hk, hjk]
          exact (h.slot_end hend).symm
        · rfl
    have hmoved := hcleared.eraseIdx (j := k) (by simpa using hk)
    rw [List.length_set, List.eraseIdx_set_eq] at hmoved
    exact hmoved

theorem MainActivity.Typed.rememberDir {sp : Prefs} (h : Typed sp) (dir : Option Text) :
    Typed (rememberDir sp dir) := by
  cases dir with
  | none => exact h
  | some p => exact h.putString (by decide) p

theorem MainActivity.slot_rememberDir (sp : Prefs) (dir : Option Text) (k : Nat) :
    slot (rememberDir sp dir) k = slot sp k := by
  cases dir with
  | none => rfl
  | some p =>
      rw [rememberDir, Option.elim_some, slot_putString, if_neg]
      exact Ne.symm (ne_modeKey (by decide) k)

end HapAndroid
