import HapAndroid.Mode.Slots
import HapAndroid.Tool.DesUtils
import HapAndroid.Tool.FileTool
import HapAndroid.Tool.SuperUser

/-!
# `HPStart`

The background task behind every action on a mode.  A task is created with a
mode name, prepared on the UI thread by `onPreExecute`, worked on in the
background by `doInBackground`, and reported on the UI thread by
`onPostExecute`.  For a new mode (`is_add` and not `is_save`) the preparation
makes the directory and writes the mode's name into its numbered preference.
The job is one of four: start a mode, save the three parts of a mode, import
them from an MHP object, run a script.

The task only touches the device, its files and preferences.  What it shows and
runs is collected as a list of effects.
-/

namespace HapAndroid

/-- What survives a restart of the application. -/
structure Device where
  fs : Files
  sp : Prefs

/-- The name of an entry of a directory. -/
def inDir (d n : Text) : Text := d ++ '/' :: n

theorem toPath_inDir {fs : Files} {n : Text} (h : PlainName n) (d : Text) :
    toPath fs (inDir d n) = toPath fs d ++ [n] :=
  toPath_concat h d

/-! ## File names -/

def connectionHp : Text := "connection.hp"
def getHp : Text := "get.hp"
def postHp : Text := "post.hp"
def globalHp : Text := "global.hp"
def defaultsHp : Text := "defaults.hp"
def frontendHp : Text := "frontend.hp"
def modeName : Text := "mode"
def runCfg : Text := "run.cfg"

/-- The parts of a mode, in the order they are written. -/
def parts : List Text := [connectionHp, getHp, postHp]

theorem plain_of_mem_parts : ∀ part ∈ parts, PlainName part := by decide

theorem plain_getHp : PlainName getHp := plain_of_mem_parts getHp (by decide)

/-- The file of one part of a mode. -/
def partFile (filePath mName part : Text) : Text := inDir (inDir filePath mName) part

theorem toPath_partFile {fs : Files} {part : Text} (h : PlainName part) (filePath mName : Text) :
    toPath fs (partFile filePath mName part) = toPath fs (inDir filePath mName) ++ [part] :=
  toPath_inDir h _

/-! ## Tasks -/

/-- What a task shows, and the commands it hands to a shell. -/
inductive Effect where
  | progress (percent : Nat)
  | line (text : Text)
  /-- The text of an exception. -/
  | exception
  | shell (cmd : Text)
deriving DecidableEq

/-- The result text of `doInBackground`. -/
inductive Result where
  /-- `""` -/
  | nothing
  /-- `"1"` -/
  | saved
  /-- `"2"` -/
  | started
  /-- `"3"` -/
  | imported
  /-- `"4"` -/
  | ran
  /-- The text of an exception. -/
  | error
deriving DecidableEq

/-- The arguments of `execute`. -/
inductive Job where
  | start
  | save (s1 s2 s3 : Text)
  | mhp (connection get post : Option Text)
  | sh

/-- A task. -/
structure HPStart where
  filePath : Text
  mName : Text
  isAdd : Bool
  ipos : Nat := 0
  isSave : Bool := false
  isContinue : Bool := true
  /-- Whether `setHandler` was called. -/
  hasHandler : Bool := false
deriving DecidableEq

/-- A message to the handler of the activity that created the task. -/
inductive Message where
  /-- `what = 0`, a mode was saved. -/
  | saved (mName : Text)
  /-- `what = 2`, a mode was imported. -/
  | imported (mName : Text)
deriving DecidableEq

/-- What `onPostExecute` does. -/
inductive Post where
  | none
  | send (m : Message)
  /-- The handler is null. -/
  | crash
deriving DecidableEq

namespace HPStart

/-- A text in red. -/
def red (s : Text) : Text := ("<font color='#ff0000'>" : Text) ++ s ++ ("</font>" : Text)

/-- `onPreExecute`: the task, the device and the lines shown. -/
def onPreExecute (h : HPStart) (st : Storage) (d : Device) : HPStart × Device × List Effect :=
  if h.isAdd && !h.isSave then
    match mkdirs st d.fs (inDir h.filePath h.mName) with
    | (true, fs) => (h, ⟨fs, putSlot d.sp h.ipos h.mName⟩, [])
    | (false, fs) =>
        ({ h with isContinue := false }, ⟨fs, d.sp⟩,
          [.line (red (("目录:" : Text) ++ h.mName ++
            (" 创建失败 !请检测是否有相同文件模式 ！" : Text)))])
  else (h, d, [])

/-! ## The jobs -/

/-- The six files a start reads: the three parts of the mode and the three
general parts. -/
def startFiles (filePath mName : Text) : List Text :=
  [partFile filePath mName connectionHp, partFile filePath mName getHp,
    partFile filePath mName postHp, partFile filePath modeName globalHp,
    partFile filePath modeName defaultsHp, partFile filePath modeName frontendHp]

/-- The configuration text made from the six texts `startFiles` names. -/
def cfgText (con : Context) (sp : Prefs) : List Text → Text
  | [s1, s2, s3, sg, sd, sf] =>
      let r (s : Text) : Text := SuperUser.replaceCode con s sp ++ ['\n']
      r sg ++ r sd ++ r sf ++ r s2 ++ r s3 ++ r s1
  | _ => []

def stopCmd (filePath : Text) (sp : Prefs) : Text :=
  sp.getString "_stop" (("cd " : Text) ++ filePath ++ ("\n./H-stop ./haproxy.pid\n" : Text))

def startCmd (filePath : Text) (sp : Prefs) : Text :=
  sp.getString "_start" (("cd " : Text) ++ filePath ++ ("\n./H-start " : Text) ++ filePath ++
    (" ./haproxy.pid\n" : Text))

/-- Start a mode: write `run.cfg`, run the stop command and the start
command. -/
def doStart (h : HPStart) (con : Context) (st : Storage) (d : Device) :
    Device × List Effect × Result :=
  if isDirectory d.fs (inDir h.filePath h.mName) then
    let texts := (startFiles h.filePath h.mName).map (FileTool.readSDFile d.fs)
    let fs := (FileTool.writeSDFile st (cfgText con d.sp texts) (inDir h.filePath runCfg) d.fs).2
    (⟨fs, d.sp⟩,
      [.progress 20, .line (("\t\t正在启动模式:" : Text) ++ red h.mName ++ ['\n']), .progress 40,
        .progress 50, .shell (stopCmd h.filePath d.sp), .progress 60, .progress 70,
        .shell (startCmd h.filePath d.sp), .progress 80, .progress 100],
      .started)
  else
    (d,
      [.progress 20, .line (("\t\t模式:" : Text) ++ red h.mName ++
        ("文件不存在，启动失败！\n" : Text)), .progress 100],
      .nothing)

/-- Save the three parts.  The flags of the writes are dropped. -/
def doSave (h : HPStart) (st : Storage) (s1 s2 s3 : Text) (d : Device) :
    Device × List Effect × Result :=
  let fs1 := (FileTool.writeSDFile st s1 (partFile h.filePath h.mName connectionHp) d.fs).2
  let fs2 := (FileTool.writeSDFile st s2 (partFile h.filePath h.mName getHp) fs1).2
  let fs3 := (FileTool.writeSDFile st s3 (partFile h.filePath h.mName postHp) fs2).2
  (⟨fs3, d.sp⟩, [.progress 30, .progress 60, .progress 100], .saved)

/-- Decrypt one part and write it.  `none` is an exception of the decryption. -/
def importPart (h : HPStart) (des : Cipher) (st : Storage) (p : Option Text) (part : Text)
    (fs : Files) : Option Files :=
  (DesUtils.decrypt des p).map fun s =>
    (FileTool.writeSDFile st s (partFile h.filePath h.mName part) fs).2

/-- Import the three parts, up to the first exception. -/
def doMhp (h : HPStart) (des : Cipher) (st : Storage) (connection get post : Option Text)
    (d : Device) : Device × List Effect × Result :=
  match importPart h des st connection connectionHp d.fs with
  | none => (d, [.exception], .error)
  | some fs1 =>
      match importPart h des st get getHp fs1 with
      | none => (⟨fs1, d.sp⟩, [.progress 30, .exception], .error)
      | some fs2 =>
          match importPart h des st post postHp fs2 with
          | none => (⟨fs2, d.sp⟩, [.progress 30, .progress 60, .exception], .error)
          | some fs3 => (⟨fs3, d.sp⟩, [.progress 30, .progress 60, .progress 100], .imported)

/-- The copy of a script that is run, with its placeholders replaced. -/
def runSh (mName : Text) : Text := mName ++ ("_run_sh.sh" : Text)

/-- Run a script. -/
def doSh (h : HPStart) (con : Context) (st : Storage) (d : Device) :
    Device × List Effect × Result :=
  let sh := SuperUser.replaceCode con (FileTool.readSDFile d.fs (inDir h.filePath h.mName)) d.sp
  let fs := (FileTool.writeSDFile st sh (inDir h.filePath (runSh h.mName)) d.fs).2
  (⟨fs, d.sp⟩,
    [.line (("\t\t正在启动脚本:" : Text) ++ red h.mName ++ ['\n']), .progress 20, .progress 50,
      .shell (("cd " : Text) ++ h.filePath ++ ("\nsh ./" : Text) ++ runSh h.mName ++ ['\n']),
      .progress 80, .progress 100],
    .ran)

/-- The job of a task that goes on. -/
def runJob (h : HPStart) (con : Context) (des : Cipher) (st : Storage) (d : Device) :
    Job → Device × List Effect × Result
  | .start => doStart h con st d
  | .save s1 s2 s3 => doSave h st s1 s2 s3 d
  | .mhp connection get post => doMhp h des st connection get post d
  | .sh => doSh h con st d

/-- `doInBackground`. -/
def doInBackground (h : HPStart) (con : Context) (des : Cipher) (st : Storage) (d : Device)
    (job : Job) : Device × List Effect × Result :=
  if h.isContinue then runJob h con des st d job else (d, [], .nothing)

/-- `onPostExecute`. -/
def onPostExecute (h : HPStart) : Result → Post
  | .saved => if h.hasHandler then .send (.saved h.mName) else .crash
  | .imported => if h.hasHandler then .send (.imported h.mName) else .crash
  | _ => .none

/-! ## What the preparation does -/

/-- For a new mode the preparation either makes the directory and registers the
name, or stops the task, with the directories it could make on the way. -/
theorem onPreExecute_add {h : HPStart} (st : Storage) (d : Device) (ha : h.isAdd = true)
    (hs : h.isSave = false) :
    ∃ fs, (mkdirs st d.fs (inDir h.filePath h.mName) = (true, fs) ∧
        (h.onPreExecute st d).1 = h ∧
        (h.onPreExecute st d).2.1 = ⟨fs, putSlot d.sp h.ipos h.mName⟩) ∨
      (mkdirs st d.fs (inDir h.filePath h.mName) = (false, fs) ∧
        (h.onPreExecute st d).1 = { h with isContinue := false } ∧
        (h.onPreExecute st d).2.1 = ⟨fs, d.sp⟩) := by
  rw [onPreExecute, ha, hs]
  rcases hm : mkdirs st d.fs (inDir h.filePath h.mName) with ⟨ok, fs⟩
  cases ok with
  | true => exact ⟨fs, Or.inl ⟨rfl, rfl, rfl⟩⟩
  | false => exact ⟨fs, Or.inr ⟨rfl, rfl, rfl⟩⟩

/-- Otherwise it changes nothing. -/
theorem onPreExecute_other {h : HPStart} (st : Storage) (d : Device)
    (hs : h.isAdd = false ∨ h.isSave = true) : h.onPreExecute st d = (h, d, []) := by
  rcases hs with ha | hs
  · simp [onPreExecute, ha]
  · simp [onPreExecute, hs]

/-! ## What the jobs do to the device -/

/-- No job writes a preference. -/
theorem sp_runJob (h : HPStart) (con : Context) (des : Cipher) (st : Storage) (d : Device)
    (job : Job) : (h.runJob con des st d job).1.sp = d.sp := by
  cases job with
  | start =>
      simp only [runJob, doStart]
      split
      · rfl
      · rfl
  | save s1 s2 s3 => rfl
  | mhp connection get post =>
      simp only [runJob, doMhp]
      split
      · rfl
      · split
        · rfl
        · split
          · rfl
          · rfl
  | sh => rfl

theorem sp_doInBackground (h : HPStart) (con : Context) (des : Cipher) (st : Storage)
    (d : Device) (job : Job) : (h.doInBackground con des st d job).1.sp = d.sp := by
  rw [doInBackground]
  split
  · exact sp_runJob h con des st d job
  · rfl

/-- What the write of each part keeps, an import keeps. -/
theorem doMhp_invariant {I : Files → Prop} {h : HPStart} {st : Storage} (des : Cipher)
    (connection get post : Option Text) {d : Device}
    (hstep : ∀ part ∈ parts, ∀ s fs, I fs →
      I (FileTool.writeSDFile st s (partFile h.filePath h.mName part) fs).2) (hd : I d.fs) :
    I (h.doMhp des st connection get post d).1.fs := by
  have hpart : ∀ part ∈ parts, ∀ {p fs fs'}, importPart h des st p part fs = some fs' →
      I fs → I fs' := by
    intro part hmem p fs fs' himport hfs
    obtain ⟨s, -, rfl⟩ := Option.map_eq_some_iff.mp himport
    exact hstep part hmem s fs hfs
  simp only [doMhp]
  split
  · exact hd
  · next fs1 h1 =>
    have hfs1 := hpart connectionHp (by simp [parts]) h1 hd
    split
    · exact hfs1
    · next fs2 h2 =>
      have hfs2 := hpart getHp (by simp [parts]) h2 hfs1
      split
      · exact hfs2
      · next fs3 h3 => exact hpart postHp (by simp [parts]) h3 hfs2

/-- The files of the parts are written to existing directories, so no path name
changes. -/
@[simp] theorem toPath_doMhp (h : HPStart) (des : Cipher) (st : Storage)
    (connection get post : Option Text) (d : Device) (s : Text) :
    toPath (h.doMhp des st connection get post d).1.fs s = toPath d.fs s :=
  doMhp_invariant (I := fun fs => toPath fs s = toPath d.fs s) des connection get post
    (fun _ _ _ fs hfs => (FileTool.toPath_writeSDFile st _ _ fs s).trans hfs) rfl

theorem doMhp_keeps (h : HPStart) (des : Cipher) (st : Storage) (connection get post : Option Text)
    (d : Device) {q : List Text} (hq : d.fs.node q ≠ none) :
    (h.doMhp des st connection get post d).1.fs.node q ≠ none :=
  doMhp_invariant (I := fun fs => fs.node q ≠ none) des connection get post
    (fun _ _ _ fs hfs => FileTool.node_writeBytes_ne_none st _ _ fs hfs) hq

/-- An import writes the files of the three parts, and no other. -/
theorem doMhp_only (h : HPStart) (des : Cipher) (st : Storage) (connection get post : Option Text)
    (d : Device) {q : List Text}
    (hq : ∀ part ∈ parts, q ≠ toPath d.fs (partFile h.filePath h.mName part)) :
    (h.doMhp des st connection get post d).1.fs.node q = d.fs.node q := by
  refine (doMhp_invariant (I := fun fs => (∀ s, toPath fs s = toPath d.fs s) ∧
    fs.node q = d.fs.node q) des connection get post ?_ ⟨fun _ => rfl, rfl⟩).2
  intro part hmem str fs hfs
  refine ⟨fun s => (FileTool.toPath_writeSDFile st str _ fs s).trans (hfs.1 s), ?_⟩
  exact (FileTool.node_writeBytes_of_ne st _ fs (by rw [hfs.1]; exact hq part hmem)).trans hfs.2

/-- No job removes a file. -/
theorem doInBackground_keeps (h : HPStart) (con : Context) (des : Cipher) (st : Storage)
    (d : Device) (job : Job) {q : List Text} (hq : d.fs.node q ≠ none) :
    (h.doInBackground con des st d job).1.fs.node q ≠ none := by
  rw [doInBackground]
  split
  · cases job with
    | start =>
        simp only [runJob, doStart]
        split
        · exact FileTool.node_writeBytes_ne_none st _ _ d.fs hq
        · exact hq
    | save s1 s2 s3 =>
        have hq1 := FileTool.node_writeBytes_ne_none st (Utf8.encode s1)
          (partFile h.filePath h.mName connectionHp) d.fs hq
        have hq2 := FileTool.node_writeBytes_ne_none st (Utf8.encode s2)
          (partFile h.filePath h.mName getHp) _ hq1
        exact FileTool.node_writeBytes_ne_none st _ _ _ hq2
    | mhp connection get post => exact doMhp_keeps h des st connection get post d hq
    | sh => exact FileTool.node_writeBytes_ne_none st _ _ d.fs hq
  · exact hq

end HPStart

end HapAndroid
