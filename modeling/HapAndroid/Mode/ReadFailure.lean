import HapAndroid.Byml.MainActivity
import HapAndroid.Byml.Receiver

/-!
# Read failures

Three operations read files and make something of their texts: starting a mode
writes `run.cfg`, exporting a mode writes an object, and the receiver hands a
text to a root shell.  All read through `readSDFile`, which returns a text also
when the file cannot be read.

`allContents` is reading as it should be: the texts of the files, if all of them
can be read.  An operation is right if what it makes is made from `allContents`,
and if without them it makes nothing.  Each operation is so exactly when there is
nothing to tell apart, because every file it reads is readable or it reads none.
-/

namespace HapAndroid

/-! ## Actual contents -/

/-- The text of a file that can be read. -/
def contents (fs : Files) (fileName : Text) : Option Text :=
  (fs.readFile (toPath fs fileName)).map Utf8.decode

/-- The texts of some files, if all of them can be read. -/
def allContents (fs : Files) : List Text → Option (List Text)
  | [] => some []
  | f :: files => (contents fs f).bind fun t => (allContents fs files).map (t :: ·)

theorem contents_of_readable {fs : Files} {fileName : Text}
    (h : FileTool.readable fs fileName = true) :
    contents fs fileName = some (FileTool.readSDFile fs fileName) := by
  obtain ⟨data, hdata⟩ := FileTool.readable_iff.mp h
  rw [contents, fs.readFile_eq_some.mpr hdata, FileTool.readSDFile_of_node hdata]
  rfl

theorem contents_of_not_readable {fs : Files} {fileName : Text}
    (h : FileTool.readable fs fileName = false) : contents fs fileName = none := by
  rw [FileTool.readable, Option.isSome_eq_false_iff, Option.isNone_iff_eq_none] at h
  rw [contents, h]
  rfl

/-- For readable files `readSDFile` returns the contents. -/
theorem allContents_of_readable {fs : Files} {files : List Text}
    (h : ∀ f ∈ files, FileTool.readable fs f = true) :
    allContents fs files = some (files.map (FileTool.readSDFile fs)) := by
  induction files with
  | nil => rfl
  | cons f files ih =>
      rw [List.forall_mem_cons] at h
      rw [allContents, contents_of_readable h.1, ih h.2]
      rfl

theorem readable_of_allContents {fs : Files} {files texts : List Text}
    (h : allContents fs files = some texts) : ∀ f ∈ files, FileTool.readable fs f = true := by
  induction files generalizing texts with
  | nil => simp
  | cons f files ih =>
      rw [allContents] at h
      obtain ⟨t, ht, hrest⟩ := Option.bind_eq_some_iff.mp h
      obtain ⟨ts, hts, -⟩ := Option.map_eq_some_iff.mp hrest
      refine List.forall_mem_cons.mpr ⟨?_, ih hts⟩
      cases hf : FileTool.readable fs f with
      | true => rfl
      | false =>
          rw [contents_of_not_readable hf] at ht
          cases ht

/-! ## Starting a mode -/

/-- A start that succeeds writes the configuration made from the contents of the
six files, and one that fails writes and runs nothing. -/
def StartFromContents (con : Context) (des : Cipher) (st : Storage) (h : HPStart) (d : Device) :
    Prop :=
  let r := h.doInBackground con des st d .start
  (r.2.2 = .started ∧ ∃ texts,
      allContents d.fs (HPStart.startFiles h.filePath h.mName) = some texts ∧
      r.1.fs = (FileTool.writeSDFile st (HPStart.cfgText con d.sp texts)
        (inDir h.filePath runCfg) d.fs).2) ∨
    (r.2.2 = .nothing ∧ r.1 = d ∧ ∀ cmd, Effect.shell cmd ∉ r.2.1)

theorem startFromContents_iff (con : Context) (des : Cipher) (st : Storage) (h : HPStart)
    (d : Device) :
    StartFromContents con des st h d ↔
      h.isContinue = false ∨ isDirectory d.fs (inDir h.filePath h.mName) = false ∨
        ∀ f ∈ HPStart.startFiles h.filePath h.mName, FileTool.readable d.fs f = true := by
  cases hgo : h.isContinue with
  | false => simp [StartFromContents, HPStart.doInBackground, hgo]
  | true =>
      cases hdir : isDirectory d.fs (inDir h.filePath h.mName) with
      | false => simp [StartFromContents, HPStart.doInBackground, hgo, HPStart.runJob,
          HPStart.doStart, hdir]
      | true =>
          have hrun : h.doInBackground con des st d .start = h.doStart con st d := by
            rw [HPStart.doInBackground, if_pos hgo, HPStart.runJob]
          simp only [StartFromContents, hrun, HPStart.doStart, hdir, if_true]
          constructor
          · rintro (⟨-, texts, htexts, -⟩ | ⟨hres, -⟩)
            · exact Or.inr (Or.inr (readable_of_allContents htexts))
            · cases hres
          · rintro (hno | hno | hall)
            · cases hno
            · cases hno
            · exact Or.inl ⟨trivial, _, allContents_of_readable hall, rfl⟩

/-! ## Exporting a mode -/

/-- The parts of an exported mode are the encrypted contents of its files. -/
def ExportFromContents (env : Env) (a : MainActivity) (path : Text) : Prop :=
  ∀ fs m, MainActivity.exportObject env a path = some (fs, m) →
    ∃ connection get post,
      allContents fs (parts.map (partFile env.filePath a.nowName)) = some [connection, get, post] ∧
      m = { name := some a.nowName, get := some (DesUtils.encrypt env.des get),
            post := some (DesUtils.encrypt env.des post),
            connection := some (DesUtils.encrypt env.des connection) }

theorem exportFromContents_iff (env : Env) (a : MainActivity) (path : Text) :
    ExportFromContents env a path ↔
      ∀ fs, FileTool.openWrite env.st path a.dev.fs = some fs →
        ∀ part ∈ parts, FileTool.readable fs (partFile env.filePath a.nowName part) = true := by
  constructor
  · intro h fs hopen
    have hobj : MainActivity.exportObject env a path =
        some (fs, MainActivity.exportMhp env fs a.nowName) := by
      rw [MainActivity.exportObject, hopen]
      rfl
    obtain ⟨_, _, _, hall, -⟩ := h _ _ hobj
    exact fun part hpart => readable_of_allContents hall _ (List.mem_map_of_mem hpart)
  · intro h fs m hobj
    obtain ⟨fs', hopen, heq⟩ := Option.map_eq_some_iff.mp hobj
    cases heq
    refine ⟨_, _, _, allContents_of_readable ?_, rfl⟩
    intro f hf
    obtain ⟨part, hpart, rfl⟩ := List.mem_map.mp hf
    exact h fs hopen part hpart

/-! ## Starting with the device -/

/-- The text handed to the root shell is made from the contents of the scripts. -/
def BootFromContents (con : Context) (filePath : Text) (d : Device) : Prop :=
  ∀ task sh, onReceive con filePath d = some (task, sh) → hasScript (sshell d.sp) = true →
    ∃ texts, allContents d.fs ((bootNames (sshell d.sp)).map (scriptFile filePath)) = some texts ∧
      sh = bootText con d.sp texts

theorem bootFromContents_iff (con : Context) (filePath : Text) (d : Device) :
    BootFromContents con filePath d ↔
      d.sp.getBoolean isStartKey false ≠ some true ∨
        ∀ name ∈ bootNames (sshell d.sp),
          FileTool.readable d.fs (scriptFile filePath name) = true := by
  by_cases hstart : d.sp.getBoolean isStartKey false = some true
  · cases hsh : hasScript (sshell d.sp) with
    | false => simp [BootFromContents, hsh, bootNames]
    | true =>
        simp only [BootFromContents, onReceive, hstart, hsh, if_true, Option.some.injEq,
          Prod.mk.injEq, forall_const, ne_eq, not_true_eq_false, false_or]
        constructor
        · intro h name hname
          obtain ⟨texts, hall, -⟩ := h _ _ ⟨rfl, rfl⟩
          exact readable_of_allContents hall _ (List.mem_map_of_mem hname)
        · rintro h task sh ⟨-, rfl⟩
          refine ⟨_, allContents_of_readable ?_, ?_⟩
          · intro f hf
            obtain ⟨name, hname, rfl⟩ := List.mem_map.mp hf
            exact h name hname
          · rw [List.map_map]
            rfl
  · simp [BootFromContents, onReceive, hstart]

/-! ## The three operations -/

/-- Nothing is made from a failed read exactly when each operation reads nothing,
or only files that can be read. -/
theorem read_failure_iff (env : Env) (h : HPStart) (a : MainActivity) (path : Text) (d : Device) :
    (StartFromContents env.con env.des env.st h d ↔
      h.isContinue = false ∨ isDirectory d.fs (inDir h.filePath h.mName) = false ∨
        ∀ f ∈ HPStart.startFiles h.filePath h.mName, FileTool.readable d.fs f = true) ∧
    (ExportFromContents env a path ↔
      ∀ fs, FileTool.openWrite env.st path a.dev.fs = some fs →
        ∀ part ∈ parts, FileTool.readable fs (partFile env.filePath a.nowName part) = true) ∧
    (BootFromContents env.con env.filePath d ↔
      d.sp.getBoolean isStartKey false ≠ some true ∨
        ∀ name ∈ bootNames (sshell d.sp),
          FileTool.readable d.fs (scriptFile env.filePath name) = true) :=
  ⟨startFromContents_iff env.con env.des env.st h d, exportFromContents_iff env a path,
    bootFromContents_iff env.con env.filePath d⟩

/-- A mode `a` and a template directory without any files, and auto-start of the
script of the rules. -/
def unreadable : Device where
  fs := FileTree.ofDirs [[("d" : Text)], ["d", "a"], ["d", modeName]]
  sp := (enableAutoStart "/d" "cd /d" true false .empty).getD .empty

/-- The task that starts the mode `a`. -/
def startA : HPStart := { filePath := "/d", mName := "a", isAdd := false }

/-- The exception is written to `run.cfg`, exported as the GET part, and handed to
the root shell. -/
theorem exception_text_used :
    (startA.doInBackground .bare .plain .sound unreadable .start).2.2 = .started ∧
      ((startA.doInBackground .bare .plain .sound unreadable .start).1.fs.readFile
          [("d" : Text), runCfg]).map
        (Pattern.occurs (Pattern.literal (Utf8.encode FileTool.exceptionName))) = some true ∧
      ((MainActivity.exportObject .plain
          { MainActivity.blank unreadable.fs with nowName := "a" } "/d/x").bind
        fun p => DesUtils.decrypt .plain p.2.get).map (containsText · FileTool.exceptionName) =
          some true ∧
      (onReceive .bare "/d" unreadable).map (fun p => containsText p.2 FileTool.exceptionName) =
        some true := by
  decide +kernel

end HapAndroid
