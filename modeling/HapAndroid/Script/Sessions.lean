import HapAndroid.Byml.EditFile
import HapAndroid.Lib.Run
import HapAndroid.Tool.Shell

/-!
# Sessions of the script editor

The first half is about one button.  After a save its script is in the file the
button reads, whatever the name, and a click runs a copy of it if a shell takes
the name for one word.  The next opening shows the script when the three ways
from a name to a file agree, which they do for names without `.sh`, and when the
content is not taken for the text of an exception.

The second half is about the other buttons.  All scripts are in one directory,
and a save deletes one file and writes another.  `WellNamed` says that the
buttons run different files and that opening a button opens the file it runs.
The sessions with a name that is new in this sense keep it (`WellNamed.step`), and
then touch the file of their own button only.
-/

namespace HapAndroid.Button

variable {filePath : Text}

/-! ## One button -/

theorem storedName_putString (sp : Prefs) (b : Button) (name : Text) :
    b.storedName (sp.putString b.shName name) = name :=
  Prefs.getString_putString_self ..

theorem storedName_putString_of_ne (sp : Prefs) {b c : Button} (h : c ≠ b) (name : Text) :
    c.storedName (sp.putString b.shName name) = c.storedName sp :=
  Prefs.getString_putString_of_ne _ _ _ (shName_ne h)

/-- The file a session writes. -/
theorem saveFile_type (st : Storage) (d : Device) (b : Button) (name content : Text) :
    ((b.openEditor filePath st d).1.type name content).filePath ++
        ((b.openEditor filePath st d).1.type name content).saveName =
      scriptFile filePath (if b.isDiy then name ++ dotSh else b.defaultName) := by
  rw [← mode_append]
  cases hb : b.isDiy with
  | true => simp [EditFile.saveName, EditFile.type, openEditor, EditFile.init, onLongClick, hb]
  | false => simp [EditFile.saveName, EditFile.type, openEditor, EditFile.init, onLongClick, hb]

theorem sp_saveSession (st : Storage) (d : Device) (b : Button) (name content : Text) :
    (b.saveSession filePath st d name content).2.sp =
      d.sp.putString b.shName (if b.isDiy then name else b.defaultName) := by
  cases hb : b.isDiy with
  | true =>
      simp [saveSession, openEditor, EditFile.save, EditFile.type, EditFile.init, onLongClick, hb]
  | false =>
      simp [saveSession, openEditor, EditFile.save, EditFile.type, EditFile.init, onLongClick, hb]

/-- The file a session writes is that of the script its button runs after it. -/
theorem runName_saveSession (st : Storage) (d : Device) (b : Button) (name content : Text) :
    b.runName (b.saveSession filePath st d name content).2.sp =
      if b.isDiy then name ++ dotSh else b.defaultName := by
  rw [runName, sp_saveSession, storedName_putString]
  cases b.isDiy with
  | true => rfl
  | false => rfl

/-- Before a session the files are those the editor opens, up to the opened one. -/
theorem node_saveSession_of_ne {b : Button} {st : Storage} {d : Device} {name content : Text}
    {q : List Text} (hopen : q ≠ b.openPath filePath d)
    (hsave : q ≠ toPath d.fs (scriptFile filePath
      (if b.isDiy then name ++ dotSh else b.defaultName))) :
    (b.saveSession filePath st d name content).2.fs.node q = d.fs.node q := by
  refine Eq.trans (EditFile.node_save_of_ne ?_ ?_) (EditFile.node_init_of_ne hopen)
  · rw [openEditor, EditFile.toPath_init]
    exact hopen
  · rw [saveFile_type, openEditor, EditFile.toPath_init]
    exact hsave

/-- A session removes at most the directory that was opened. -/
theorem dir_of_saveSession {b : Button} {st : Storage} {d : Device} {name content : Text}
    {q : List Text} (h : (b.saveSession filePath st d name content).2.fs.node q = some .dir) :
    d.fs.node q = some .dir :=
  (EditFile.dir_init_iff st _ d q).mp (EditFile.dir_of_save h)

section NoDirectory

variable {b : Button} {d : Device} (hopen : d.fs.node (b.openPath filePath d) ≠ some .dir)

include hopen

theorem not_dir_openEditor (st : Storage) :
    (b.openEditor filePath st d).2.fs.node (toPath (b.openEditor filePath st d).2.fs
      ((b.openEditor filePath st d).1.filePath ++ (b.openEditor filePath st d).1.fileName)) ≠
        some .dir := by
  rw [openEditor, EditFile.toPath_init, ne_eq, EditFile.dir_init_iff]
  exact hopen

/-- A session that opened no directory changes no path name. -/
theorem toPath_saveSession (st : Storage) (name content s : Text) :
    toPath (b.saveSession filePath st d name content).2.fs s = toPath d.fs s := by
  have hsave := EditFile.toPath_save
    (e := (b.openEditor filePath st d).1.type name content) (not_dir_openEditor hopen st) st s
  exact hsave.trans (EditFile.toPath_init st _ d s)

end NoDirectory

/-- Whether the click of a button can write the copy of its script. -/
def copies (filePath : Text) (con : Context) (st : Storage) (d : Device) (b : Button) : Bool :=
  (FileTool.writeSDFile st (SuperUser.replaceCode con
    (FileTool.readSDFile d.fs (scriptFile filePath (b.runName d.sp))) d.sp)
    (scriptFile filePath (HPStart.runSh (b.runName d.sp))) d.fs).1

/-- A device with the template directory. -/
def templateDevice : Device := ⟨FileTree.ofDirs [[("d" : Text)], ["d", modeName]], .empty⟩

/-- A session of the editor that ends with a save. -/
structure SaveEvent where
  button : Button
  name : Text
  content : Text
  st : Storage

/-- The device after a session, with the write succeeding or not. -/
def step (filePath : Text) (d : Device) (e : SaveEvent) : Option Device :=
  some (e.button.saveSession filePath e.st d e.name e.content).2

/-- The buttons run different files, and the file a button runs is the one its
editor opens. -/
structure WellNamed (filePath : Text) (d : Device) : Prop where
  diy : ∀ b : Button, b.isDiy = true → containsText (b.storedName d.sp) dotSh = false
  fixed : ∀ b : Button, b.isDiy = false → b.storedName d.sp = b.defaultName
  distinct : ∀ b c : Button, b ≠ c → b.scriptPath filePath d ≠ c.scriptPath filePath d

/-- A session that gives its script a name without `.sh` whose file no other
button runs. -/
def NewName (filePath : Text) (d : Device) (e : SaveEvent) : Prop :=
  e.button.isDiy = true → containsText e.name dotSh = false ∧
    ∀ c : Button, c ≠ e.button →
      toPath d.fs (scriptFile filePath (e.name ++ dotSh)) ≠ c.scriptPath filePath d

/-- The file a session opens is the one the button runs. -/
theorem WellNamed.openPath_eq {d : Device} (h : WellNamed filePath d) (b : Button) :
    b.openPath filePath d = b.scriptPath filePath d := by
  rw [openPath, scriptPath_eq, ← mode_append, runName]
  cases hb : b.isDiy with
  | true => simp [onLongClick, EditFile.openName, hb, h.diy b hb]
  | false => simp [onLongClick, EditFile.openName, hb, h.fixed b hb]

theorem runName_saveSession_of_ne {b c : Button} (hc : c ≠ b) (st : Storage) (d : Device)
    (name content : Text) :
    c.runName (b.saveSession filePath st d name content).2.sp = c.runName d.sp := by
  rw [runName, runName, sp_saveSession, storedName_putString_of_ne _ hc]

/-- The file a session writes belongs to no other button. -/
theorem WellNamed.written_ne {d : Device} {e : SaveEvent} (h : WellNamed filePath d)
    (he : NewName filePath d e) {c : Button} (hc : c ≠ e.button) :
    c.scriptPath filePath d ≠ toPath d.fs (scriptFile filePath
      (if e.button.isDiy then e.name ++ dotSh else e.button.defaultName)) := by
  cases hb : e.button.isDiy with
  | true => exact Ne.symm ((he hb).2 c hc)
  | false =>
      have hown : e.button.scriptPath filePath d =
          toPath d.fs (scriptFile filePath e.button.defaultName) := by
        simp [scriptPath_eq, runName, hb, h.fixed _ hb]
      simp only [Bool.false_eq_true, if_false]
      rw [← hown]
      exact h.distinct c e.button hc

theorem WellNamed.node_saveSession {d : Device} {e : SaveEvent} (h : WellNamed filePath d)
    (he : NewName filePath d e) {c : Button} (hc : c ≠ e.button) :
    (e.button.saveSession filePath e.st d e.name e.content).2.fs.node
      (c.scriptPath filePath d) = d.fs.node (c.scriptPath filePath d) := by
  refine node_saveSession_of_ne ?_ (h.written_ne he hc)
  rw [h.openPath_eq]
  exact h.distinct c e.button hc

theorem WellNamed.step (d : Device) (e : SaveEvent) (d' : Device) (h : WellNamed filePath d)
    (he : NewName filePath d e) (hstep : Button.step filePath d e = some d') :
    WellNamed filePath d' := by
  rw [Button.step, Option.some.injEq] at hstep
  subst hstep
  refine ⟨?_, ?_, ?_⟩
  · intro b hb
    rw [sp_saveSession]
    by_cases hbe : b = e.button
    · subst hbe
      rw [storedName_putString, if_pos hb]
      exact (he hb).1
    · rw [storedName_putString_of_ne _ hbe]
      exact h.diy b hb
  · intro b hb
    rw [sp_saveSession]
    by_cases hbe : b = e.button
    · subst hbe
      rw [storedName_putString, hb]
      rfl
    · rw [storedName_putString_of_ne _ hbe]
      exact h.fixed b hb
  · intro b c hbc
    -- a directory may be gone with the session, and paths that differ still do
    rw [scriptPath_eq, scriptPath_eq]
    refine toPath_ne_of_fewer (fun _ => dir_of_saveSession) ?_
    by_cases hbe : b = e.button
    · subst hbe
      rw [runName_saveSession, runName_saveSession_of_ne hbc.symm]
      exact (h.written_ne he hbc.symm).symm
    · rw [runName_saveSession_of_ne hbe]
      by_cases hce : c = e.button
      · subst hce
        rw [runName_saveSession]
        exact h.written_ne he hbe
      · rw [runName_saveSession_of_ne hce]
        exact h.distinct b c hbc

/-- In every run of sessions with new names, each session changes neither the
name nor the content of the script another button runs.  The name also stands for
the same file afterwards, unless the session opened a directory, which saving
deletes. -/
theorem other_scripts_unchanged {d₀ d : Device} {es : List SaveEvent} {e : SaveEvent}
    (hstart : WellNamed filePath d₀) (hes : Run.Along (Button.step filePath) (NewName filePath) d₀ es)
    (hrun : Run.run (Button.step filePath) d₀ es = some d) (he : NewName filePath d e)
    {c : Button} (hc : c ≠ e.button) :
    c.runName (e.button.saveSession filePath e.st d e.name e.content).2.sp = c.runName d.sp ∧
      (e.button.saveSession filePath e.st d e.name e.content).2.fs.node
        (c.scriptPath filePath d) = d.fs.node (c.scriptPath filePath d) ∧
      (d.fs.node (e.button.scriptPath filePath d) ≠ some .dir →
        c.scriptPath filePath (e.button.saveSession filePath e.st d e.name e.content).2 =
          c.scriptPath filePath d) := by
  have h : WellNamed filePath d := Run.run_invariant_of WellNamed.step es hstart hes hrun
  have hname : c.runName (e.button.saveSession filePath e.st d e.name e.content).2.sp =
      c.runName d.sp := runName_saveSession_of_ne hc e.st d e.name e.content
  refine ⟨hname, h.node_saveSession he hc, fun hfile => ?_⟩
  rw [scriptPath_eq, scriptPath_eq, hname]
  rw [← h.openPath_eq] at hfile
  exact toPath_saveSession hfile e.st e.name e.content _

theorem wellNamed_templateDevice : WellNamed "/d" templateDevice := by
  have hdiy : ∀ b ∈ all, b.isDiy = true →
      containsText (b.storedName templateDevice.sp) dotSh = false := by decide +kernel
  have hfixed : ∀ b ∈ all, b.isDiy = false →
      b.storedName templateDevice.sp = b.defaultName := by decide +kernel
  have hdistinct : ∀ b ∈ all, ∀ c ∈ all, b ≠ c →
      b.scriptPath "/d" templateDevice ≠ c.scriptPath "/d" templateDevice := by decide +kernel
  exact ⟨fun b => hdiy b (mem_all b), fun b => hfixed b (mem_all b),
    fun b c => hdistinct b (mem_all b) c (mem_all c)⟩

/-- A session with a name no button uses, on a new device, after one more of its
kind. -/
theorem other_scripts_unchanged_two_sessions :
    let d := (diy1.saveSession "/d" .sound templateDevice "a" "echo").2
    (diy2.saveSession "/d" .sound d "b" "exit").2.fs.node (diy1.scriptPath "/d" d) =
      some (.file (Utf8.encode "echo")) := by
  have hnew : ∀ (d : Device) (e : SaveEvent), containsText e.name dotSh = false →
      (∀ c ∈ all, c ≠ e.button →
        toPath d.fs (scriptFile "/d" (e.name ++ dotSh)) ≠ c.scriptPath "/d" d) →
      NewName "/d" d e := fun d e hdot hpath _ => ⟨hdot, fun c => hpath c (mem_all c)⟩
  have h := @other_scripts_unchanged "/d" templateDevice _ [⟨diy1, "a", "echo", .sound⟩]
    ⟨diy2, "b", "exit", .sound⟩ wellNamed_templateDevice
    (Run.along_cons rfl (hnew _ _ (by decide) (by decide +kernel)) trivial) rfl
    (hnew _ _ (by decide) (by decide +kernel)) diy1 (by decide)
  exact h.2.1.trans (by decide +kernel)

/-- A script called `pstart` replaces the one the start button of the rules
runs. -/
theorem pstart_replaced_by_diy1 :
    let d := (pstart.saveSession "/d" .sound templateDevice [] "echo").2
    let d' := (diy1.saveSession "/d" .sound d "pstart" "exit").2
    d.fs.node (pstart.scriptPath "/d" d) = some (.file (Utf8.encode "echo")) ∧
      d'.fs.node (pstart.scriptPath "/d" d') = some (.file (Utf8.encode "exit")) := by
  decide +kernel

end HapAndroid.Button
