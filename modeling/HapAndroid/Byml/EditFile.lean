import HapAndroid.Tool.HPStart

/-!
# `Edit_file` and the script buttons

Six buttons of the main screen run scripts of the template directory.  Three
have fixed scripts, and three have scripts the user names.  A short click runs
the script, a long click opens the editor.  The name of a script is a
preference, and the file it stands for is computed in three places: a click adds
`.sh` to a user's name, the editor adds it on opening unless it occurs somewhere
in the name, and on saving always.

On opening, the editor takes a content with the name of an exception in it for
a file that could not be read, shows an empty text and creates the file.  On
saving it deletes the file it opened and writes the one it was told to.
-/

namespace HapAndroid

/-- The script buttons. -/
inductive Button where
  | diy1
  | diy2
  | diy3
  | pstart
  | pstatus
  | pstop
deriving DecidableEq

def dotSh : Text := ".sh"

/-- A script of the template directory. -/
def scriptFile (filePath name : Text) : Text := inDir (inDir filePath modeName) name

/-- What a button passes to the editor. -/
structure FileIntent where
  fileName : Text
  filePath : Text
  nameEdit : Bool
  shName : Text
  rcode : Nat

namespace Button

def all : List Button := [.diy1, .diy2, .diy3, .pstart, .pstatus, .pstop]

theorem mem_all (b : Button) : b ∈ all := by
  cases b with
  | diy1 => decide
  | diy2 => decide
  | diy3 => decide
  | pstart => decide
  | pstatus => decide
  | pstop => decide

/-- Whether the user names the script. -/
def isDiy : Button → Bool
  | .diy1 | .diy2 | .diy3 => true
  | .pstart | .pstatus | .pstop => false

/-- The preference that holds the name of the script. -/
def shName : Button → Text
  | .diy1 => "sh_diy1"
  | .diy2 => "sh_diy2"
  | .diy3 => "sh_diy3"
  | .pstart => "sh_pstart"
  | .pstatus => "sh_pstatus"
  | .pstop => "sh_pstop"

def defaultName : Button → Text
  | .diy1 => "自定义①"
  | .diy2 => "自定义②"
  | .diy3 => "自定义③"
  | .pstart => "pstart.sh"
  | .pstatus => "pstatus.sh"
  | .pstop => "pstop.sh"

def rcode : Button → Nat
  | .diy1 => 5
  | .diy2 => 6
  | .diy3 => 7
  | .pstart | .pstatus | .pstop => 8

theorem shName_ne {b c : Button} (h : b ≠ c) : b.shName ≠ c.shName := by
  have hall : ∀ b ∈ all, ∀ c ∈ all, b ≠ c → b.shName ≠ c.shName := by decide
  exact hall b (mem_all b) c (mem_all c) h

/-- The stored name of the script. -/
def storedName (sp : Prefs) (b : Button) : Text := sp.getString b.shName b.defaultName

/-- The file a click runs. -/
def runName (sp : Prefs) (b : Button) : Text :=
  if b.isDiy then b.storedName sp ++ dotSh else b.storedName sp

/-- The task of a click.  Its job is `sh`. -/
def onClick (filePath : Text) (sp : Prefs) (b : Button) : HPStart where
  filePath := inDir filePath modeName
  mName := b.runName sp
  isAdd := false

/-- The intent of a long click. -/
def onLongClick (filePath : Text) (sp : Prefs) (b : Button) : FileIntent where
  fileName := if b.isDiy then b.storedName sp else b.defaultName
  filePath := inDir filePath modeName ++ ['/']
  nameEdit := b.isDiy
  shName := b.shName
  rcode := b.rcode

end Button

/-- The state of the editor. -/
structure EditFile where
  fileName : Text
  filePath : Text
  nameEdit : Bool
  shName : Text
  rcode : Nat
  /-- The text fields. -/
  eName : Text
  eContent : Text

namespace EditFile

/-- The file the editor opens for a name. -/
def openName (nameEdit : Bool) (fileName : Text) : Text :=
  if nameEdit && !containsText fileName dotSh then fileName ++ dotSh else fileName

/-- `init`: the editor, and the files with a blank one created for a missing
one. -/
def init (st : Storage) (i : FileIntent) (d : Device) : EditFile × Device :=
  let fileName := openName i.nameEdit i.fileName
  let t := FileTool.readSDFile d.fs (i.filePath ++ fileName)
  let missing := containsText t FileTool.exceptionName
  let fs := if missing then createNewFile st d.fs (i.filePath ++ fileName) else d.fs
  ({ fileName := fileName, filePath := i.filePath, nameEdit := i.nameEdit, shName := i.shName,
      rcode := i.rcode, eName := i.fileName, eContent := if missing then [] else t },
    ⟨fs, d.sp⟩)

/-- Type into the fields.  The name can be changed for a user's script only. -/
def type (e : EditFile) (name content : Text) : EditFile :=
  { e with eName := if e.nameEdit then name else e.eName, eContent := content }

/-- The file a save writes. -/
def saveName (e : EditFile) : Text := if e.nameEdit then e.eName ++ dotSh else e.eName

/-- Press save: the flag of the write, the device, and the result with the
name. -/
def save (e : EditFile) (st : Storage) (d : Device) : Bool × Device × Nat × Text :=
  let sp := d.sp.putString e.shName e.eName
  let fs := (deleteFile d.fs (e.filePath ++ e.fileName)).2
  let w := FileTool.writeSDFile st e.eContent (e.filePath ++ e.saveName) fs
  (w.1, ⟨w.2, sp⟩, e.rcode, e.eName)

end EditFile

namespace Button

variable (filePath : Text)

/-- Long click a button. -/
def openEditor (st : Storage) (d : Device) (b : Button) : EditFile × Device :=
  EditFile.init st (b.onLongClick filePath d.sp) d

/-- Open the editor of a button, type, and save. -/
def saveSession (st : Storage) (d : Device) (b : Button) (name content : Text) : Bool × Device :=
  let p := b.openEditor filePath st d
  let r := (p.1.type name content).save st p.2
  (r.1, r.2.1)

/-- The path of the script a click runs. -/
def scriptPath (d : Device) (b : Button) : List Text :=
  toPath d.fs (inDir (b.onClick filePath d.sp).filePath (b.onClick filePath d.sp).mName)

theorem scriptPath_eq (d : Device) (b : Button) :
    b.scriptPath filePath d = toPath d.fs (scriptFile filePath (b.runName d.sp)) := rfl

/-- The path of the script a long click opens. -/
def openPath (d : Device) (b : Button) : List Text :=
  toPath d.fs ((b.onLongClick filePath d.sp).filePath ++
    EditFile.openName (b.onLongClick filePath d.sp).nameEdit (b.onLongClick filePath d.sp).fileName)

/-- Click a button: its task is prepared and runs the script. -/
def press (con : Context) (des : Cipher) (st : Storage) (d : Device) (b : Button) :
    Device × List Effect × Result :=
  let p := (b.onClick filePath d.sp).onPreExecute st d
  p.1.doInBackground con des st p.2.1 .sh

end Button

/-! ## What a session does -/

theorem mode_append (filePath name : Text) :
    (inDir filePath modeName ++ ['/']) ++ name = scriptFile filePath name := by
  rw [scriptFile, inDir, inDir, List.append_assoc]
  rfl

namespace EditFile

/-- Saving touches the file that was opened and the file that is written.  If the
first was a directory on the way to the second, nothing is written. -/
theorem node_save_of_ne {e : EditFile} {st : Storage} {d : Device} {q : List Text}
    (hopen : q ≠ toPath d.fs (e.filePath ++ e.fileName))
    (hsave : q ≠ toPath d.fs (e.filePath ++ e.saveName)) :
    (e.save st d).2.1.fs.node q = d.fs.node q := by
  refine Eq.trans ?_ (node_deleteFile_of_ne hopen)
  simp only [save, FileTool.writeSDFile]
  rcases toPath_of_fewer (fun _ => dir_of_deleteFile) (e.filePath ++ e.saveName) with hsame | hdead
  · exact FileTool.node_writeBytes_of_ne st _ _ (by rwa [hsame])
  · rw [FileTool.writeBytes_dead hdead]

/-- Saving removes at most the directory that was opened. -/
theorem dir_of_save {e : EditFile} {st : Storage} {d : Device} {q : List Text}
    (h : (e.save st d).2.1.fs.node q = some .dir) : d.fs.node q = some .dir :=
  dir_of_deleteFile ((FileTool.dir_writeBytes_iff st _ _ _ q).mp h)

theorem toPath_save {e : EditFile} {d : Device}
    (h : d.fs.node (toPath d.fs (e.filePath ++ e.fileName)) ≠ some .dir) (st : Storage) (s : Text) :
    toPath (e.save st d).2.1.fs s = toPath d.fs s :=
  (FileTool.toPath_writeSDFile st _ _ _ s).trans (toPath_deleteFile h s)

theorem node_init_of_ne {st : Storage} {i : FileIntent} {d : Device} {q : List Text}
    (hq : q ≠ toPath d.fs (i.filePath ++ openName i.nameEdit i.fileName)) :
    (init st i d).2.fs.node q = d.fs.node q := by
  simp only [init]
  split
  · exact node_createNewFile_of_ne hq
  · rfl

theorem dir_init_iff (st : Storage) (i : FileIntent) (d : Device) (q : List Text) :
    (init st i d).2.fs.node q = some .dir ↔ d.fs.node q = some .dir := by
  simp only [init]
  split
  · exact dir_createNewFile_iff st d.fs _ q
  · rfl

/-- Opening a file changes no path name. -/
@[simp] theorem toPath_init (st : Storage) (i : FileIntent) (d : Device) (s : Text) :
    toPath (init st i d).2.fs s = toPath d.fs s :=
  toPath_congr (dir_init_iff st i d) s

end EditFile

end HapAndroid
