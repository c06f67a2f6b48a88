import HapAndroid.FileBrowser.Listing
import HapAndroid.Lib.Run

/-!
# The screens of the file browser

`FileMain` shows a directory and `FilePasteFile`, which lies over it, the directory to paste into.
Both keep a list of files that was read once, and read it again when they think that it has changed.
An event is something the user does, a message that a handler gets, the end of the thread that
copies, or a change of the files from outside.

A dialog lies over a screen and takes what the user does.  A message of `createDir` or `renameFile`
is posted, so other events can come before it.  The thread that copies reports an exception with
`Toast`, which a thread without a looper may not use: a copy that fails is the end of the app.
-/

namespace HapAndroid.FileBrowser

open FileUtil (Disk copyFile moveFile)

/-- The storage, and what else the screens ask for. -/
structure Device extends Disk where
  /-- Whether a file can be renamed. -/
  rename : List Text → List Text → Bool
  equalsIgnoreCase : Text → Text → Bool
  /-- The depth of the stack. -/
  depth : Nat
  /-- `FileUtil.getSDPath()`. -/
  rootPath : Text

/-- A screen with a list of files. -/
structure View where
  files : List FileInfo
  currentPath : Text

variable (d : Device)

/-- `viewFiles`; a directory that cannot be listed changes nothing. -/
def View.viewFiles (fs : Files) (filePath : Text) (v : View) : View :=
  match getFiles d.toDisk fs filePath with
  | some tmp => ⟨tmp, filePath⟩
  | none => v

def combinPath (path fileName : Text) : Text :=
  path ++ (if path.getLast? = some '/' then [] else ['/']) ++ fileName

/-- The positive button of `createDir`: the files, if a directory was made. -/
def createDir (fs : Files) (path text : Text) : Option Files :=
  let newName := trim text
  if newName = [] then none
  else
    let newFile := JavaFile.new (combinPath path newName)
    if newFile.existsIn fs then none
    else (newFile.lookup fs).bind fun p => if d.mkdir p then fs.mkdir p else none

/-- The positive button of `renameFile`, with the path of the parent: the files, if `renameTo`
succeeded. -/
def renameFile (fs : Files) (f : JavaFile) (path text : Text) : Option Files :=
  let newName := trim text
  if d.equalsIgnoreCase newName f.getName then none
  else if newName = [] then none
  else
    let newFile := JavaFile.new (combinPath path newName)
    if newFile.existsIn fs then none
    else
      (f.lookup fs).bind fun src => (newFile.lookup fs).bind fun tar =>
        if d.rename src tar then fs.rename src tar else none

/-- `FileUtil.deleteFile(new File(path))`. -/
def delete (fs : Files) (path : Text) : Files :=
  match (JavaFile.new path).lookup fs with
  | some p => FileUtil.deleteFile d.toDisk p fs
  | none => fs

/-- What `fun_Paste` copies, and where to. -/
def pasteTarget (fs : Files) (source currentPath : Text) : Option (List Text × List Text) :=
  let src := JavaFile.new source
  if src.existsIn fs then
    let tar := JavaFile.new (combinPath currentPath src.getName)
    if tar.existsIn fs then none else some (src.path, tar.path)
  else none

inductive Action where
  | copy
  | move
deriving DecidableEq

/-- The thread of `fun_Paste`: whether no exception came, and the files after it. -/
def transfer (action : Action) (src tar : List Text) (fs : Files) : Bool × Files :=
  match action with
  | .move => moveFile d.toDisk d.depth src tar fs
  | .copy => copyFile d.toDisk d.depth src tar fs

/-! ## States -/

/-- What lies over the list of `FileMain`. -/
inductive Dialog where
  /-- The context menu of the file at a position, with its title. -/
  | menu (position : Nat) (title : Text)
  | createDir (path : Text)
  | rename (f : Text)
  | choose (f : FileInfo)
  | info
  | exit

/-- What lies over the list of `FilePasteFile`. -/
inductive PasteDialog where
  | createDir (path : Text)
  /-- The thread has been started. -/
  | progress (src tar : List Text)
  /-- The thread has posted its message. -/
  | copied

/-- `FilePasteFile`. -/
structure Pasting where
  view : View
  source : Text
  action : Action
  dialog : Option PasteDialog
  /-- Messages that have not been handled. -/
  messages : Nat

inductive Front where
  | main (dialog : Option Dialog)
  | paste (p : Pasting)
  | finished (code : Nat) (filePath : Text)
  | crashed

structure State where
  fs : Files
  /-- `FileMain`. -/
  main : View
  /-- Messages to `FileMain` that have not been handled. -/
  messages : Nat
  front : Front

inductive MenuItem where
  | rename
  | copy
  | move
  | delete
  | info
deriving DecidableEq

inductive Event where
  | click (position : Nat)
  | longClick (position : Nat)
  /-- A choice in the context menu. -/
  | item (i : MenuItem)
  | back
  | home
  | refresh
  | createDir
  | exit
  /-- The positive button, with the text that was typed. -/
  | ok (text : Text)
  /-- The positive button of a dialog without a text. -/
  | yes
  /-- Open the file; `false` if there is no activity for it. -/
  | openFile (found : Bool)
  | dismiss
  | message
  | paste
  | cancel
  /-- The thread that copies ends. -/
  | copied
  /-- `progressHandler` gets its message. -/
  | done
  | pasteMessage
  /-- The files change from outside. -/
  | outside (fs : Files)

namespace State

variable (s : State)

/-- Show a directory in `FileMain`. -/
def view (path : Text) : State := { s with main := s.main.viewFiles d s.fs path }

/-- Put something over `FileMain`. -/
def under (dialog : Option Dialog) : State := { s with front := .main dialog }

def crash : State := { s with front := .crashed }

/-- `pasteFile`, with `onCreate` of `FilePasteFile`. -/
def pasteFile (source : Text) (action : Action) : State :=
  { s with front := .paste ⟨View.viewFiles d s.fs d.rootPath ⟨[], d.rootPath⟩, source, action,
      none, 0⟩ }

/-- `onContextItemSelected`. -/
def select (f : FileInfo) : MenuItem → State
  | .rename => s.under (some (.rename f.path))
  | .copy => s.pasteFile d (JavaFile.new f.path).getPath .copy
  | .move => s.pasteFile d (JavaFile.new f.path).getPath .move
  | .delete => { s.under none with fs := delete d s.fs f.path }.view d s.main.currentPath
  | .info => s.under (some .info)

/-- The files have changed, and a message to `FileMain` says so. -/
def changed (fs : Files) : State := { s.under none with fs, messages := s.messages + 1 }

def stepMain : Option Dialog → Event → Option State
  | none, .click i => s.main.files[i]?.map fun f =>
      if f.isDirectory then s.view d f.path else s.under (some (.choose f))
  | none, .longClick i => s.main.files[i]?.map fun f => s.under (some (.menu i f.name))
  | none, .back =>
      match (JavaFile.new s.main.currentPath).getParent with
      | some parentPath => some (s.view d parentPath)
      | none => some (s.under (some .exit))
  | none, .home => some (s.view d d.rootPath)
  | none, .refresh => some (s.view d s.main.currentPath)
  | none, .createDir => some (s.under (some (.createDir s.main.currentPath)))
  | none, .exit => some (s.under (some .exit))
  | some (.menu i _), .item m =>
      -- The list may have become shorter under the menu.
      match s.main.files[i]? with
      | some f => some (s.select d f m)
      | none => some s.crash
  | some (.createDir path), .ok text =>
      match FileBrowser.createDir d s.fs path text with
      | some fs => some (s.changed fs)
      | none => some (s.under none)
  | some (.rename f), .ok text =>
      match (JavaFile.new f).getParent with
      | some path =>
          match renameFile d s.fs (.new f) path text with
          | some fs => some (s.changed fs)
          | none => some (s.under none)
      | none => some s.crash
  | some (.choose f), .yes => some { s with front := .finished 21 f.path }
  | some (.choose _), .openFile true => some (s.under none)
  | some (.choose _), .openFile false => some s.crash
  | some .exit, .yes => some { s with front := .finished 2 s.main.currentPath }
  | some _, .dismiss => some (s.under none)
  | _, _ => none

/-- `FilePasteFile` in front. -/
def withPaste (p : Pasting) : State := { s with front := .paste p }

def stepPaste (p : Pasting) : Option PasteDialog → Event → Option State
  | none, .click i => p.view.files[i]?.map fun f =>
      if f.isDirectory then s.withPaste { p with view := p.view.viewFiles d s.fs f.path } else s
  | none, .back =>
      match (JavaFile.new p.view.currentPath).getParent with
      | some parentPath => some (s.withPaste { p with view := p.view.viewFiles d s.fs parentPath })
      | none => some s
  | none, .createDir =>
      some (s.withPaste { p with dialog := some (.createDir p.view.currentPath) })
  | none, .paste =>
      match pasteTarget s.fs p.source p.view.currentPath with
      | some (src, tar) => some (s.withPaste { p with dialog := some (.progress src tar) })
      | none => some s
  | none, .cancel => some (s.under none)
  | some (.createDir path), .ok text =>
      match FileBrowser.createDir d s.fs path text with
      | some fs => some { s with
          fs, front := .paste { p with dialog := none, messages := p.messages + 1 } }
      | none => some (s.withPaste { p with dialog := none })
  | some (.createDir _), .dismiss => some (s.withPaste { p with dialog := none })
  | some (.progress src tar), .copied =>
      match transfer d p.action src tar s.fs with
      | (true, fs) => some { s with fs, front := .paste { p with dialog := some .copied } }
      | (false, fs) => some { s with fs, front := .crashed }
  | some .copied, .done => some ((s.under none).view d p.view.currentPath)
  | _, .pasteMessage =>
      if p.messages = 0 then none
      else some (s.withPaste { p with
        view := p.view.viewFiles d s.fs p.view.currentPath, messages := p.messages - 1 })
  | _, _ => none

/-- A handler of `FileMain` gets its message. -/
def handle : Option State :=
  if s.messages = 0 then none
  else some ({ s with messages := s.messages - 1 }.view d s.main.currentPath)

def step : Event → Option State
  | .outside fs => some { s with fs }
  | e =>
      match s.front, e with
      | .main _, .message | .paste _, .message => s.handle d
      | .main dialog, e => s.stepMain d dialog e
      | .paste p, e => s.stepPaste d p p.dialog e
      | _, _ => none

/-- The browser as it is opened with a directory. -/
def start (fs : Files) (path : Text) : State :=
  ⟨fs, View.viewFiles d fs path ⟨[], path⟩, 0, .main none⟩

end State

/-! ## Steps -/

/-- Where a click on a directory, the keys and the menu lead from a list. -/
inductive View.Leads (v : View) : Text → Prop
  | entry {f : FileInfo} (h : f ∈ v.files) : v.Leads f.path
  | parent {path : Text} (h : (JavaFile.new v.currentPath).getParent = some path) : v.Leads path
  | root : v.Leads d.rootPath
  | same : v.Leads v.currentPath

/-- What can be put over the list of `FileMain` without a change of anything else. -/
def State.Opens (s : State) : Option Dialog → Prop
  | some (.createDir path) => path = s.main.currentPath
  | some (.rename f) => ∃ g ∈ s.main.files, f = g.path
  | _ => True

def Front.Ended : Front → Prop
  | .finished _ _ | .crashed => True
  | _ => False

/-- What a step does. -/
inductive Step (s : State) : Event → State → Prop
  | outside (fs : Files) : Step s (.outside fs) { s with fs }
  | handle (hne : s.messages ≠ 0) :
      Step s .message ({ s with messages := s.messages - 1 }.view d s.main.currentPath)
  | view {e : Event} {path : Text} (hfront : s.front = .main none) (hpath : s.main.Leads d path) :
      Step s e (s.view d path)
  | menu {i : Nat} {f : FileInfo} (hfront : s.front = .main none) (hf : s.main.files[i]? = some f) :
      Step s (.longClick i) (s.under (some (.menu i f.name)))
  | under {e : Event} {o o' : Option Dialog} (hfront : s.front = .main o) (ho : s.Opens o')
      (hmenu : ∀ i title, o' ≠ some (.menu i title)) : Step s e (s.under o')
  | delete {i : Nat} {title : Text} {f : FileInfo}
      (hfront : s.front = .main (some (.menu i title))) (hf : s.main.files[i]? = some f) :
      Step s (.item .delete)
        ({ s.under none with fs := delete d s.fs f.path }.view d s.main.currentPath)
  | pasteFile {i : Nat} {title : Text} {f : FileInfo} {m : MenuItem} {action : Action}
      (hfront : s.front = .main (some (.menu i title))) (hf : s.main.files[i]? = some f)
      (hm : m ≠ .delete) :
      Step s (.item m) (s.pasteFile d (JavaFile.new f.path).getPath action)
  | createDir {path text : Text} {fs : Files}
      (hfront : s.front = .main (some (.createDir path)))
      (h : FileBrowser.createDir d s.fs path text = some fs) : Step s (.ok text) (s.changed fs)
  | rename {f path text : Text} {fs : Files} (hfront : s.front = .main (some (.rename f)))
      (hpath : (JavaFile.new f).getParent = some path)
      (h : renameFile d s.fs (.new f) path text = some fs) : Step s (.ok text) (s.changed fs)
  | ends {e : Event} {o : Option Dialog} {front : Front} (hfront : s.front = .main o)
      (h : front.Ended) : Step s e { s with front }
  | stay {e : Event} {p : Pasting} (hfront : s.front = .paste p) : Step s e s
  | viewPaste {e : Event} {p : Pasting} {path : Text} (hfront : s.front = .paste p)
      (hdialog : p.dialog = none) (hpath : p.view.Leads d path) :
      Step s e (s.withPaste { p with view := p.view.viewFiles d s.fs path })
  | handlePaste {p : Pasting} (hfront : s.front = .paste p) :
      Step s .pasteMessage (s.withPaste { p with
        view := p.view.viewFiles d s.fs p.view.currentPath, messages := p.messages - 1 })
  | askPaste {p : Pasting} (hfront : s.front = .paste p) (hdialog : p.dialog = none) :
      Step s .createDir (s.withPaste { p with dialog := some (.createDir p.view.currentPath) })
  | createPaste {p : Pasting} {path text : Text} {fs : Files} (hfront : s.front = .paste p)
      (hdialog : p.dialog = some (.createDir path))
      (h : FileBrowser.createDir d s.fs path text = some fs) :
      Step s (.ok text)
        { s with fs, front := .paste { p with dialog := none, messages := p.messages + 1 } }
  | dropPaste {e : Event} {p : Pasting} {path : Text} (hfront : s.front = .paste p)
      (hdialog : p.dialog = some (.createDir path)) :
      Step s e (s.withPaste { p with dialog := none })
  | paste {p : Pasting} {src tar : List Text} (hfront : s.front = .paste p)
      (hdialog : p.dialog = none)
      (h : pasteTarget s.fs p.source p.view.currentPath = some (src, tar)) :
      Step s .paste (s.withPaste { p with dialog := some (.progress src tar) })
  | copied {p : Pasting} {src tar : List Text} {fs : Files} (hfront : s.front = .paste p)
      (hdialog : p.dialog = some (.progress src tar))
      (h : transfer d p.action src tar s.fs = (true, fs)) :
      Step s .copied { s with fs, front := .paste { p with dialog := some .copied } }
  | failed {p : Pasting} {src tar : List Text} {fs : Files} (hfront : s.front = .paste p)
      (hdialog : p.dialog = some (.progress src tar))
      (h : transfer d p.action src tar s.fs = (false, fs)) :
      Step s .copied { s with fs, front := .crashed }
  | done {p : Pasting} (hfront : s.front = .paste p) (hdialog : p.dialog = some .copied) :
      Step s .done ((s.under none).view d p.view.currentPath)
  | cancel {p : Pasting} (hfront : s.front = .paste p) (hdialog : p.dialog = none) :
      Step s .cancel (s.under none)

variable {d} {s t : State} {e : Event}

theorem step_of_select {i : Nat} {title : Text} {f : FileInfo} {m : MenuItem}
    (hfront : s.front = .main (some (.menu i title))) (hf : s.main.files[i]? = some f) :
    Step d s (.item m) (s.select d f m) := by
  cases m with
  | rename =>
      exact .under hfront ⟨f, List.mem_of_getElem? hf, rfl⟩ fun _ _ h => by cases h
  | copy => exact .pasteFile hfront hf (by decide)
  | move => exact .pasteFile hfront hf (by decide)
  | delete => exact .delete hfront hf
  | info => exact .under hfront trivial fun _ _ h => by cases h

theorem step_of_stepMain {o : Option Dialog} (hfront : s.front = .main o)
    (h : s.stepMain d o e = some t) : Step d s e t := by
  unfold State.stepMain at h
  split at h
  · obtain ⟨f, hf, rfl⟩ := Option.map_eq_some_iff.mp h
    split
    · exact .view hfront (.entry (List.mem_of_getElem? hf))
    · exact .under hfront trivial fun _ _ h => by cases h
  · obtain ⟨f, hf, rfl⟩ := Option.map_eq_some_iff.mp h
    exact .menu hfront hf
  · split at h
    · next hparent => cases h; exact .view hfront (.parent hparent)
    · cases h; exact .under hfront trivial fun _ _ h => by cases h
  · cases h; exact .view hfront .root
  · cases h; exact .view hfront .same
  · cases h; exact .under hfront rfl fun _ _ h => by cases h
  · cases h; exact .under hfront trivial fun _ _ h => by cases h
  · split at h
    · next hf => cases h; exact step_of_select hfront hf
    · cases h; exact .ends hfront trivial
  · split at h
    · next hmade => cases h; exact .createDir hfront hmade
    · cases h; exact .under hfront trivial fun _ _ h => by cases h
  · split at h
    · next hpath =>
      split at h
      · next hrenamed => cases h; exact .rename hfront hpath hrenamed
      · cases h; exact .under hfront trivial fun _ _ h => by cases h
    · cases h; exact .ends hfront trivial
  · cases h; exact .ends hfront trivial
  · cases h; exact .under hfront trivial fun _ _ h => by cases h
  · cases h; exact .ends hfront trivial
  · cases h; exact .ends hfront trivial
  · cases h; exact .under hfront trivial fun _ _ h => by cases h
  · cases h

theorem step_of_stepPaste {p : Pasting} {o : Option PasteDialog} (hfront : s.front = .paste p)
    (hdialog : p.dialog = o) (h : s.stepPaste d p o e = some t) : Step d s e t := by
  unfold State.stepPaste at h
  split at h
  · obtain ⟨f, hf, rfl⟩ := Option.map_eq_some_iff.mp h
    split
    · exact .viewPaste hfront hdialog (.entry (List.mem_of_getElem? hf))
    · exact .stay hfront
  · split at h
    · next hparent => cases h; exact .viewPaste hfront hdialog (.parent hparent)
    · cases h; exact .stay hfront
  · cases h; exact .askPaste hfront hdialog
  · split at h
    · next htarget => cases h; exact .paste hfront hdialog htarget
    · cases h; exact .stay hfront
  · cases h; exact .cancel hfront hdialog
  · split at h
    · next hmade => cases h; exact .createPaste hfront hdialog hmade
    · cases h; exact .dropPaste hfront hdialog
  · cases h; exact .dropPaste hfront hdialog
  · split at h
    · next hcopied => cases h; exact .copied hfront hdialog hcopied
    · next hfailed => cases h; exact .failed hfront hdialog hfailed
  · cases h; exact .done hfront hdialog
  · split at h
    · cases h
    · cases h; exact .handlePaste hfront
  · cases h

theorem step_of_handle (h : s.handle d = some t) : Step d s .message t := by
  unfold State.handle at h
  split at h
  · cases h
  · next hne => cases h; exact .handle hne

theorem step_of_eq (h : s.step d e = some t) : Step d s e t := by
  unfold State.step at h
  split at h
  · cases h; exact .outside _
  · split at h
    · exact step_of_handle h
    · exact step_of_handle h
    · exact step_of_stepMain (by assumption) h
    · exact step_of_stepPaste (by assumption) rfl h
    · cases h

end HapAndroid.FileBrowser
