import HapAndroid.Platform.Files

/-!
# `FileUtil`

Copying, moving and deleting of the file browser, with the handler that pastes.
The copy is recursive and may be asked to copy a directory into itself, so the
model bounds its depth: a call deeper than the stack throws.  The answers of
`mkdir` and `delete` are dropped by the source.

Java's two `if`s of `copyFile` are one `match` on what stands at the source.  A
`none` there is a source that has disappeared: nothing is copied and `true`
returned.
-/

namespace HapAndroid.FileUtil

/-- The answers of the storage to the requests of the browser. -/
structure Disk extends Storage where
  /-- Whether a directory can be listed. -/
  list : List Text → Bool
  /-- Whether a file or an empty directory can be deleted. -/
  delete : List Text → Bool

/-- The disk that refuses nothing. -/
def Disk.sound : Disk := ⟨.sound, fun _ => true, fun _ => true⟩

variable (disk : Disk)

/-- `p.mkdir()`, with its answer dropped. -/
def mkdir (p : List Text) (fs : Files) : Files :=
  if disk.mkdir p then (fs.mkdir p).getD fs else fs

/-- Write a file; `false` is an exception. -/
def write (p : List Text) (data : List UInt8) (fs : Files) : Bool × Files :=
  match disk.write p with
  | .refused => (false, fs)
  | .cut n => (false, (fs.writeFile p (data.take n)).getD fs)
  | .done =>
      match fs.writeFile p data with
      | some fs' => (true, fs')
      | none => (false, fs)

/-- Do the same for each path, up to the first exception. -/
def each (f : List Text → Files → Bool × Files) : List (List Text) → Files → Bool × Files
  | [], fs => (true, fs)
  | c :: cs, fs =>
      match f c fs with
      | (true, fs') => each f cs fs'
      | (false, fs') => (false, fs')

/-- `tar/c.getName()`. -/
def childOf (tar c : List Text) : List Text := tar ++ c.getLast?.toList

/-- `copyFile` with a stack of the given depth: whether it returned, and the files
after it. -/
def copyFile : Nat → List Text → List Text → Files → Bool × Files
  | 0, _, _, fs => (false, fs)
  | depth + 1, src, tar, fs =>
      match fs.node src with
      | some (.file data) => write disk tar data fs
      | some .locked => (false, fs)
      | some .dir =>
          -- The entries are listed before the target is made.  If they could not be,
          -- the loop over them throws, after the target was made.
          if disk.list src then
            each (fun c => copyFile depth c (childOf tar c)) (fs.children src) (mkdir disk tar fs)
          else (false, mkdir disk tar fs)
      | none => (true, fs)

/-- `f.delete()`, with its answer dropped. -/
def deleteOne (p : List Text) (fs : Files) : Files :=
  if disk.delete p then (fs.delete p).getD fs else fs

def deleteBelow : Nat → List Text → Files → Files
  | 0, _, fs => fs
  | n + 1, p, fs =>
      deleteOne disk p <|
        if fs.isDir p && disk.list p then
          (fs.children p).foldl (fun fs c => deleteBelow n c fs) fs
        else fs

/-- `deleteFile`.  The tree is finite, so the recursion ends. -/
def deleteFile (p : List Text) (fs : Files) : Files := deleteBelow disk (fs.height + 1) p fs

/-- `moveFile`: whether it returned `true`, and the files after it. -/
def moveFile (depth : Nat) (src tar : List Text) (fs : Files) : Bool × Files :=
  match copyFile disk depth src tar fs with
  | (true, fs') => (true, deleteFile disk src fs')
  | (false, fs') => (false, fs')

/-- What the paste button answers. -/
inductive Pasted where
  | notExists
  | exists
  | moved (returned : Bool) (fs : Files)

/-- `fun_Paste` in the directory `currentPath`, for a move. -/
def funPaste (depth : Nat) (currentPath src : List Text) (fs : Files) : Pasted :=
  if fs.existsAt src then
    if fs.existsAt (childOf currentPath src) then .exists
    else
      let r := moveFile disk depth src (childOf currentPath src) fs
      .moved r.1 r.2
  else .notExists

end HapAndroid.FileUtil
