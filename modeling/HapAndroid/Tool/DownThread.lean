import Mathlib.Algebra.GroupWithZero.Nat
import HapAndroid.Tool.HPStart
import HapAndroid.Tool.ZipUtil

/-!
# `DownThread`

The task that downloads a core package: it asks for the package, writes the body to a
file chunk by chunk, removes the old `HaP` directory and unpacks the file.  After each
chunk it publishes a percentage, computed in 32-bit arithmetic from the bytes received
and the length the server named.  The value 1314 is not a percentage: it asks the user
interface to show the message in the field `t`.

The length comes from the server and is `-1` when there is none, so it says nothing about
the body.  A length of zero is an `ArithmeticException` at the first chunk, which ends the
download as any other exception does.
-/

namespace HapAndroid.DownThread

/-- The fields of a task. -/
structure Task where
  url : Text
  filePath : Text
  fileName : Text

/-- What can throw in `doInBackground`. -/
inductive Exception where
  | connect
  | openFile
  | write
  | read
  | divideByZero
  | unzip
deriving DecidableEq

/-- What the server answers. -/
structure Response where
  code : Int32
  contentLength : Int32
  /-- What the reads give, in turn. -/
  chunks : List (List UInt8)
  /-- Whether the stream breaks off after them. -/
  breaks : Bool

/-! ## The loop -/

/-- `now_len*100/file_len`.  A division by zero throws. -/
def percent (nowLen fileLen : Int32) : Option Int32 :=
  if fileLen = 0 then none else some (nowLen * 100 / fileLen)

/-- What the loop leaves: the values published, the bytes that reached the file, and the
exception that ended it. -/
structure Received where
  published : List Int32
  data : List UInt8
  exception : Option Exception

/-- The loop over the chunks.  The storage takes `room` more bytes, or any number. -/
def receive (fileLen : Int32) (breaks : Bool) :
    Option Nat → Int32 → List (List UInt8) → Received
  | _, _, [] => ⟨[], [], if breaks then some .read else none⟩
  | room, nowLen, chunk :: chunks =>
      if room.any (· < chunk.length) then ⟨[], chunk.take (room.getD 0), some .write⟩
      else
        let nowLen := nowLen + Int32.ofNat chunk.length
        match percent nowLen fileLen with
        | none => ⟨[], chunk, some .divideByZero⟩
        | some p =>
            let r := receive fileLen breaks (room.map (· - chunk.length)) nowLen chunks
            ⟨p :: r.published, chunk ++ r.data, r.exception⟩

/-! ## The task -/

/-- The loop of `unZipFiles`, with a `false` for an exception. -/
def unZipAll (st : Storage) (descDir : Text) : List ZipUtil.Entry → Files → Bool × Files
  | [], fs => (true, fs)
  | e :: es, fs =>
      match ZipUtil.unZipEntry st descDir e fs with
      | (true, fs') => unZipAll st descDir es fs'
      | (false, fs') => (false, fs')

/-- What a task finds around it. -/
structure World where
  st : Storage
  /-- The archive some bytes are, if they are one. -/
  archive : List UInt8 → Option (List ZipUtil.Entry)
  /-- `e.toString()`. -/
  exceptionText : Exception → Text
  /-- `String.format("%.2f",(float)file_len/(1024*1024))`. -/
  megabytes : Int32 → Text

/-- `unZipFiles(zipPath, descDir)`. -/
def unZipFiles (w : World) (zipPath descDir : Text) (fs : Files) : Bool × Files :=
  let fs1 := ZipUtil.makeMissing w.st descDir fs
  match (fs1.readFile (toPath fs1 zipPath)).bind w.archive with
  | none => (false, fs1)
  | some zip => unZipAll w.st descDir zip fs1

/-- The value that stands for a message. -/
def note : Int32 := 1314

/-- What `doInBackground` leaves. -/
structure Outcome where
  published : List Int32
  t : Text
  result : Text
  files : Files

/-- The number of bytes the storage takes for a file that could be opened. -/
def room (st : Storage) (fs : Files) (name : Text) : Option Nat :=
  match st.write (toPath fs name) with
  | .cut n => some n
  | _ => none

/-- The `catch` clause. -/
def failed (w : World) (published : List Int32) (e : Exception) (fs : Files) : Outcome :=
  ⟨published ++ [note], "下载失败，异常信息:".toList ++ w.exceptionText e ++ ['\n'], [], fs⟩

/-- The branch of the status code 200. -/
def download (w : World) (d : Task) (r : Response) (fs : Files) : Outcome :=
  let hap := inDir d.filePath d.fileName
  let fs1 := (deleteFile fs hap).2
  match FileTool.openWrite w.st hap fs1 with
  | none => failed w [note] .openFile fs1
  | some fs2 =>
      let got := receive r.contentLength r.breaks (room w.st fs1 hap) 0 r.chunks
      let fs3 := (fs2.writeFile (toPath fs2 hap) got.data).getD fs2
      match got.exception with
      | some e => failed w (note :: got.published) e fs3
      | none =>
          let fs4 := (FileTool.deleteSDFile fs3 (inDir d.filePath "HaP")).2
          match unZipFiles w hap (d.filePath ++ ['/']) fs4 with
          | (false, fs5) => failed w (note :: got.published) .unzip fs5
          | (true, fs5) =>
              ⟨note :: got.published, "\t状态码正常，开始下载.....\n\tHaP核心包大小:".toList ++
                w.megabytes r.contentLength ++ "M\n".toList, "ok".toList, fs5⟩

/-- `doInBackground`.  Without a response connecting has thrown. -/
def doInBackground (w : World) (d : Task) (r : Option Response) (fs : Files) : Outcome :=
  match r with
  | none => failed w [] .connect fs
  | some r =>
      if r.code = 200 then download w d r fs
      else ⟨[note], "下载失败，状态码异常:".toList ++ (toString r.code.toInt).toList ++
        "\n网址:".toList ++ d.url ++ ['\n'], [], fs⟩

/-- The progress bar and the text of the dialog. -/
structure Dialog where
  pos : Int32
  text : Text

/-- `onProgressUpdate`, when the field `t` holds a text. -/
def onProgressUpdate (t : Text) (s : Dialog) (value : Int32) : Dialog :=
  if value ≠ note then { s with pos := value } else { s with text := s.text ++ t }

end HapAndroid.DownThread
