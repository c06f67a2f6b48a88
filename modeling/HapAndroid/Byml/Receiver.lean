import Mathlib.Data.List.DropRight
import HapAndroid.Byml.EditFile

/-!
# Starting with the device: `d_10` and `HippoStartupIntentReceiver`

The auto-start dialog has two check boxes, one for the script of the rules and
one for the first script the user names.  It stores its choice as the text of a
shell command, one block per checked box:

    cd <files>/mode
    sh ./<script>

When the device has booted, the receiver takes this text apart again.  It cuts it
at a regular expression, takes the front of each piece up to the first `.sh` for
the name of a script, and hands the texts of these scripts, with the placeholders
replaced, to a root shell.  It also executes a task that starts the current mode.
-/

namespace HapAndroid

/-! ## The dialog -/

def sshellKey : Text := "sshell"
def isStartKey : Text := "isStart"

/-- The block of one script in the command text. -/
def startBlock (filePath name : Text) : Text :=
  ("\ncd " : Text) ++ filePath ++ ("/mode\nsh ./" : Text) ++ name ++ ("\n" : Text)

/-- `d_10`, the positive button: the preferences, or `none` if the command in
the text field is too short.  The edit that stores this command is not
committed. -/
def enableAutoStart (filePath estart : Text) (cft cdiy1 : Bool) (sp : Prefs) : Option Prefs :=
  if estart.length < 3 then none
  else
    let sp1 := sp.putBoolean "zq_cft" cft
    let t1 := if cft then startBlock filePath (sp1.getString "sh_pstart" "pstart.sh") else []
    let sp2 := sp1.putBoolean "zq_cdiy1" cdiy1
    let t2 := if cdiy1 then startBlock filePath (sp2.getString "sh_diy1" "自定义①" ++ dotSh) else []
    some ((sp2.putString sshellKey (t1 ++ t2)).putBoolean isStartKey true)

/-- `d_10`, the negative button. -/
def disableAutoStart (sp : Prefs) : Prefs := sp.putBoolean isStartKey false

/-! ## The receiver -/

/-- The regular expression `sh ./`.  Its dot matches any character but a line
terminator. -/
def shDot : Pattern.Pat Char :=
  Pattern.literal ['s', 'h', ' '] ++ [fun c => !isLineTerminator c] ++ Pattern.literal ['/']

/-- `st.split(pat)`: trailing empty pieces are dropped. -/
def splitText (pat : Pattern.Pat Char) (st : Text) : List Text :=
  (Pattern.split pat st).rdropWhile List.isEmpty

/-- The name of a script at the front of a piece. -/
def scriptName (piece : Text) : Option Text :=
  match indexOf piece dotSh with
  | some (k + 1) => some (piece.take (k + 1 + 3))
  | _ => none

/-- Whether the command text has a script at all. -/
def hasScript (st : Text) : Bool :=
  match indexOf st ("sh ./" : Text) with
  | some (_ + 1) => true
  | _ => false

/-- The scripts the receiver finds in the command text. -/
def bootNames (st : Text) : List Text :=
  if hasScript st then (splitText shDot st).filterMap scriptName else []

/-- The stored command text. -/
def sshell (sp : Prefs) : Text := sp.getString sshellKey ("echo '自启命令啥都木有！" : Text)

/-- The text made from the texts of the scripts. -/
def bootText (con : Context) (sp : Prefs) (texts : List Text) : Text :=
  SuperUser.replaceCode con (texts.flatMap fun t => '\n' :: t ++ ['\n']) sp

/-- `onReceive`: the task that is executed for the current mode, with the job
`start`, and the command text that is handed to the root shell.  Nothing is
started if the switch is off, or of another type, which is an exception. -/
def onReceive (con : Context) (filePath : Text) (d : Device) : Option (HPStart × Text) :=
  if d.sp.getBoolean isStartKey false = some true then
    let task : HPStart :=
      { filePath := filePath, mName := d.sp.getString "now_name" "默认透明代理", isAdd := false }
    let sh :=
      if hasScript (sshell d.sp) then
        bootText con d.sp ((bootNames (sshell d.sp)).map fun sname =>
          FileTool.readSDFile d.fs (scriptFile filePath sname))
      else ("echo '什么都没有 ～～～'" : Text)
    some (task, sh)
  else none

end HapAndroid
