import HapAndroid.Lib.FileTree
import HapAndroid.Lib.Pattern
import HapAndroid.Lib.RuleChain
import HapAndroid.Lib.Substitution
import HapAndroid.Lib.Run
import HapAndroid.Lib.Utf8
import HapAndroid.Mode.Slots
import HapAndroid.Platform.Files
import HapAndroid.Platform.Preferences
import HapAndroid.Tool.DesUtils
import HapAndroid.Tool.FileTool
import HapAndroid.Tool.HPStart
import HapAndroid.Tool.SuperUser
import HapAndroid.Byml.EditMode
import HapAndroid.Byml.MainActivity
import HapAndroid.Mode.Interleaving
import HapAndroid.Mode.Refinement
import HapAndroid.Mode.Delete
import HapAndroid.Mode.Transfer
import HapAndroid.Byml.EditFile
import HapAndroid.Script.Sessions
import HapAndroid.Byml.Receiver
import HapAndroid.Mode.ReadFailure
import HapAndroid.Script.AutoStart
import HapAndroid.Script.AntiLeak
import HapAndroid.Script.PidFile
import HapAndroid.FileBrowser.FileUtil
import HapAndroid.FileBrowser.Copy
import HapAndroid.FileBrowser.Move
import HapAndroid.Lib.Machine
import HapAndroid.Highlight.Bytes
import HapAndroid.Highlight.Match
import HapAndroid.Highlight.Scan
import HapAndroid.Highlight.Order
import HapAndroid.Highlight.GArray
import HapAndroid.Highlight.Groups
import HapAndroid.Highlight.Load
import HapAndroid.Highlight.Parse
import HapAndroid.Lib.ModifiedUtf8
import HapAndroid.Highlight.Chars
import HapAndroid.Highlight.Offsets
import HapAndroid.Highlight.Progress
import HapAndroid.Highlight.Termination
import HapAndroid.Highlight.ReadSyntax
import HapAndroid.Highlight.Independence
import HapAndroid.Highlight.Links
import HapAndroid.Highlight.Render
import HapAndroid.Tool.Placeholders
import HapAndroid.Tool.Shell
import HapAndroid.Tool.Saving
import HapAndroid.FileBrowser.Snapshot
import HapAndroid.Tool.HPInstall
import HapAndroid.Tool.Reporting
import HapAndroid.Tool.ZipUtil
import HapAndroid.Mode.ImportScope
import HapAndroid.Byml.StartButton
import HapAndroid.Utils.ScriptRunner
import HapAndroid.Tool.DownThread
import HapAndroid.Tool.HexText
import HapAndroid.Tool.DownProgress
import HapAndroid.Lib.Below
import HapAndroid.FileBrowser.FileInfo
import HapAndroid.Highlight.SpanPool
import HapAndroid.Lib.Regex
import HapAndroid.Byml.EditColours
import HapAndroid.Highlight.Ranges
import HapAndroid.Highlight.Words
import HapAndroid.Lib.Greedy
import HapAndroid.Highlight.Patterns
import HapAndroid.Lib.Congruential
import HapAndroid.Lib.Probing
import HapAndroid.Highlight.HashTab
import HapAndroid.Highlight.Rehash
import HapAndroid.Highlight.Keywords
import HapAndroid.Highlight.Alternation
import HapAndroid.Highlight.Probes
import HapAndroid.Highlight.TextReads
import HapAndroid.Highlight.StoredWord
import HapAndroid.Highlight.Scratch
import HapAndroid.Highlight.Commands
import HapAndroid.Highlight.EndTag
import HapAndroid.Highlight.RegionCommand
import HapAndroid.Highlight.KeywordLine
import HapAndroid.Highlight.ReadWords
import HapAndroid.Highlight.Includes
import HapAndroid.Highlight.Effects
import HapAndroid.Highlight.Lines
import HapAndroid.Highlight.LineLocal
import HapAndroid.Highlight.CharSteps
import HapAndroid.Highlight.GroupIds
import HapAndroid.Highlight.Document
import HapAndroid.Highlight.Declarations
import HapAndroid.Tool.Shells
import HapAndroid.FileBrowser.Actions
import HapAndroid.Mode.KilledFiles
import HapAndroid.Tool.Launches
