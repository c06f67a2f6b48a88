import HapAndroid.Highlight.Groups
import HapAndroid.Highlight.Scan

/-!
# Loading a syntax file

`load_syntax_conf` and its commands.  A pointer into the file is the list of the bytes
from there to the end.  `none` is a run that does not come back with a result: it uses
a word that was not read, follows a null pointer, writes behind a buffer, or includes
files without end (for every bound on the depth).
-/

namespace HapAndroid.Highlight

instance : CItem SynPat := ⟨32, by decide, ⟨none, none, none, none, none, none, none, 0⟩⟩

/-- `curbuf` without its offsets, and the groups. -/
structure Loader where
  synCase : Bool
  keywtab : KeywordTable
  keywtabIc : KeywordTable
  patterns : GArray SynPat
  groups : GroupTable
deriving DecidableEq

/-- What the scanner uses of it. -/
def Loader.buf (l : Loader) : Buf := ⟨l.keywtab, l.keywtabIc, l.patterns.items⟩

/-- The sizes of the array of patterns are set. -/
def Loader.sized (l : Loader) : Loader :=
  { l with patterns := { l.patterns with itemsize := 32, growsize := 10 } }

/-! ## Pointers (`utils.c`) -/

def skipwhite (p : Bytes) : Bytes := p.dropWhile isWhite

def skiptowhite (p : Bytes) : Bytes := p.dropWhile fun c => !isBlank c

/-- The bytes that `skiptowhite` steps over. -/
def untilWhite (p : Bytes) : Bytes := p.takeWhile fun c => !isBlank c

/-- `ends_excmd` of the byte that is pointed at. -/
def endsExcmd (p : Bytes) : Bool := p.headD 0 ∈ [0, 0x7C, 0x23, 0x0A]

def gotoNextLine (p : Bytes) : Bytes := (p.dropWhile (· ≠ 0x0A)).dropWhile (· = 0x0A)

/-- `get_word`: the word, unless none is assigned, and the rest. -/
def getWord (p : Bytes) : Option Bytes × Bytes :=
  if endsExcmd (skipwhite p) then (none, skipwhite p)
  else
    (some ((skipwhite p).takeWhile isKeyword), skipwhite ((skipwhite p).dropWhile isKeyword))

/-! ## Keywords -/

/-- `syn_cmd_case`. -/
def synCmdCase (l : Loader) (p : Bytes) : Loader :=
  if (bytes "match").isPrefixOf p then { l with synCase := false }
  else if (bytes "ignore").isPrefixOf p then { l with synCase := true }
  else l

/-- `get_group_name`: what follows the name, unless that is nothing. -/
def getGroupName (p : Bytes) : Option Bytes :=
  if endsExcmd p ∨ skipwhite (skiptowhite p) = [] then none else some (skipwhite (skiptowhite p))

/-- `add_keyword`. -/
def addKeyword (group : Nat) (l : Loader) (name : Bytes) : Loader :=
  if l.synCase then { l with keywtabIc := (name.map toLower, group) :: l.keywtabIc }
  else { l with keywtab := (name, group) :: l.keywtab }

/-- Copy a word without its backslashes: the word and the rest. -/
def copyWord : Bytes → Bytes × Bytes
  | [] => ([], [])
  | c :: p =>
      if isBlank c then ([], c :: p)
      else
        match c, p with
        | 0x5C, d :: p => (d :: (copyWord p).1, (copyWord p).2)
        | c, p => (c :: (copyWord p).1, (copyWord p).2)

/-- The words of a line.  A carriage return is no word and no end: empty words are
written until the buffer is full. -/
def copyWords : Nat → Bytes → Option (List Bytes)
  | 0, p => if endsExcmd p then some [] else none
  | fuel + 1, p =>
      if endsExcmd p then some []
      else if isBreak (p.headD 0) then none
      else (copyWords fuel (skipwhite (copyWord p).2)).map ((copyWord p).1 :: ·)

/-- `syn_cmd_keyword`.  The id of the group is not looked at. -/
def synCmdKeyword (l : Loader) (p : Bytes) : Option Loader :=
  match getGroupName p with
  | none => some l
  | some rest =>
      match synCheckGroup l.groups (untilWhite p) true with
      | none => none
      | some (id, groups) =>
          (copyWords rest.length rest).map fun ws => ws.foldl (addKeyword id) { l with groups }

/-! ## Regions and matches -/

/-- The keys of a region, and the pattern of a match. -/
inductive Key where
  | start | skip | end | end2 | tag | hg | match
deriving DecidableEq

def Key.ofBytes (key : Bytes) : Option Key :=
  if key = bytes "TAG" then some .tag
  else if key = bytes "START" then some .start
  else if key = bytes "END" then some .end
  else if key = bytes "END2" then some .end2
  else if key = bytes "SKIP" then some .skip
  else if key = bytes "HG" then some .hg
  else none

def SynPat.set (pat : SynPat) (key : Key) (v : Bytes) : SynPat :=
  match key with
  | .start => { pat with start := some v }
  | .skip => { pat with skip := some v }
  | .end => { pat with «end» := some v }
  | .end2 => { pat with end2 := some v }
  | .tag => { pat with tag := some v }
  | .hg => { pat with hg := some v }
  | .match => { pat with «match» := some v }

/-- `get_syn_pattern`: the text between two delimiters, and what follows. -/
def getSynPattern (p : Bytes) : Option (Bytes × Bytes) :=
  match p with
  | delimiter :: b :: c :: p =>
      match (b :: c :: p).dropWhile (· ≠ delimiter) with
      | [] => none
      | _ :: rest =>
          if endsExcmd rest ∨ isWhite (rest.headD 0) then
            some ((b :: c :: p).takeWhile (· ≠ delimiter), skipwhite rest)
          else none
  | _ => none

/-- The loop over the keys: the pattern and the number of keys, unless the command is
dropped.  An unknown key ends the command and keeps what was read. -/
def readKeys : Nat → Bytes → SynPat → Nat → Option (SynPat × Nat)
  | 0, _, pat, count => some (pat, count)
  | fuel + 1, p, pat, count =>
      if endsExcmd p then some (pat, count)
      else
        let q := skipwhite p
        let key := q.takeWhile fun c => !isBlank c && c ≠ 0x3D
        let q := skipwhite (q.dropWhile fun c => !isBlank c && c ≠ 0x3D)
        match Key.ofBytes (upper key) with
        | none => some (pat, count)
        | some key =>
            if q.headD 0 = 0x3D then
              match getSynPattern (skipwhite q.tail) with
              | none => none
              | some (v, rest) => readKeys fuel rest (pat.set key v) (count + 1)
            else none

/-- Store a pattern, when its group has an id. -/
def storePattern (l : Loader) (name : Bytes) (pat : SynPat) (count : Nat) : Option Loader :=
  match synCheckGroup l.groups name true with
  | none => none
  | some (0, groups) => some { l with patterns := l.sized.patterns.grow count, groups }
  | some (id, groups) =>
      ((l.sized.patterns.grow count).put { pat with fromId := id }).map fun patterns =>
        { l with patterns, groups }

/-- `syn_cmd_region`. -/
def synCmdRegion (l : Loader) (p : Bytes) : Option Loader :=
  match getGroupName p with
  | none => some l.sized
  | some rest =>
      match readKeys rest.length rest CItem.zero 0 with
      | some (pat, count) =>
          if pat.start.isSome ∧ pat.end.isSome then storePattern l (untilWhite p) pat count
          else some l.sized
      | none => some l.sized

/-- `syn_cmd_match`.  Without arguments a null pointer is followed. -/
def synCmdMatch (l : Loader) (p : Bytes) : Option Loader :=
  match getGroupName p with
  | none => none
  | some rest =>
      match getSynPattern rest with
      | none => some l.sized
      | some (v, _) => storePattern l (untilWhite p) (SynPat.set CItem.zero .match v) 1

/-! ## Links and files -/

/-- `highlight_link`. -/
def highlightLink (l : Loader) (p : Bytes) : Option (Loader × Bytes) :=
  let target := skipwhite (skiptowhite p)
  if endsExcmd p ∨ endsExcmd target then some (l, p)
  else
    match synCheckGroup l.groups (untilWhite p) true with
    | none => none
    | some (fromId, groups) =>
        let toId := if (bytes "NONE").isPrefixOf target then 0
          else synName2id groups (untilWhite target)
        let groups := if 0 < fromId ∧ 0 < toId then linkGroup groups fromId toId else groups
        some ({ l with groups }, skiptowhite target)

/-- The directory of a file: up to the last slash that is not its last byte. -/
def dirOf (conf : Bytes) : Bytes :=
  (conf.dropLast.reverse.dropWhile (· ≠ 0x2F)).reverse

/-- The name that an include command opens, and what follows. -/
def includeName (conf p : Bytes) : Bytes × Bytes :=
  (dirOf conf ++ untilWhite (skipwhite p), skiptowhite (skipwhite p))

/-- The commands of a file; `load` reads another file. -/
def loadLoop (load : Bytes → Loader → Option Loader) (conf : Bytes) :
    Nat → Bytes → Loader → Option Loader
  | 0, _, l => some l
  | fuel + 1, p, l =>
      match p.dropWhile isBlank with
      | [] => some l
      | c :: p =>
          if c = 0x23 then loadLoop load conf fuel (gotoNextLine (c :: p)) l
          else
            match getWord (c :: p) with
            | (none, _) => none
            | (some cmd, rest) =>
                if cmd = bytes "syn" then
                  match getWord rest with
                  | (none, _) => none
                  | (some type, rest) =>
                      let l := if type = bytes "case" then some (synCmdCase l rest)
                        else if type = bytes "keyword" then synCmdKeyword l rest
                        else if type = bytes "region" then synCmdRegion l rest
                        else if type = bytes "match" then synCmdMatch l rest
                        else some l
                      l.bind (loadLoop load conf fuel (gotoNextLine rest))
                else if cmd = bytes "HiLink" then
                  match highlightLink l rest with
                  | none => none
                  | some (l, rest) => loadLoop load conf fuel (gotoNextLine rest) l
                else if cmd = bytes "include" then
                  (load (includeName conf rest).1 l).bind
                    (loadLoop load conf fuel (gotoNextLine (includeName conf rest).2))
                else loadLoop load conf fuel (gotoNextLine rest) l

/-- The files that can be read. -/
abbrev Files := Bytes → Option Bytes

/-- `load_syntax_conf`, with a bound on the depth of the inclusions.  A file counts up
to its first zero byte. -/
def loadSyntaxConf (files : Files) : Nat → Bytes → Loader → Option Loader
  | 0, _, _ => none
  | depth + 1, conf, l =>
      match files conf with
      | none => some l
      | some content =>
          let p := content.takeWhile (· ≠ 0)
          loadLoop (loadSyntaxConf files depth) conf p.length p l

/-- `syntax_init`, on the table of groups and on a new buffer, whose array of patterns
has the sizes that the memory held. -/
def syntaxInit (groups : GroupTable) (patterns : GArray SynPat) : Option Loader :=
  (initGroups groups).map fun groups =>
    synCmdCase ⟨false, [], [], patterns.init, groups⟩ (bytes "ignore")

/-- `syntax_init` and `load_syntax_conf`. -/
def loadConf (files : Files) (depth : Nat) (conf : Bytes) (groups : GroupTable)
    (patterns : GArray SynPat) : Option Loader :=
  (syntaxInit groups patterns).bind (loadSyntaxConf files depth conf)

end HapAndroid.Highlight
