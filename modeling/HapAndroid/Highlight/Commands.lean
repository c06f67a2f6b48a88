import Mathlib.Data.List.DropRight
import HapAndroid.Lib.Run
import HapAndroid.Highlight.Links

/-!
# The commands of a file

Where `load_syntax_conf` goes on does not depend on what the commands do: every command is read
from its own line, and the loop moves to the next one.  So a file is a list of commands, each with
the bytes from its argument to the end of the file, and a load performs them one after the other
(`loadLoop_eq_run`).

`Loader.Wf` is what the commands keep, and what makes the table of groups and the array of patterns
take one entry more.  Under it only the text decides whether a command comes back (`Returns`).
-/

namespace HapAndroid.Highlight

/-- A command with its argument, which goes on to the end of the file. -/
inductive Command where
  /-- No command word is read. -/
  | noWord
  /-- `syn` without a second word. -/
  | noType
  | synCase (arg : Bytes)
  | synKeyword (arg : Bytes)
  | synRegion (arg : Bytes)
  | synMatch (arg : Bytes)
  | hiLink (arg : Bytes)
  | synInclude (arg : Bytes)
  /-- A comment, or words that are no command. -/
  | skip
deriving DecidableEq

/-- The command that starts here. -/
def readCommand (p : Bytes) : Command :=
  if p.headD 0 = 0x23 then .skip
  else
    match getWord p with
    | (none, _) => .noWord
    | (some cmd, rest) =>
        if cmd = bytes "syn" then
          match getWord rest with
          | (none, _) => .noType
          | (some type, rest) =>
              if type = bytes "case" then .synCase rest
              else if type = bytes "keyword" then .synKeyword rest
              else if type = bytes "region" then .synRegion rest
              else if type = bytes "match" then .synMatch rest
              else .skip
        else if cmd = bytes "HiLink" then .hiLink rest
        else if cmd = bytes "include" then .synInclude rest
        else .skip

/-- The places from here on where the loop looks for a command, at most so many. -/
def placesFrom : Nat → Bytes → List Bytes
  | 0, _ => []
  | fuel + 1, p =>
      match p.dropWhile isBlank with
      | [] => []
      | c :: p => (c :: p) :: placesFrom fuel (gotoNextLine (c :: p))

def places (p : Bytes) : List Bytes := placesFrom p.length p

def commands (p : Bytes) : List Command := (places p).map readCommand

/-- Perform a command; `load` reads another file. -/
def exec (load : Bytes → Loader → Option Loader) (conf : Bytes) (l : Loader) :
    Command → Option Loader
  | .noWord => none
  | .noType => none
  | .synCase arg => some (synCmdCase l arg)
  | .synKeyword arg => synCmdKeyword l arg
  | .synRegion arg => synCmdRegion l arg
  | .synMatch arg => synCmdMatch l arg
  | .hiLink arg => (highlightLink l arg).map (·.1)
  | .synInclude arg => load (includeName conf arg).1 l
  | .skip => some l

/-! ## The loop performs the commands -/

section
variable {p : Bytes}

/-- A pointer that has moved in its line has the same next line. -/
theorem gotoNextLine_dropWhile {f : UInt8 → Bool} (hf : f 0x0A = false) (p : Bytes) :
    gotoNextLine (p.dropWhile f) = gotoNextLine p := by
  induction p with
  | nil => rfl
  | cons c p ih =>
      rw [List.dropWhile_cons]
      split
      · next hc =>
        have hne : c ≠ 0x0A := by
          rintro rfl
          simp [hf] at hc
        rw [ih, gotoNextLine, gotoNextLine, List.dropWhile_cons_of_pos (by simpa using hne)]
      · rfl

theorem gotoNextLine_skipwhite (p : Bytes) : gotoNextLine (skipwhite p) = gotoNextLine p :=
  gotoNextLine_dropWhile rfl p

theorem gotoNextLine_skiptowhite (p : Bytes) : gotoNextLine (skiptowhite p) = gotoNextLine p :=
  gotoNextLine_dropWhile rfl p

theorem gotoNextLine_getWord (p : Bytes) : gotoNextLine (getWord p).2 = gotoNextLine p := by
  unfold getWord
  split
  · exact gotoNextLine_skipwhite p
  · rw [gotoNextLine_skipwhite, gotoNextLine_dropWhile rfl, gotoNextLine_skipwhite]

theorem gotoNextLine_highlightLink {l l' : Loader} {rest : Bytes}
    (h : highlightLink l p = some (l', rest)) : gotoNextLine rest = gotoNextLine p := by
  unfold highlightLink at h
  dsimp only at h
  split at h
  · cases h
    rfl
  · split at h
    · cases h
    · cases h
      rw [gotoNextLine_skiptowhite, gotoNextLine_skipwhite, gotoNextLine_skiptowhite]

theorem gotoNextLine_includeName (conf p : Bytes) :
    gotoNextLine (includeName conf p).2 = gotoNextLine p := by
  rw [includeName, gotoNextLine_skiptowhite, gotoNextLine_skipwhite]

end

section
variable (load : Bytes → Loader → Option Loader) (conf : Bytes)

/-- One pass of the loop performs one command. -/
theorem loadLoop_cons {fuel : Nat} {p q : Bytes} {c : UInt8} (h : p.dropWhile isBlank = c :: q)
    (l : Loader) : loadLoop load conf (fuel + 1) p l =
      (exec load conf l (readCommand (c :: q))).bind
        (loadLoop load conf fuel (gotoNextLine (c :: q))) := by
  rw [loadLoop, h, readCommand, List.headD_cons]
  dsimp only
  by_cases hc : c = 0x23
  · rw [if_pos hc, if_pos hc]
    rfl
  · rw [if_neg hc, if_neg hc]
    have hnext := gotoNextLine_getWord (c :: q)
    generalize getWord (c :: q) = w at hnext ⊢
    rcases w with ⟨_ | cmd, rest⟩
    · rfl
    · dsimp only at hnext ⊢
      rw [← hnext]
      by_cases hsyn : cmd = bytes "syn"
      · rw [if_pos hsyn, if_pos hsyn]
        have hnext' := gotoNextLine_getWord rest
        generalize getWord rest = w' at hnext' ⊢
        rcases w' with ⟨_ | type, rest'⟩
        · rfl
        · dsimp only at hnext' ⊢
          rw [← hnext']
          split_ifs <;> rfl
      · rw [if_neg hsyn, if_neg hsyn]
        by_cases hlink : cmd = bytes "HiLink"
        · rw [if_pos hlink, if_pos hlink, exec]
          cases hl : highlightLink l rest with
          | none => rfl
          | some r =>
              rw [← gotoNextLine_highlightLink hl]
              rfl
        · rw [if_neg hlink, if_neg hlink]
          split_ifs
          · rw [gotoNextLine_includeName]
            rfl
          · rfl

/-- The loop of `load_syntax_conf` performs the commands of the text. -/
theorem loadLoop_eq_run (fuel : Nat) (p : Bytes) (l : Loader) :
    loadLoop load conf fuel p l =
      Run.run (exec load conf) l ((placesFrom fuel p).map readCommand) := by
  induction fuel generalizing p l with
  | zero => rfl
  | succ fuel ih =>
      cases h : p.dropWhile isBlank with
      | nil =>
          rw [loadLoop, placesFrom, h]
          rfl
      | cons c q =>
          rw [loadLoop_cons load conf h, placesFrom, h]
          exact congrArg (Option.bind _) (funext fun l' => ih _ l')

end

/-- A load performs the commands of its file. -/
theorem loadSyntaxConf_eq_run {files : Files} {conf content : Bytes} (h : files conf = some content)
    (depth : Nat) (l : Loader) : loadSyntaxConf files (depth + 1) conf l =
      Run.run (exec (loadSyntaxConf files depth) conf) l (commands (content.takeWhile (· ≠ 0))) := by
  rw [loadSyntaxConf, h]
  exact loadLoop_eq_run ..

/-! ## The places of a text -/

section
variable {α : Type} {f : α → Bool} {xs ys : List α} {c : α}

theorem of_dropWhile_eq_cons (h : xs.dropWhile f = c :: ys) : f c = false := by
  have hhead := List.head?_dropWhile_not f xs
  rw [h] at hhead
  simpa using hhead

theorem head_dropWhile : ∀ c ∈ (xs.dropWhile f).head?, f c = false := by
  intro c hc
  obtain ⟨ys, hys⟩ := List.head?_eq_some_iff.mp hc
  exact of_dropWhile_eq_cons hys

end

section
variable {p q : Bytes} {c : UInt8}

theorem isBlank_of_dropWhile (h : p.dropWhile isBlank = c :: q) : isBlank c = false :=
  of_dropWhile_eq_cons h

theorem ne_lf_of_dropWhile (h : p.dropWhile isBlank = c :: q) : c ≠ 0x0A := by
  rintro rfl
  cases isBlank_of_dropWhile h

theorem length_gotoNextLine_le (hc : c ≠ 0x0A) : (gotoNextLine (c :: q)).length ≤ q.length := by
  rw [gotoNextLine, List.dropWhile_cons_of_pos (by simpa using hc)]
  exact Nat.le_trans (List.dropWhile_suffix _).length_le (List.dropWhile_suffix _).length_le

/-- The next line is shorter than the text. -/
theorem length_next_lt (h : p.dropWhile isBlank = c :: q) :
    (gotoNextLine (c :: q)).length < p.length := by
  have hle : (c :: q).length ≤ p.length := h ▸ (List.dropWhile_suffix _).length_le
  have hnext := length_gotoNextLine_le (q := q) (ne_lf_of_dropWhile h)
  rw [List.length_cons] at hle
  omega

/-- All bounds that reach the end give the same places. -/
theorem placesFrom_eq {n m : Nat} (hn : p.length ≤ n) (hm : p.length ≤ m) :
    placesFrom n p = placesFrom m p := by
  induction n generalizing m p with
  | zero =>
      obtain rfl : p = [] := List.length_eq_zero_iff.mp (Nat.le_zero.mp hn)
      cases m <;> rfl
  | succ n ih =>
      cases m with
      | zero =>
          obtain rfl : p = [] := List.length_eq_zero_iff.mp (Nat.le_zero.mp hm)
          rfl
      | succ m =>
          rw [placesFrom, placesFrom]
          cases h : p.dropWhile isBlank with
          | nil => rfl
          | cons c q =>
              have hlt := length_next_lt h
              exact congrArg _ (ih (by omega) (by omega))

theorem places_nil (h : p.dropWhile isBlank = []) : places p = [] := by
  cases p with
  | nil => rfl
  | cons c p => rw [places, List.length_cons, placesFrom, h]

theorem places_cons (h : p.dropWhile isBlank = c :: q) :
    places p = (c :: q) :: places (gotoNextLine (c :: q)) := by
  have hlt := length_next_lt h
  cases p with
  | nil => cases h
  | cons b p =>
      rw [places, List.length_cons, placesFrom, h]
      rw [List.length_cons] at hlt
      exact congrArg _ (placesFrom_eq (by omega) (Nat.le_refl _))

/-- Induction along the lines of a text. -/
theorem lines_induction {P : Bytes → Prop}
    (nil : ∀ p, p.dropWhile isBlank = [] → P p)
    (cons : ∀ p c q, p.dropWhile isBlank = c :: q → P (gotoNextLine (c :: q)) → P p)
    (p : Bytes) : P p := by
  generalize hn : p.length = n
  induction n using Nat.strongRecOn generalizing p with
  | _ n ih =>
      cases h : p.dropWhile isBlank with
      | nil => exact nil p h
      | cons c q => exact cons p c q h (ih _ (hn ▸ length_next_lt h) _ rfl)

/-- A place is in the text, at a byte that is not blank. -/
theorem mem_places (h : q ∈ places p) : q <:+ p ∧ ∃ c t, q = c :: t ∧ isBlank c = false := by
  induction p using lines_induction with
  | nil p hp =>
      rw [places_nil hp] at h
      cases h
  | cons p c t hp ih =>
      have hsuffix : c :: t <:+ p := hp ▸ List.dropWhile_suffix _
      rw [places_cons hp] at h
      rcases List.mem_cons.mp h with rfl | h
      · exact ⟨hsuffix, c, t, rfl, isBlank_of_dropWhile hp⟩
      · obtain ⟨hq, hhead⟩ := ih h
        have hnext : gotoNextLine (c :: t) <:+ c :: t :=
          (List.dropWhile_suffix _).trans (List.dropWhile_suffix _)
        exact ⟨hq.trans (hnext.trans hsuffix), hhead⟩

end

/-! ## The group name -/

section
variable {p rest : Bytes}

theorem skipwhite_skipwhite (p : Bytes) : skipwhite (skipwhite p) = skipwhite p :=
  List.dropWhile_idempotent ..

theorem getGroupName_eq_some_iff : getGroupName p = some rest ↔
    endsExcmd p = false ∧ rest ≠ [] ∧ rest = skipwhite (skiptowhite p) := by
  unfold getGroupName
  split
  · next h =>
    refine iff_of_false (by simp) ?_
    rintro ⟨hend, hne, rfl⟩
    rcases h with h | h
    · exact absurd (hend.symm.trans h) (by decide)
    · exact hne h
  · next h =>
    obtain ⟨hend, hne⟩ := not_or.mp h
    constructor
    · rintro ⟨⟩
      exact ⟨Bool.eq_false_iff.mpr hend, hne, rfl⟩
    · rintro ⟨-, -, rfl⟩
      rfl

theorem getGroupName_eq_none_iff : getGroupName p = none ↔
    endsExcmd p = true ∨ skipwhite (skiptowhite p) = [] := by
  unfold getGroupName
  split <;> simp_all

/-- The arguments start with no blank. -/
theorem skipwhite_of_getGroupName (h : getGroupName p = some rest) : skipwhite rest = rest := by
  rw [(getGroupName_eq_some_iff.mp h).2.2, skipwhite_skipwhite]

end

/-! ## What the commands keep -/

/-- The table and the array have their sizes; those of the array are set again by every command
that uses it. -/
structure Loader.Wf (l : Loader) : Prop where
  groups : l.groups.Sized
  patterns : l.sized.patterns.Sized

namespace Loader

variable {l l' : Loader} {p : Bytes}

theorem Wf.sized (h : l.Wf) : l.sized.Wf := ⟨h.groups, h.patterns⟩

theorem wf_synCmdCase (h : l.Wf) (p : Bytes) : (synCmdCase l p).Wf := by
  unfold synCmdCase
  split_ifs <;> exact ⟨h.groups, h.patterns⟩

theorem foldl_addKeyword_eq (id : Nat) (ws : List Bytes) (l : Loader) :
    ∃ kt ktIc, ws.foldl (addKeyword id) l = { l with keywtab := kt, keywtabIc := ktIc } := by
  induction ws generalizing l with
  | nil => exact ⟨l.keywtab, l.keywtabIc, rfl⟩
  | cons w ws ih =>
      obtain ⟨kt, ktIc, heq⟩ := ih (addKeyword id l w)
      refine ⟨kt, ktIc, heq.trans ?_⟩
      unfold addKeyword
      split <;> rfl

/-- A keyword command looks its group up and adds its words, unless it does not come back. -/
theorem synCmdKeyword_eq (h : l.Wf) {rest : Bytes} (hrest : getGroupName p = some rest) :
    ∃ id groups, Checked l.groups (untilWhite p) id groups ∧ synCmdKeyword l p =
      (copyWords rest.length rest).map fun ws => ws.foldl (addKeyword id) { l with groups } := by
  obtain ⟨id, groups, hcheck, hchecked⟩ := exists_checked h.groups (untilWhite p)
  refine ⟨id, groups, hchecked, ?_⟩
  rw [synCmdKeyword, hrest]
  simp only [hcheck]

theorem wf_synCmdKeyword (h : l.Wf) (hcmd : synCmdKeyword l p = some l') : l'.Wf := by
  cases hrest : getGroupName p with
  | none =>
      rw [synCmdKeyword, hrest] at hcmd
      cases hcmd
      exact h
  | some rest =>
      obtain ⟨id, groups, hchecked, heq⟩ := synCmdKeyword_eq h hrest
      rw [heq] at hcmd
      obtain ⟨ws, -, rfl⟩ := Option.map_eq_some_iff.mp hcmd
      obtain ⟨kt, ktIc, hfold⟩ := foldl_addKeyword_eq id ws { l with groups }
      rw [hfold]
      exact ⟨hchecked.sized h.groups, h.patterns⟩

/-- What storing a pattern does: its group is looked up, and with an id the pattern is the last
one. -/
structure Stored (l : Loader) (name : Bytes) (pat : SynPat) (id : Nat) (l' : Loader) : Prop where
  checked : Checked l.groups name id l'.groups
  patterns : l'.patterns.items =
    l.patterns.items ++ if id = 0 then [] else [{ pat with fromId := id }]
  keywords : l'.keywtab = l.keywtab ∧ l'.keywtabIc = l.keywtabIc ∧ l'.synCase = l.synCase
  wf : l'.Wf

theorem exists_stored (h : l.Wf) (name : Bytes) (pat : SynPat) {count : Nat} (hn : 0 < count) :
    ∃ id l', storePattern l name pat count = some l' ∧ Stored l name pat id l' := by
  obtain ⟨id, groups, hcheck, hchecked⟩ := exists_checked h.groups name
  have hgroups := hchecked.sized h.groups
  rw [storePattern, hcheck]
  rcases id with _ | id
  · refine ⟨0, _, rfl, hchecked, ?_, ⟨rfl, rfl, rfl⟩, hgroups, ?_⟩
    · rw [if_pos rfl, List.append_nil]
      exact GArray.items_grow h.patterns count
    · have hgrow := GArray.sized_grow h.patterns count
      exact ⟨rfl, hgrow.length_data, hgrow.len_le⟩
  · obtain ⟨patterns, hput, hsized, hitems, -⟩ :=
      GArray.put_grow_eq h.patterns hn { pat with fromId := id + 1 }
    refine ⟨id + 1, { l with patterns, groups }, ?_, hchecked, ?_, ⟨rfl, rfl, rfl⟩, hgroups, ?_⟩
    · exact Option.map_eq_some_iff.mpr ⟨patterns, hput, rfl⟩
    · rw [if_neg (Nat.succ_ne_zero id)]
      exact hitems
    · exact ⟨rfl, hsized.length_data, hsized.len_le⟩

end Loader

/-- The state after `syntax_init` has its sizes. -/
theorem wf_syntaxInit {m : GArray SynPat} {l : Loader} (h : syntaxInit .fresh m = some l) :
    l.Wf := by
  obtain ⟨groups, hgroups, rfl⟩ := Option.map_eq_some_iff.mp h
  exact Loader.wf_synCmdCase ⟨(tableOk_initGroups hgroups).sized, ⟨rfl, rfl, Nat.le_refl _⟩⟩ _

/-- The state after `syntax_init` on new memory. -/
def initialLoader : Loader :=
  (syntaxInit .fresh .fresh).getD ⟨false, [], [], .fresh, .fresh⟩

theorem wf_initialLoader : initialLoader.Wf :=
  wf_syntaxInit (show syntaxInit .fresh .fresh = some initialLoader by decide +kernel)

end HapAndroid.Highlight
