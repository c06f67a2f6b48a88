import HapAndroid.Tool.FileTool

/-!
# The script files of `Shell.run` and `DShell.run`

Both classes write their commands to a temporary file and have a shell run it.
Before that they delete the lines that would start another shell, as two
substrings with the line breaks on both sides.  A deletion joins the lines around
it, and a switch at the start or the end of the script is not found, so a script
with such a line never comes out right.

The counter `si` is an `int`.  Here it is the number of times it has been counted up,
and it wraps around where it is looked at, in the names of the files: counting up
commutes with wrapping around.
-/

namespace HapAndroid.SuperUser

open Pattern (literal)

/-- `scripts.replace("\nsh\n", "").replace("\nsu\n", "")`. -/
def cleanUp (scripts : Text) : Text :=
  Pattern.replace (literal "\nsu\n".toList) []
    (Pattern.replace (literal "\nsh\n".toList) [] scripts)

/-- The decimal text of an `int` that has been counted up from zero so many times. -/
def intText (n : Nat) : Text :=
  match (Int32.ofNat n).toInt with
  | .ofNat m => Nat.toDigits 10 m
  | .negSucc m => '-' :: Nat.toDigits 10 (m + 1)

/-- `privpath + "/" + kind + "_shell_" + n + ".sh"`. -/
def tempFile (privpath kind : Text) (n : Nat) : Text :=
  privpath ++ '/' :: (kind ++ "_shell_".toList ++ intText n ++ ".sh".toList)

namespace Shell

/-- The temporary file of the shell with a number. -/
def tfile (privpath : Text) (ssi : Nat) : Text := tempFile privpath "s" ssi

/-- The part of `run` before the process: count the shell and write its script. -/
def run (st : Storage) (privpath : Text) (si : Nat) (cmd : Text) (fs : Files) : Bool × Files :=
  FileTool.writeSDFile st (cleanUp cmd) (tfile privpath (si + 1)) fs

end Shell

namespace DShell

/-- The temporary file of the shell with a number. -/
def tfile (privpath : Text) (di : Nat) : Text := tempFile privpath "d" di

/-- The part of `run` before the process: count the shell and write its script. -/
def run (st : Storage) (privpath : Text) (si : Nat) (scripts : Text) (fs : Files) :
    Bool × Files :=
  FileTool.writeSDFile st (cleanUp scripts) (tfile privpath (si + 1)) fs

end DShell

/-- The lines that switch to another shell. -/
def switches : List Text := ["sh", "su"]

/-- The lines of a text. -/
def lines (s : Text) : List Text := s.splitOn '\n'

/-- The lines of the script but the switches. -/
def wantedLines (scripts : Text) : List Text := (lines scripts).filter (· ∉ switches)

/-- The words of a line. -/
def words (l : Text) : List Text := (l.splitOn ' ').filter (· ≠ [])

/-- The characters that are not taken as they stand when a shell reads a word. -/
def shellChars : Text := "\t\n |&;<>()$\x60\\\"'*?[]#~\x7b\x7d".toList

/-- A text that is a word, or a part of one, for a shell. -/
def ShellPlain (s : Text) : Prop := ∀ c ∈ s, c ∉ shellChars

instance (s : Text) : Decidable (ShellPlain s) := s.decidableBAll (· ∉ shellChars)

/-- Whenever the script has been written, the file has the wanted lines. -/
def WritesLines (run : Storage → Text → Nat → Text → Files → Bool × Files)
    (tfile : Text → Nat → Text) (scripts : Text) : Prop :=
  ∀ st privpath si fs, (run st privpath si scripts fs).1 = true →
    lines (FileTool.readSDFile (run st privpath si scripts fs).2 (tfile privpath (si + 1))) =
      wantedLines scripts

/-! ## Counting what is deleted -/

/-- The clean-up takes some copies of the two words out of the script. -/
theorem exists_perm_cleanUp (scripts : Text) :
    ∃ m k, (cleanUp scripts ++ (List.replicate m "\nsu\n".toList).flatten ++
      (List.replicate k "\nsh\n".toList).flatten).Perm scripts := by
  obtain ⟨k, hk⟩ := Pattern.exists_perm_replace_nil (w := "\nsh\n".toList) (by decide) scripts
  obtain ⟨m, hm⟩ := Pattern.exists_perm_replace_nil (w := "\nsu\n".toList) (by decide)
    (Pattern.replace (literal "\nsh\n".toList) [] scripts)
  exact ⟨m, k, (hm.append_right _).trans hk⟩

/-- Of the deleted characters, as many are line breaks as are not. -/
theorem cleanUp_counts (scripts : Text) :
    ∃ d, (cleanUp scripts).length + 4 * d = scripts.length ∧
      (cleanUp scripts).count '\n' + 2 * d = scripts.count '\n' := by
  obtain ⟨m, k, hperm⟩ := exists_perm_cleanUp scripts
  have hlen := hperm.length_eq
  have hcount := hperm.count_eq '\n'
  have hsh : ("\nsh\n".toList).count '\n' = 2 := by decide
  have hsu : ("\nsu\n".toList).count '\n' = 2 := by decide
  refine ⟨m + k, ?_, ?_⟩
  · simp at hlen
    omega
  · simp [List.count_flatten] at hcount
    omega

/-- A word between two line breaks is a line. -/
theorem mem_lines_of_occurs {w s : Text} (hw : '\n' ∉ w)
    (h : Pattern.occurs (literal ('\n' :: (w ++ ['\n']))) s = true) : w ∈ lines s := by
  obtain ⟨k, hk⟩ := Option.isSome_iff_exists.mp h
  obtain ⟨a, b, rfl, -, hb⟩ := Pattern.indexOf?_eq_some hk
  obtain ⟨b, rfl⟩ := Pattern.matchesAt_literal_iff.mp hb
  have hlines : lines (a ++ ('\n' :: (w ++ ['\n']) ++ b)) = lines a ++ (w :: lines b) := by
    simp only [lines, List.cons_append, List.append_assoc, List.nil_append]
    rw [List.splitOn_append_cons_self, List.splitOn_append_cons_self_of_not_mem hw]
  rw [hlines]
  simp

/-- A script without switches is left alone. -/
theorem cleanUp_of_no_switch {scripts : Text} (h : ∀ l ∈ lines scripts, l ∉ switches) :
    cleanUp scripts = scripts := by
  have hnot : ∀ w ∈ switches, Pattern.occurs (literal ('\n' :: (w ++ ['\n']))) scripts = false := by
    intro w hw
    have hbreak : ∀ w ∈ switches, '\n' ∉ w := by decide
    by_contra hocc
    exact h w (mem_lines_of_occurs (hbreak w hw) (Bool.of_not_eq_false hocc)) hw
  have hsh := @Pattern.replace_of_not_occurs _ _ [] _ (hnot "sh" (by decide))
  have hsu := @Pattern.replace_of_not_occurs _ _ [] _ (hnot "su" (by decide))
  exact (congrArg _ hsh).trans hsu

/-! ## Running a file -/

theorem ShellPlain.append {s t : Text} (hs : ShellPlain s) (ht : ShellPlain t) :
    ShellPlain (s ++ t) := by
  intro c hc
  rcases List.mem_append.mp hc with hc | hc
  · exact hs c hc
  · exact ht c hc

/-- Taking the switches out of a list of lines takes two characters for each. -/
theorem length_filter_switches (ls : List Text) :
    ∃ k, (ls.filter (· ∉ switches)).length + k = ls.length ∧
      (ls.filter (· ∉ switches)).flatten.length + 2 * k = ls.flatten.length ∧
      (k = 0 → ∀ l ∈ ls, l ∉ switches) := by
  induction ls with
  | nil => exact ⟨0, by simp⟩
  | cons l ls ih =>
      obtain ⟨k, hlen, hflat, hzero⟩ := ih
      by_cases hl : l ∈ switches
      · have hlen2 : l.length = 2 := by
          have : ∀ l ∈ switches, l.length = 2 := by decide
          exact this l hl
        refine ⟨k + 1, ?_, ?_, by simp⟩
        · simp [hl, ← hlen]
          omega
        · simp [hl, hlen2, ← hflat]
          omega
      · refine ⟨k, ?_, ?_, fun hk => List.forall_mem_cons.mpr ⟨hl, hzero hk⟩⟩
        · simp [hl, ← hlen]
          omega
        · simp [hl, ← hflat]
          omega

/-- The clean-up gives the wanted lines exactly if there was nothing to clean up. -/
theorem lines_cleanUp_iff (scripts : Text) :
    lines (cleanUp scripts) = wantedLines scripts ↔ ∀ l ∈ lines scripts, l ∉ switches := by
  constructor
  · intro h
    obtain ⟨d, hlen, hcount⟩ := cleanUp_counts scripts
    obtain ⟨k, hlines, hflat, hzero⟩ := length_filter_switches (lines scripts)
    -- A deletion takes two line breaks, a wanted one takes a single line break.
    apply hzero
    rw [← wantedLines, ← h] at hlines hflat
    have h1 := Pattern.length_splitOn '\n' scripts
    have h2 := Pattern.length_splitOn '\n' (cleanUp scripts)
    have h3 := Pattern.length_flatten_splitOn '\n' scripts
    have h4 := Pattern.length_flatten_splitOn '\n' (cleanUp scripts)
    rw [lines, lines] at hlines hflat
    omega
  · intro h
    rw [cleanUp_of_no_switch h, wantedLines, List.filter_eq_self.mpr (by simpa using h)]

/-! ## The files -/

/-- A runner that writes the cleaned script to its temporary file. -/
theorem writesLines_iff {run : Storage → Text → Nat → Text → Files → Bool × Files}
    {tfile : Text → Nat → Text} {scripts : Text}
    (hrun : ∀ st privpath si fs, run st privpath si scripts fs =
      FileTool.writeSDFile st (cleanUp scripts) (tfile privpath (si + 1)) fs)
    (hsome : ∃ st privpath si fs, (run st privpath si scripts fs).1 = true) :
    WritesLines run tfile scripts ↔ lines (cleanUp scripts) = wantedLines scripts := by
  have hread : ∀ st privpath si fs, (run st privpath si scripts fs).1 = true →
      FileTool.readSDFile (run st privpath si scripts fs).2 (tfile privpath (si + 1)) =
        cleanUp scripts := by
    intro st privpath si fs htrue
    rw [hrun] at htrue ⊢
    exact FileTool.readSDFile_writeSDFile htrue
  constructor
  · intro h
    obtain ⟨st, privpath, si, fs, htrue⟩ := hsome
    rw [← hread st privpath si fs htrue]
    exact h st privpath si fs htrue
  · intro h st privpath si fs htrue
    rw [hread st privpath si fs htrue]
    exact h

/-- A file can be written in an empty root directory. -/
theorem writeSDFile_bare (str : Text) {name n : Text} (hname : toPath .bare name = [n]) :
    (FileTool.writeSDFile .sound str name .bare).1 = true := by
  refine FileTool.writeBytes_sound _ ?_ ?_ fun x hx => ?_
  · rw [hname]
    exact List.cons_ne_nil _ _
  · rw [hname]
    rfl
  · rw [hname] at hx
    cases hx

theorem shell_writes (scripts : Text) : (Shell.run .sound [] 0 scripts .bare).1 = true :=
  writeSDFile_bare _ (n := "s_shell_1.sh") (by decide +kernel)

theorem dshell_writes (scripts : Text) : (DShell.run .sound [] 0 scripts .bare).1 = true :=
  writeSDFile_bare _ (n := "d_shell_1.sh") (by decide +kernel)

/-- Both runners write the wanted lines exactly if no line is a switch. -/
theorem run_writes_lines_iff (scripts : Text) :
    (WritesLines Shell.run Shell.tfile scripts ∧ WritesLines DShell.run DShell.tfile scripts) ↔
      ∀ l ∈ lines scripts, l ∉ switches := by
  rw [writesLines_iff (fun _ _ _ _ => rfl) ⟨_, _, _, _, shell_writes scripts⟩,
    writesLines_iff (fun _ _ _ _ => rfl) ⟨_, _, _, _, dshell_writes scripts⟩, and_self]
  exact lines_cleanUp_iff scripts

/-- A script that switches to the root shell between two commands gets them joined. -/
theorem run_joins_commands :
    cleanUp "id\nsu\nls".toList = "idls".toList ∧
      wantedLines "id\nsu\nls" = ["id".toList, "ls".toList] ∧
      ¬ WritesLines Shell.run Shell.tfile "id\nsu\nls" ∧
      ¬ WritesLines DShell.run DShell.tfile "id\nsu\nls" := by
  have hgot : cleanUp "id\nsu\nls".toList = "idls".toList := by decide +kernel
  have hwant : wantedLines "id\nsu\nls" = ["id".toList, "ls".toList] := by decide +kernel
  have hne : ¬ lines (cleanUp "id\nsu\nls") = wantedLines "id\nsu\nls" := by decide +kernel
  refine ⟨hgot, hwant, ?_, ?_⟩
  · rwa [writesLines_iff (fun _ _ _ _ => rfl) ⟨_, _, _, _, shell_writes _⟩]
  · rwa [writesLines_iff (fun _ _ _ _ => rfl) ⟨_, _, _, _, dshell_writes _⟩]

end HapAndroid.SuperUser
