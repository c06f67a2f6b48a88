import HapAndroid.Lib.Acyclic
import HapAndroid.Highlight.KeywordLine
import HapAndroid.Highlight.ReadWords
import HapAndroid.Highlight.RegionCommand

/-!
# Files that include files

A command other than an include comes back or not by its text alone: it has its words, the
arguments of a match are there, and a list of keywords has no carriage return
(`Command.Returns`).  An include comes back when the load of the other file does.

So a load of one of finitely many files comes back exactly when every command of every file that
it can reach does, and no file that it can reach includes itself, directly or through others
(`load_returns_iff`).  The loader does not look for either.
-/

namespace HapAndroid.Highlight

open Relation

/-! ## Commands that come back -/

/-- The command comes back, if it is no include. -/
def Command.Returns : Command → Prop
  | .noWord => False
  | .noType => False
  | .synKeyword arg => ∀ rest ∈ getGroupName arg, Letter.cr ∉ listLetters true (letters rest)
  | .synMatch arg => MatchArguments arg
  | _ => True

/-- The argument. -/
def Command.arg : Command → Bytes
  | .noWord | .noType | .skip => []
  | .synCase arg | .synKeyword arg | .synRegion arg | .synMatch arg => arg
  | .hiLink arg | .synInclude arg => arg

namespace Loader

variable {l l' : Loader} {p : Bytes}

theorem wf_synCmdRegion (h : l.Wf) (p : Bytes) : ∃ l', synCmdRegion l p = some l' ∧ l'.Wf := by
  rcases synCmdRegion_cases h p with hdrop | ⟨_, _, l', _, _, _, hcmd, hstored⟩
  · exact ⟨_, hdrop, h.sized⟩
  · exact ⟨l', hcmd, hstored.wf⟩

theorem wf_synCmdMatch (h : l.Wf) (hp : MatchArguments p) :
    ∃ l', synCmdMatch l p = some l' ∧ l'.Wf := by
  obtain ⟨rest, hrest⟩ := Option.isSome_iff_exists.mp (matchArguments_iff.mp hp)
  cases hget : getSynPattern rest with
  | none => exact ⟨_, by simp only [synCmdMatch, hrest, hget], h.sized⟩
  | some r =>
      obtain ⟨id, l', hstore, hstored⟩ := exists_stored h (untilWhite p)
        (SynPat.set CItem.zero .match r.1) Nat.one_pos
      exact ⟨l', by simp only [synCmdMatch, hrest, hget, hstore], hstored.wf⟩

theorem wf_highlightLink (h : l.Wf) (p : Bytes) :
    ∃ r, highlightLink l p = some r ∧ r.1.Wf := by
  unfold highlightLink
  dsimp only
  split
  · exact ⟨_, rfl, h⟩
  · obtain ⟨id, groups, hcheck, hchecked⟩ := exists_checked h.groups (untilWhite p)
    have hgroups := hchecked.sized h.groups
    have hlink : ∀ toId, (if 0 < id ∧ 0 < toId then linkGroup groups id toId else groups).Sized := by
      intro toId
      split
      · exact sized_linkGroup hgroups id toId
      · exact hgroups
    simp only [hcheck]
    exact ⟨_, rfl, hlink _, h.patterns⟩

theorem exists_synCmdKeyword (h : l.Wf) (h0 : 0 ∉ p) : (∃ l', synCmdKeyword l p = some l') ↔
    ∀ rest ∈ getGroupName p, Letter.cr ∉ listLetters true (letters rest) := by
  cases hrest : getGroupName p with
  | none =>
      refine iff_of_true ⟨l, ?_⟩ (by simp)
      rw [synCmdKeyword, hrest]
  | some rest =>
      obtain ⟨id, groups, -, heq⟩ := synCmdKeyword_eq h hrest
      have hcopy := copyWords_eq (notMem_arguments h0 hrest) (skipwhite_of_getGroupName hrest)
        (Nat.le_refl _)
      rw [heq, hcopy]
      constructor
      · rintro ⟨l', hl'⟩ _ ⟨⟩ hcr
        rw [if_pos hcr] at hl'
        cases hl'
      · intro hcr
        rw [if_neg (hcr rest rfl)]
        exact ⟨_, rfl⟩

theorem exists_synCmdMatch (h : l.Wf) : (∃ l', synCmdMatch l p = some l') ↔ MatchArguments p := by
  constructor
  · rintro ⟨l', hl'⟩
    refine matchArguments_iff.mpr ?_
    cases hrest : getGroupName p with
    | none => simp [synCmdMatch, hrest] at hl'
    | some rest => rfl
  · intro hp
    obtain ⟨l', hcmd, -⟩ := wf_synCmdMatch h hp
    exact ⟨l', hcmd⟩

end Loader

section
variable {load : Bytes → Loader → Option Loader} {conf : Bytes} {l l' : Loader} {c : Command}

/-- Under the invariant only the text decides whether a command comes back. -/
theorem exec_returns_iff (h : l.Wf) (h0 : 0 ∉ c.arg) (hc : ∀ arg, c ≠ .synInclude arg) :
    (∃ l', exec load conf l c = some l') ↔ c.Returns := by
  cases c with
  | noWord => exact iff_of_false (fun ⟨_, hl'⟩ => nomatch hl') id
  | noType => exact iff_of_false (fun ⟨_, hl'⟩ => nomatch hl') id
  | synCase arg => exact iff_of_true ⟨_, rfl⟩ trivial
  | synKeyword arg => exact Loader.exists_synCmdKeyword h h0
  | synRegion arg =>
      obtain ⟨l', hcmd, -⟩ := Loader.wf_synCmdRegion h arg
      exact iff_of_true ⟨l', hcmd⟩ trivial
  | synMatch arg => exact Loader.exists_synCmdMatch h
  | hiLink arg =>
      obtain ⟨r, hlink, -⟩ := Loader.wf_highlightLink h arg
      exact iff_of_true ⟨r.1, by rw [exec, hlink, Option.map_some]⟩ trivial
  | synInclude arg => exact absurd rfl (hc arg)
  | skip => exact iff_of_true ⟨l, rfl⟩ trivial

/-- The commands keep the invariant, if the load of other files does. -/
theorem wf_exec (hload : ∀ f l l', l.Wf → load f l = some l' → l'.Wf) (h : l.Wf)
    (hexec : exec load conf l c = some l') : l'.Wf := by
  cases c with
  | noWord => cases hexec
  | noType => cases hexec
  | synCase arg =>
      cases hexec
      exact Loader.wf_synCmdCase h arg
  | synKeyword arg => exact Loader.wf_synCmdKeyword h hexec
  | synRegion arg =>
      obtain ⟨l₁, hcmd, hwf⟩ := Loader.wf_synCmdRegion h arg
      cases hcmd.symm.trans hexec
      exact hwf
  | synMatch arg =>
      have hp := (Loader.exists_synCmdMatch h).mp ⟨l', hexec⟩
      obtain ⟨l₁, hcmd, hwf⟩ := Loader.wf_synCmdMatch h hp
      cases hcmd.symm.trans hexec
      exact hwf
  | hiLink arg =>
      obtain ⟨r, hlink, hwf⟩ := Loader.wf_highlightLink h arg
      rw [exec, hlink] at hexec
      cases hexec
      exact hwf
  | synInclude arg => exact hload _ l l' h hexec
  | skip =>
      cases hexec
      exact h

end

/-! ## The files that a load reaches -/

/-- The commands of a file; none if it cannot be read. -/
def fileCommands (files : Files) (conf : Bytes) : List Command :=
  (files conf).elim [] fun content => commands (content.takeWhile (· ≠ 0))

/-- A file has an include command for another one. -/
def Includes (files : Files) (conf other : Bytes) : Prop :=
  ∃ arg, .synInclude arg ∈ fileCommands files conf ∧ (includeName conf arg).1 = other

section
variable {files : Files} {depth : Nat} {conf : Bytes} {l l' : Loader}

theorem loadSyntaxConf_succ (files : Files) (depth : Nat) (conf : Bytes) (l : Loader) :
    loadSyntaxConf files (depth + 1) conf l =
      Run.run (exec (loadSyntaxConf files depth) conf) l (fileCommands files conf) := by
  cases h : files conf with
  | none => rw [loadSyntaxConf, h, fileCommands, h, Option.elim_none, Run.run_nil]
  | some content => rw [loadSyntaxConf_eq_run h, fileCommands, h, Option.elim_some]

theorem wf_loadSyntaxConf (h : l.Wf) (hload : loadSyntaxConf files depth conf l = some l') :
    l'.Wf := by
  induction depth generalizing conf l l' with
  | zero => cases hload
  | succ depth ih =>
      rw [loadSyntaxConf_succ] at hload
      exact Run.run_invariant (fun _ _ _ hs => wf_exec (fun _ _ _ => ih) hs) _ h hload

/-- A deeper bound gives the same result. -/
theorem loadSyntaxConf_mono {depth' : Nat} (hle : depth ≤ depth')
    (h : loadSyntaxConf files depth conf l = some l') :
    loadSyntaxConf files depth' conf l = some l' := by
  induction depth generalizing depth' conf l l' with
  | zero => cases h
  | succ depth ih =>
      obtain ⟨depth', rfl⟩ : ∃ d, depth' = d + 1 := ⟨depth' - 1, by omega⟩
      rw [loadSyntaxConf_succ] at h ⊢
      refine Run.run_mono (fun s c t hexec => ?_) h
      cases c with
      | synInclude arg => exact ih (by omega) hexec
      | _ => exact hexec

end

/-! ### The arguments are in the file -/

section
variable {files : Files} {conf p : Bytes} {c : Command}

theorem getWord_suffix (p : Bytes) : (getWord p).2 <:+ p := by
  unfold getWord
  split
  · exact List.dropWhile_suffix _
  · exact (List.dropWhile_suffix _).trans
      ((List.dropWhile_suffix _).trans (List.dropWhile_suffix _))

theorem arg_readCommand (p : Bytes) : (readCommand p).arg <:+ p := by
  have hword := getWord_suffix p
  unfold readCommand
  split
  · exact List.nil_suffix
  · generalize getWord p = w at hword ⊢
    rcases w with ⟨_ | cmd, rest⟩
    · exact List.nil_suffix
    · dsimp only at hword ⊢
      split
      · have htype := getWord_suffix rest
        generalize getWord rest = w' at htype ⊢
        rcases w' with ⟨_ | type, rest'⟩
        · exact List.nil_suffix
        · dsimp only at htype ⊢
          split_ifs
          all_goals first | exact htype.trans hword | exact List.nil_suffix
      · split_ifs
        all_goals first | exact hword | exact List.nil_suffix

theorem zero_notMem_arg (h : c ∈ fileCommands files conf) : 0 ∉ c.arg := by
  cases hfile : files conf with
  | none =>
      rw [fileCommands, hfile] at h
      cases h
  | some content =>
      rw [fileCommands, hfile, Option.elim_some] at h
      obtain ⟨q, hq, rfl⟩ := List.mem_map.mp h
      intro hmem
      have hin := ((arg_readCommand q).trans (mem_places hq).1).subset hmem
      simpa using List.mem_takeWhile_imp hin

end

/-! ## The include graph -/

section
variable {files : Files} {x y conf : Bytes} {depth : Nat}

/-- The load of a file comes back in some state. -/
def LoadsAt (files : Files) (depth : Nat) (conf : Bytes) : Prop :=
  ∃ l l', l.Wf ∧ loadSyntaxConf files depth conf l = some l'

/-- A load that comes back performs every command. -/
theorem LoadsAt.exec (h : LoadsAt files depth conf) : ∃ d < depth, ∀ c ∈ fileCommands files conf,
    ∃ l l', l.Wf ∧ exec (loadSyntaxConf files d) conf l c = some l' := by
  obtain ⟨l, l', hwf, hload⟩ := h
  cases depth with
  | zero => cases hload
  | succ depth =>
      rw [loadSyntaxConf_succ] at hload
      refine ⟨depth, Nat.lt_succ_self _, Run.exists_step_of_run (fun _ _ _ hs => ?_) hwf hload⟩
      exact wf_exec (fun _ _ _ => wf_loadSyntaxConf) hs

theorem LoadsAt.includes (h : LoadsAt files depth x) (hxy : Includes files x y) :
    ∃ d < depth, LoadsAt files d y := by
  obtain ⟨d, hd, hexec⟩ := h.exec
  obtain ⟨arg, harg, rfl⟩ := hxy
  exact ⟨d, hd, hexec _ harg⟩

theorem LoadsAt.reaches (h : LoadsAt files depth x) (hxy : TransGen (Includes files) x y) :
    ∃ d < depth, LoadsAt files d y := by
  induction hxy with
  | single hxy => exact h.includes hxy
  | tail _ hyz ih =>
      obtain ⟨d, hd, hy⟩ := ih
      obtain ⟨d', hd', hz⟩ := hy.includes hyz
      exact ⟨d', Nat.lt_trans hd' hd, hz⟩

/-- A file on a cycle is loaded again and again, at every depth. -/
theorem not_loadsAt_of_cycle (h : TransGen (Includes files) x x) : ¬ LoadsAt files depth x := by
  induction depth using Nat.strongRecOn with
  | _ depth ih =>
      intro hload
      obtain ⟨d, hd, hx⟩ := hload.reaches h
      exact ih d hd hx

/-- The files that a file includes come back at one depth. -/
theorem exists_depth (cs : List Command)
    (h : ∀ arg, .synInclude arg ∈ cs → ∃ d, ∀ l, l.Wf →
      ∃ l', loadSyntaxConf files d (includeName conf arg).1 l = some l') :
    ∃ d, ∀ arg, .synInclude arg ∈ cs → ∀ l, l.Wf →
      ∃ l', loadSyntaxConf files d (includeName conf arg).1 l = some l' := by
  induction cs with
  | nil => exact ⟨0, fun arg harg => absurd harg List.not_mem_nil⟩
  | cons c cs ih =>
      obtain ⟨d, hd⟩ := ih fun arg harg => h arg (List.mem_cons_of_mem c harg)
      by_cases hc : ∃ arg, c = .synInclude arg
      · obtain ⟨arg, rfl⟩ := hc
        obtain ⟨d', hd'⟩ := h arg (List.mem_cons_self ..)
        refine ⟨max d d', fun arg' harg' l hl => ?_⟩
        rcases List.mem_cons.mp harg' with heq | harg'
        · cases heq
          obtain ⟨l', hload⟩ := hd' l hl
          exact ⟨l', loadSyntaxConf_mono (Nat.le_max_right ..) hload⟩
        · obtain ⟨l', hload⟩ := hd arg' harg' l hl
          exact ⟨l', loadSyntaxConf_mono (Nat.le_max_left ..) hload⟩
      · refine ⟨d, fun arg harg l hl => ?_⟩
        rcases List.mem_cons.mp harg with heq | harg
        · exact absurd ⟨arg, heq.symm⟩ hc
        · exact hd arg harg l hl

/-- A file whose commands and included files come back comes back. -/
theorem loads_of_includes (hreturns : ∀ c ∈ fileCommands files conf, c.Returns)
    (hincludes : ∀ y, Includes files conf y → ∃ d, ∀ l, l.Wf →
      ∃ l', loadSyntaxConf files d y l = some l') :
    ∃ d, ∀ l, l.Wf → ∃ l', loadSyntaxConf files d conf l = some l' := by
  obtain ⟨d, hd⟩ := exists_depth (fileCommands files conf)
    fun arg harg => hincludes _ ⟨arg, harg, rfl⟩
  refine ⟨d + 1, fun l hl => ?_⟩
  rw [loadSyntaxConf_succ]
  have hstep : ∀ c ∈ fileCommands files conf, ∀ s : Loader, s.Wf →
      ∃ t, exec (loadSyntaxConf files d) conf s c = some t ∧ t.Wf := by
    intro c hc s hs
    have hexec : ∃ t, exec (loadSyntaxConf files d) conf s c = some t := by
      by_cases hinc : ∃ arg, c = .synInclude arg
      · obtain ⟨arg, rfl⟩ := hinc
        exact hd arg hc s hs
      · exact (exec_returns_iff hs (zero_notMem_arg hc) (not_exists.mp hinc)).mpr (hreturns c hc)
    obtain ⟨t, ht⟩ := hexec
    exact ⟨t, ht, wf_exec (fun _ _ _ => wf_loadSyntaxConf) hs ht⟩
  obtain ⟨l', hrun, -⟩ := Run.exists_run hstep hl
  exact ⟨l', hrun⟩

end

/-- Finitely many files, with their names. -/
abbrev FileSet := List (Bytes × Bytes)

def FileSet.files (fs : FileSet) : Files := fun conf => fs.lookup conf

/-- Only a file of the set includes others. -/
theorem FileSet.mem_of_includes {fs : FileSet} {x y : Bytes} (h : Includes fs.files x y) :
    x ∈ fs.map Prod.fst := by
  obtain ⟨arg, harg, -⟩ := h
  cases hfile : fs.lookup x with
  | none =>
      rw [fileCommands, FileSet.files, hfile] at harg
      cases harg
  | some content =>
      obtain ⟨before, after, rfl, -⟩ := List.lookup_eq_some_iff.mp hfile
      simp

/-- The load of a file of a finite set comes back exactly when all commands of the files that it
reaches do, and none of these files includes itself through others. -/
theorem load_returns_iff (fs : FileSet) (conf : Bytes) {l : Loader} (h : l.Wf) :
    (∃ depth l', loadSyntaxConf fs.files depth conf l = some l') ↔
      ∀ x, ReflTransGen (Includes fs.files) conf x →
        (∀ c ∈ fileCommands fs.files x, c.Returns) ∧ ¬ TransGen (Includes fs.files) x x := by
  constructor
  · rintro ⟨depth, l', hload⟩ x hx
    have hloads : ∃ d, LoadsAt fs.files d x := by
      rcases reflTransGen_iff_eq_or_transGen.mp hx with rfl | hx
      · exact ⟨depth, l, l', h, hload⟩
      · obtain ⟨d, -, hd⟩ := LoadsAt.reaches ⟨l, l', h, hload⟩ hx
        exact ⟨d, hd⟩
    obtain ⟨d, hd⟩ := hloads
    refine ⟨fun c hc => ?_, fun hcycle => not_loadsAt_of_cycle hcycle hd⟩
    obtain ⟨d', -, hexec⟩ := hd.exec
    by_cases hinc : ∃ arg, c = .synInclude arg
    · obtain ⟨arg, rfl⟩ := hinc
      trivial
    · obtain ⟨s, t, hs, ht⟩ := hexec c hc
      exact (exec_returns_iff hs (zero_notMem_arg hc) (not_exists.mp hinc)).mp ⟨t, ht⟩
  · intro hall
    obtain ⟨d, hd⟩ := Acyclic.reach_induction
      (P := fun x => ∃ d, ∀ l, l.Wf → ∃ l', loadSyntaxConf fs.files d x l = some l')
      (fun _ _ => FileSet.mem_of_includes) (fun x hx => (hall x hx).2)
      (fun x hx ih => loads_of_includes (hall x hx).1 ih) conf .refl
    obtain ⟨l', hload⟩ := hd l h
    exact ⟨d, l', hload⟩

/-- A file and one beside it that it includes. -/
def pairFiles : FileSet :=
  [(bytes "d/a", bytes "include b\nsyn keyword Keyword if\n"),
    (bytes "d/b", bytes "HiLink Keyword String\n")]

theorem fileCommands_pair :
    fileCommands pairFiles.files (bytes "d/a") =
        [.synInclude (bytes "b\nsyn keyword Keyword if\n"), .synKeyword (bytes "Keyword if\n")] ∧
      fileCommands pairFiles.files (bytes "d/b") = [.hiLink (bytes "Keyword String\n")] := by
  decide +kernel

theorem includes_pair {x y : Bytes} (h : Includes pairFiles.files x y) :
    x = bytes "d/a" ∧ y = bytes "d/b" := by
  have hmem := FileSet.mem_of_includes h
  obtain ⟨arg, harg, rfl⟩ := h
  rcases List.mem_cons.mp hmem with rfl | hmem
  · rw [show (bytes "d/a", bytes "include b\nsyn keyword Keyword if\n").1 = bytes "d/a" from rfl,
      fileCommands_pair.1] at harg
    rcases List.mem_cons.mp harg with heq | harg
    · cases heq
      exact ⟨rfl, by decide +kernel⟩
    · simp at harg
  · obtain rfl := List.mem_singleton.mp hmem
    rw [fileCommands_pair.2] at harg
    simp at harg

/-- Both are loaded. -/
theorem load_returns_pair : initialLoader.Wf ∧
    ∃ depth l', loadSyntaxConf pairFiles.files depth (bytes "d/a") initialLoader = some l' := by
  refine ⟨wf_initialLoader, (load_returns_iff pairFiles _ wf_initialLoader).mpr fun x hx => ⟨?_, ?_⟩⟩
  · rcases hx.cases_tail with rfl | ⟨y, -, hy⟩
    · rw [fileCommands_pair.1]
      refine List.forall_mem_cons.mpr ⟨trivial, List.forall_mem_singleton.mpr ?_⟩
      rintro _ ⟨⟩
      decide +kernel
    · rw [(includes_pair hy).2, fileCommands_pair.2]
      exact List.forall_mem_singleton.mpr trivial
  · intro hcycle
    obtain ⟨y, hy, -⟩ := TransGen.head'_iff.mp hcycle
    obtain ⟨z, -, hz⟩ := TransGen.tail'_iff.mp hcycle
    exact absurd ((includes_pair hy).1.symm.trans (includes_pair hz).2) (by decide +kernel)

/-- A file that includes itself. -/
def selfFiles : FileSet := [(bytes "a", bytes "include a\n")]

/-- Its load does not come back. -/
theorem self_not_returns :
    ¬ ∃ depth l', loadSyntaxConf selfFiles.files depth (bytes "a") initialLoader = some l' := by
  rintro ⟨depth, l', hload⟩
  have hself : Includes selfFiles.files (bytes "a") (bytes "a") :=
    ⟨bytes "a\n", by decide +kernel, by decide +kernel⟩
  exact not_loadsAt_of_cycle (.single hself) ⟨initialLoader, l', wf_initialLoader, hload⟩

end HapAndroid.Highlight
