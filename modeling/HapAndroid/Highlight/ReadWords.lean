import HapAndroid.Highlight.Commands

/-!
# The words that the loader uses

`get_word` assigns no word at the end of a line, at a bar or at a hash, and `get_group_name`
returns no pointer when nothing follows the name.  `accesses` lists what a pass of the loop does
with the variables for the command word, for the second word and for the arguments of a match.

`words_read_iff` says which texts have every variable assigned in a pass before it is used there:
the loop itself only looks for the end of the text and for comments.
-/

namespace HapAndroid.Highlight

/-- The variables for words and pointers. -/
inductive Var where
  /-- `cmd` -/
  | cmd
  /-- `type` -/
  | type
  /-- `rest` in `syn_cmd_match` -/
  | rest
deriving DecidableEq

inductive Access where
  /-- A word or a pointer is stored. -/
  | assign (v : Var)
  | compare (v : Var)
  | free (v : Var)
  | follow (v : Var)
deriving DecidableEq

/-- Every use is one of an assigned variable. -/
def UsesAssigned : List Var → List Access → Prop
  | _, [] => True
  | vs, .assign v :: as => UsesAssigned (v :: vs) as
  | vs, .compare v :: as => v ∈ vs ∧ UsesAssigned vs as
  | vs, .free v :: as => v ∈ vs ∧ UsesAssigned vs as
  | vs, .follow v :: as => v ∈ vs ∧ UsesAssigned vs as

/-- What `syn_cmd_match` does with the pointer to its arguments. -/
def matchAccesses (arg : Bytes) : List Access :=
  if (getGroupName arg).isSome then [.assign .rest, .follow .rest] else [.follow .rest]

/-- The words that the second word is compared with, in their order. -/
def synTypes : List Bytes := [bytes "case", bytes "keyword", bytes "region", bytes "match"]

/-- What a pass does behind `syn`. -/
def typeAccesses (p : Bytes) : List Access :=
  match getWord p with
  | (none, _) => [.compare .type]
  | (some type, arg) =>
      .assign .type :: List.replicate (min 4 (synTypes.idxOf type + 1)) (.compare .type) ++
        (if type = bytes "match" then matchAccesses arg else []) ++ [.free .type]

/-- What a pass does with its variables.  It is followed up to a use without a value. -/
def accesses (p : Bytes) : List Access :=
  if p.headD 0 = 0x23 then []
  else
    match getWord p with
    | (none, _) => [.compare .cmd]
    | (some cmd, rest) =>
        .assign .cmd :: List.replicate 3 (.compare .cmd) ++ .free .cmd ::
          (if cmd = bytes "syn" then typeAccesses rest else [])

/-! ## The condition -/

/-- What follows a word. -/
def afterWord (p : Bytes) : Bytes := skipwhite (p.dropWhile isKeyword)

/-- Behind `match` a group name stands, and something behind it. -/
def MatchArguments (p : Bytes) : Prop :=
  endsExcmd p = false ∧ skipwhite (skiptowhite p) ≠ []

/-- The line does not start with a bar; behind `syn` a second word follows, and behind `match` its
arguments. -/
structure WordsThere (p : Bytes) : Prop where
  cmd : p.headD 0 ≠ 0x7C
  type : p.takeWhile isKeyword = bytes "syn" → endsExcmd (afterWord p) = false
  arguments : p.takeWhile isKeyword = bytes "syn" →
    (afterWord p).takeWhile isKeyword = bytes "match" → MatchArguments (afterWord (afterWord p))

section
variable {p : Bytes} {vs : List Var} {v : Var} {as : List Access}

theorem usesAssigned_compare (n : Nat) (hv : v ∈ vs) :
    UsesAssigned vs (List.replicate n (.compare v) ++ as) ↔ UsesAssigned vs as := by
  induction n with
  | zero => rfl
  | succ n ih =>
      rw [List.replicate_succ, List.cons_append, UsesAssigned, ih]
      exact and_iff_right hv

theorem getWord_of_skipwhite (hp : skipwhite p = p) : getWord p =
    if endsExcmd p then (none, p) else (some (p.takeWhile isKeyword), afterWord p) := by
  rw [getWord, hp]
  rfl

theorem matchArguments_iff : MatchArguments p ↔ (getGroupName p).isSome = true := by
  rw [← Option.ne_none_iff_isSome, Ne, getGroupName_eq_none_iff, not_or, Bool.not_eq_true]
  rfl

theorem usesAssigned_matchAccesses (hv : Var.type ∈ vs) :
    UsesAssigned vs (matchAccesses p ++ [.free .type]) ↔ Var.rest ∈ vs ∨ MatchArguments p := by
  rw [matchArguments_iff, matchAccesses]
  split
  · next h => simp [UsesAssigned, hv, h]
  · next h => simp [UsesAssigned, hv, h]

theorem skipwhite_afterWord (p : Bytes) : skipwhite (afterWord p) = afterWord p :=
  skipwhite_skipwhite _

/-- Behind `syn` the variables are assigned when a word follows, and arguments behind `match`. -/
theorem usesAssigned_typeAccesses (hp : skipwhite p = p) (hvs : vs = [.cmd]) :
    UsesAssigned vs (typeAccesses p) ↔ endsExcmd p = false ∧
      (p.takeWhile isKeyword = bytes "match" → MatchArguments (afterWord p)) := by
  subst hvs
  rw [typeAccesses, getWord_of_skipwhite hp]
  cases hend : endsExcmd p with
  | true => simp [UsesAssigned]
  | false =>
      simp only [Bool.false_eq_true, if_false, List.cons_append, List.append_assoc, true_and,
        UsesAssigned]
      rw [usesAssigned_compare _ (List.mem_cons_self ..)]
      split
      · next hmatch =>
        rw [usesAssigned_matchAccesses (List.mem_cons_self ..)]
        simp [hmatch]
      · next hmatch => simp [UsesAssigned, hmatch]

/-- A pass at a place of a text. -/
theorem usesAssigned_accesses {c : UInt8} {t : Bytes} (hc : isBlank c = false) (h0 : c ≠ 0) :
    UsesAssigned [] (accesses (c :: t)) ↔ WordsThere (c :: t) := by
  have hwhite : skipwhite (c :: t) = c :: t := by
    refine List.dropWhile_cons_of_neg ?_
    simp only [isBlank, Bool.or_eq_false_iff] at hc
    simp [hc.1]
  have hlf : c ≠ 0x0A := by
    rintro rfl
    cases hc
  rw [accesses, List.headD_cons]
  by_cases hhash : c = 0x23
  · subst hhash
    have hword : (0x23 :: t).takeWhile isKeyword ≠ bytes "syn" := fun h =>
      absurd (show [] = bytes "syn" from h) (by decide +kernel)
    exact iff_of_true trivial ⟨by simp, fun h => absurd h hword, fun h => absurd h hword⟩
  · rw [if_neg hhash, getWord_of_skipwhite hwhite]
    by_cases hbar : c = 0x7C
    · subst hbar
      have hend : endsExcmd (0x7C :: t) = true := rfl
      simp only [hend, if_true]
      exact iff_of_false (fun h => absurd h.1 List.not_mem_nil) fun h => h.cmd rfl
    · have hend : endsExcmd (c :: t) = false := by
        simp [endsExcmd, h0, hbar, hhash, hlf]
      simp only [hend, Bool.false_eq_true, if_false, List.cons_append, UsesAssigned]
      rw [usesAssigned_compare _ (List.mem_cons_self ..), UsesAssigned,
        and_iff_right (List.mem_cons_self ..)]
      split
      · next hsyn =>
        rw [usesAssigned_typeAccesses (skipwhite_afterWord _) rfl]
        exact ⟨fun h => ⟨hbar, fun _ => h.1, fun _ => h.2⟩,
          fun h => ⟨h.type hsyn, h.arguments hsyn⟩⟩
      · next hsyn =>
        exact iff_of_true trivial ⟨hbar, fun h => absurd h hsyn, fun h => absurd h hsyn⟩

end

/-- One pass of the loop of `load_syntax_conf`. -/
def pass (load : Bytes → Loader → Option Loader) (conf : Bytes) (l : Loader) (p : Bytes) :
    Option Loader := exec load conf l (readCommand p)

/-- A load makes a pass at each place of its file. -/
theorem loadSyntaxConf_eq_passes {files : Files} {conf content : Bytes}
    (h : files conf = some content) (depth : Nat) (l : Loader) :
    loadSyntaxConf files (depth + 1) conf l = Run.run (pass (loadSyntaxConf files depth) conf) l
      (places (content.takeWhile (· ≠ 0))) := by
  rw [loadSyntaxConf_eq_run h, commands, Run.run_map]
  rfl

/-- In every pass that a load of a file comes to, the variables are assigned before they are used. -/
def WordsRead (load : Bytes → Loader → Option Loader) (conf content : Bytes) (l : Loader) : Prop :=
  Run.Along (pass load conf) (fun _ p => UsesAssigned [] (accesses p)) l
    (places (content.takeWhile (· ≠ 0)))

/-- They are when the words are there at every place that the load comes to. -/
theorem words_read_iff (load : Bytes → Loader → Option Loader) (conf content : Bytes)
    (l : Loader) : WordsRead load conf content l ↔
      Run.Along (pass load conf) (fun _ p => WordsThere p) l
        (places (content.takeWhile (· ≠ 0))) := by
  refine Run.along_congr fun q hq _ => ?_
  obtain ⟨hsuffix, c, t, rfl, hc⟩ := mem_places hq
  refine usesAssigned_accesses hc ?_
  rintro rfl
  have hmem : (0 : UInt8) ∈ content.takeWhile (· ≠ 0) := hsuffix.subset (List.mem_cons_self ..)
  simpa using List.mem_takeWhile_imp hmem

/-- A file with a bar. -/
def barFiles : Files := fun name => if name = bytes "c" then some (bytes "|\n") else none

/-- Its load is one pass, in which the command word of the line is compared without a value. -/
theorem bar_not_wordsRead :
    loadSyntaxConf barFiles 2 (bytes "c") initialLoader =
        Run.run (pass (loadSyntaxConf barFiles 1) (bytes "c")) initialLoader [bytes "|\n"] ∧
      ¬ WordsRead (loadSyntaxConf barFiles 1) (bytes "c") (bytes "|\n") initialLoader := by
  have hfile : barFiles (bytes "c") = some (bytes "|\n") := if_pos rfl
  refine ⟨loadSyntaxConf_eq_passes hfile 1 initialLoader, fun hread => ?_⟩
  exact absurd hread.1.1 List.not_mem_nil

end HapAndroid.Highlight
