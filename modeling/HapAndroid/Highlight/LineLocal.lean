import HapAndroid.Highlight.Closed

/-!
# Commands and the lines behind them

`LineLocal`: whatever text follows in the same file, it is loaded as if it were a file of its own.
`lineLocal_iff` gives the texts of which this is true: their commands come back and are closed.

For the other texts another text is given that by itself is a comment, or a line of no known
command (`Idle`), and that closes a value or adds a word behind the open command.  The longer file
is then ahead by a pattern or by a keyword, and stays so.
-/

namespace HapAndroid.Highlight

/-! ## Texts -/

/-- The text of a file that includes no other one. -/
structure ConfText where
  bytes : Bytes
  noNul : 0 ∉ bytes
  noInclude : ∀ arg, .synInclude arg ∉ commands bytes

theorem Command.extend_eq_synInclude {c : Command} {b arg : Bytes}
    (h : c.extend b = .synInclude arg) : ∃ arg', c = .synInclude arg' := by
  cases c with
  | synInclude arg' => exact ⟨arg', rfl⟩
  | _ => cases h

namespace ConfText

/-- Two texts with a line feed between them. -/
def join (s t : ConfText) : ConfText where
  bytes := s.bytes ++ 0x0A :: t.bytes
  noNul h := by
    rcases List.mem_append.mp h with h | h
    · exact s.noNul h
    · exact t.noNul ((List.mem_cons.mp h).resolve_left (by decide))
  noInclude arg h := by
    rw [commands_line] at h
    rcases List.mem_append.mp h with h | h
    · obtain ⟨c, hc, heq⟩ := List.mem_map.mp h
      obtain ⟨arg', rfl⟩ := Command.extend_eq_synInclude heq
      exact s.noInclude arg' hc
    · exact t.noInclude arg h

/-- Load a file with this text. -/
def load (t : ConfText) (l : Loader) : Option Loader :=
  loadSyntaxConf (fun _ => some t.bytes) 1 [] l

end ConfText

/-- What a load is for: the keywords, the patterns, and the groups with their links. -/
def Loader.loaded (l : Loader) : Buf × List HlGroup := (l.buf, l.groups.items)

/-- A text is loaded, and every other text behind it is loaded as if it were a file of its own. -/
def LineLocal (l : Loader) (s : ConfText) : Prop :=
  ∃ l₁, s.load l = some l₁ ∧
    ∀ t : ConfText, ((s.join t).load l).map Loader.loaded = (t.load l₁).map Loader.loaded

/-! ## Texts that open commands take up -/

/-- A text without commands. -/
structure Idle (b : Bytes) : Prop where
  noNul : 0 ∉ b
  skips : ∀ c ∈ commands b, c = .skip

/-- Settings that close a region. -/
def closing : Bytes := bytes " start=\"s\" end=\"e\""

theorem settings_closing : ∃ kvs, Settings (skipwhite closing) kvs ∧ Complete kvs :=
  exists_settings (skipwhite_skipwhite _) (by decide +kernel)

section
variable {p w : Bytes}

/-- A comment. -/
theorem idle_comment (h0 : 0 ∉ p) (h : 0x0A ∉ p) : Idle (0x23 :: p) := by
  refine ⟨List.not_mem_cons_of_ne_of_not_mem (by decide) h0, fun c hc => ?_⟩
  have hplace : (0x23 :: p).dropWhile isBlank = 0x23 :: p := rfl
  have hdrop : (0x23 :: p).dropWhile (· ≠ 0x0A) = [] := by
    refine List.dropWhile_eq_nil_iff.mpr fun c hc => decide_eq_true fun heq => ?_
    rcases List.mem_cons.mp hc with rfl | hc
    · cases heq
    · exact h (heq ▸ hc)
  have hnext : gotoNextLine (0x23 :: p) = [] := by
    rw [gotoNextLine, hdrop]
    rfl
  rw [commands, places_cons hplace, hnext, places_nil rfl] at hc
  exact List.mem_singleton.mp hc

theorem idle_nil : Idle [] := ⟨List.not_mem_nil, fun _ hc => absurd hc List.not_mem_nil⟩

theorem idle_closing : Idle closing := ⟨by decide +kernel, by decide +kernel⟩

/-- An open value is closed by some text without commands, unless it is an empty one. -/
theorem exists_closing (h0 : 0 ∉ w) (h : ¬ Delimited w) : (∃ d, w = [d, d]) ∨
    ∃ b d v, Idle b ∧ Quoted d v closing (w ++ 0x0A :: b) := by
  have hzero : 0 ∉ closing := idle_closing.noNul
  have hlf : 0x0A ∉ closing := by decide +kernel
  cases w with
  | nil =>
      -- The line feed is the delimiter.
      refine .inr ⟨0x23 :: 0x0A :: closing, 0x0A, [0x23], ?_, rfl, by decide, by simp⟩
      exact ⟨by decide +kernel, by decide +kernel⟩
  | cons d t =>
      have hd : d ≠ 0 := fun hd => h0 (hd ▸ List.mem_cons_self ..)
      by_cases hmem : d ∈ t
      · obtain ⟨v, rest, rfl, hv⟩ := List.eq_append_cons_of_mem hmem
        refine .inl ⟨d, ?_⟩
        by_contra hne
        refine h ⟨d, v, rest, rfl, hv, ?_⟩
        by_contra hshort
        obtain ⟨rfl, rfl⟩ : v = [] ∧ rest = [] := by simpa using hshort
        exact hne rfl
      · refine .inr ?_
        by_cases hd' : d = 0x0A
        · subst hd'
          exact ⟨closing, 0x0A, t, idle_closing, rfl, hmem, .inr (by decide +kernel)⟩
        · by_cases hhash : d = 0x23
          · subst hhash
            refine ⟨0x23 :: closing, 0x23, t ++ [0x0A], idle_comment hzero hlf, ?_, ?_, by simp⟩
            · simp
            · simp [hmem]
          · refine ⟨0x23 :: d :: closing, d, t ++ [0x0A, 0x23], idle_comment ?_ ?_, ?_, ?_, by simp⟩
            · exact List.not_mem_cons_of_ne_of_not_mem hd.symm hzero
            · exact List.not_mem_cons_of_ne_of_not_mem (Ne.symm hd') hlf
            · simp
            · simp [hmem, hd', hhash]

end

/-! ### Open commands -/

/-- A keyword command with nothing but a new group, at the end of the text. -/
structure BareGroup (gs : List HlGroup) (arg : Bytes) : Prop where
  new : nameId gs (untilWhite arg) = 0
  valid : validName (untilWhite arg) = true
  last : 0x0A ∉ arg
  effect : (Command.synKeyword arg).effect = some .nothing
  extend (b : Bytes) : ((Command.synKeyword arg).extend b).effect =
    some (.addKeywords (untilWhite arg) [])

section
variable {t : Tables} {arg rest b : Bytes} {c : Command} {e : Effect}

theorem bareGroup {gs : List HlGroup} (hrest : getGroupName arg = none)
    (hend : endsExcmd arg = false) (hnew : nameId gs (untilWhite arg) = 0)
    (hvalid : validName (untilWhite arg) = true) : BareGroup gs arg := by
  have hnil := (getGroupName_eq_none_iff.mp hrest).resolve_left (by simp [hend])
  refine ⟨hnew, hvalid, fun hmem => ?_, effect_synKeyword_none hrest, fun b => ?_⟩
  · -- The name has no blanks, and what follows it is white.
    rw [← List.takeWhile_append_dropWhile (p := fun c => !isBlank c) (l := arg)] at hmem
    rcases List.mem_append.mp hmem with hmem | hmem
    · exact absurd (List.mem_takeWhile_imp hmem) (by decide)
    · exact absurd (List.dropWhile_eq_nil_iff.mp hnil _ hmem) (by decide)
  · rw [effect_synKeyword_none_line b hrest, hend]
    rfl

theorem keyword_gain (h0 : 0 ∉ arg) (hrest : getGroupName arg = some rest)
    (hmem : Letter.backslash ∈ listLetters true (letters rest))
    (he : (Command.synKeyword arg).effect = some e) :
    ∃ b e', Idle b ∧ ((Command.synKeyword arg).extend b).effect = some e' ∧ e.Lt t e' := by
  have hidle : Idle (bytes "# x") := ⟨by decide +kernel, by decide +kernel⟩
  have hzero := notMem_arguments h0 hrest
  have hzero' : 0 ∉ rest ++ 0x0A :: bytes "# x" := by simp [hzero, hidle.noNul]
  rcases listLetters_line rest (bytes "# x") with ⟨hnot, -⟩ | ⟨xs, heq, hline⟩
  · exact absurd hmem hnot
  · -- The backslash quotes the line feed, so the word goes on, and another one follows.
    have hletters : (⟨true, 0x0A⟩ :: listLetters false (letters (bytes "# x")) : List Letter) =
        [⟨true, 0x0A⟩, ⟨false, 0x23⟩] ++ ⟨false, 0x20⟩ :: [⟨false, 0x78⟩] := by decide +kernel
    rw [effect_synKeyword hrest hzero, heq] at he
    split at he
    · cases he
    · next hcr =>
      cases he
      have hcr' : Letter.cr ∉ xs := fun h => hcr (List.mem_append_left _ h)
      refine ⟨bytes "# x", .addKeywords _ (wordsOf (xs ++ ([⟨true, 0x0A⟩, ⟨false, 0x23⟩] ++
        ⟨false, 0x20⟩ :: [⟨false, 0x78⟩]))), hidle, ?_, .keywords ?_⟩
      · rw [Command.extend, effect_synKeyword (getGroupName_some_line _ hrest) hzero', hline,
          untilWhite_line, hletters]
        refine if_neg fun h => ?_
        rcases List.mem_append.mp h with h | h
        · exact hcr' h
        · exact absurd h (by decide)
      · have hle := length_wordsOf_le (x := Letter.backslash) (y := ⟨true, 0x0A⟩) rfl rfl xs
          [⟨false, 0x23⟩]
        have hsplit : wordsOf (xs ++ ([⟨true, 0x0A⟩, ⟨false, 0x23⟩] ++ ⟨false, 0x20⟩ ::
            [⟨false, 0x78⟩])) = wordsOf (xs ++ [⟨true, 0x0A⟩, ⟨false, 0x23⟩]) ++ [[0x78]] := by
          rw [← List.append_assoc]
          exact wordsOf_append _ _ rfl
        rw [hsplit, List.length_append, List.length_singleton]
        exact Nat.lt_succ_of_le hle

theorem region_gain (h0 : 0 ∉ arg) (hrest : getGroupName arg = some rest)
    (hgroup : HasGroup t.groups (untilWhite arg)) {kvs : List (Key × Bytes)} {key : Key} {w : Bytes}
    (hopen : OpenValue rest kvs key w)
    (hclosed : ¬ ((∃ d, w = [d, d]) ∧ ¬ Complete (kvs ++ [(key, [])]))) :
    ∃ b e', Idle b ∧ ((Command.synRegion arg).extend b).effect = some e' ∧
      Effect.Lt t .nothing e' := by
  have hwhite := skipwhite_of_getGroupName hrest
  have hzero : 0 ∉ w := by
    obtain ⟨q, hreads, hat, -⟩ := hopen
    exact fun h => notMem_arguments h0 hrest ((hat.suffix.trans hreads.suffix).subset h)
  -- Some text completes the settings.
  obtain ⟨b, kvs', hidle, hset, hcomplete⟩ : ∃ b kvs', Idle b ∧ Settings (rest ++ 0x0A :: b) kvs' ∧
      Complete kvs' := by
    obtain ⟨q, hreads, hat, hdelim⟩ := id hopen
    rcases exists_closing hzero hdelim with ⟨d, rfl⟩ | ⟨b, d, v, hidle, hv⟩
    · have hv : Quoted d [] [0x0A] ([d, d] ++ [0x0A]) := ⟨rfl, List.not_mem_nil, by simp⟩
      refine ⟨[], _, idle_nil, hopen.settings hv (.inl rfl) ⟨_, .nil _, .inl rfl⟩, ?_⟩
      by_contra hnot
      exact hclosed ⟨⟨d, rfl⟩, hnot⟩
    · obtain ⟨kvs', hset, hcomplete⟩ := settings_closing
      refine ⟨b, _, hidle, hopen.settings hv (.inr rfl) hset, ?_⟩
      rw [List.append_cons]
      exact hcomplete.append _
  refine ⟨b, _, hidle, ?_, .pattern hgroup (SynPat.setAll CItem.zero kvs')⟩
  have hwhite' : skipwhite (rest ++ 0x0A :: b) = rest ++ 0x0A :: b := by
    rw [skipwhite_line, hwhite]
  rw [Command.extend, Command.effect, untilWhite_line, getGroupName_some_line b hrest,
    Option.bind_some, regionPattern_of_settings hwhite' hset]
  exact congrArg (fun o => some (Effect.ofPattern (untilWhite arg) o)) (if_pos hcomplete)

theorem match_gain (h0 : 0 ∉ arg) (hrest : getGroupName arg = some rest)
    (hgroup : HasGroup t.groups (untilWhite arg)) (hopen : ¬ Delimited rest) :
    ∃ b e', Idle b ∧ ((Command.synMatch arg).extend b).effect = some e' ∧
      Effect.Lt t .nothing e' := by
  obtain ⟨b, v, tail, hidle, hget⟩ : ∃ b v tail, Idle b ∧
      getSynPattern (rest ++ 0x0A :: b) = some (v, tail) := by
    rcases exists_closing (notMem_arguments h0 hrest) hopen with ⟨d, rfl⟩ | ⟨b, d, v, hidle, hv⟩
    · have hv : Quoted d [] [0x0A] ([d, d] ++ [0x0A]) := ⟨rfl, List.not_mem_nil, by simp⟩
      exact ⟨[], [], [0x0A], idle_nil, getSynPattern_eq_some_iff.mpr ⟨d, [0x0A], hv, .inl rfl, rfl⟩⟩
    · exact ⟨b, v, _, hidle, getSynPattern_eq_some_iff.mpr ⟨d, closing, hv, .inr rfl, rfl⟩⟩
  refine ⟨b, _, hidle, ?_, .pattern hgroup (SynPat.set CItem.zero .match v)⟩
  rw [Command.extend, Command.effect, untilWhite_line, getGroupName_some_line b hrest,
    Option.map_some, matchPattern, hget]
  rfl

/-- Behind an open command some text without commands counts. -/
theorem exists_gain (h0 : 0 ∉ c.arg) (hc : ¬ c.Closed t.groups) (he : c.effect = some e) :
    (∃ arg, c = .synKeyword arg ∧ BareGroup t.groups arg) ∨
      ∃ b e', Idle b ∧ (c.extend b).effect = some e' ∧ e.Lt t e' := by
  cases c with
  | synKeyword arg =>
      rw [Command.Closed, not_and_or] at hc
      rcases hc with hbare | hlist
      · simp only [Classical.not_imp, Bool.not_eq_false] at hbare
        obtain ⟨hrest, hend, hnew, hvalid⟩ := hbare
        exact .inl ⟨arg, rfl, bareGroup hrest hend hnew hvalid⟩
      · simp only [Classical.not_forall, not_not] at hlist
        obtain ⟨rest, hrest, hmem⟩ := hlist
        exact .inr (keyword_gain h0 hrest hmem he)
  | synRegion arg =>
      rw [Command.Closed] at hc
      simp only [Classical.not_imp, Classical.not_forall] at hc
      obtain ⟨hgroup, rest, hrest, kvs, key, w, hopen, hclosed⟩ := hc
      have hnothing : (Command.synRegion arg).effect = some .nothing := by
        rw [Command.effect, Option.mem_def.mp hrest, Option.bind_some,
          regionPattern_of_not_settings (skipwhite_of_getGroupName hrest)
            (hopen.not_settings (skipwhite_of_getGroupName hrest))]
        rfl
      cases he.symm.trans hnothing
      exact .inr (region_gain h0 hrest hgroup hopen hclosed)
  | synMatch arg =>
      rw [Command.Closed] at hc
      simp only [Classical.not_imp, Classical.not_forall] at hc
      obtain ⟨hgroup, rest, hrest, hopen⟩ := hc
      have hnothing : (Command.synMatch arg).effect = some .nothing := by
        rw [Command.effect, Option.mem_def.mp hrest, Option.map_some, matchPattern,
          getSynPattern_of_open hopen]
        rfl
      cases he.symm.trans hnothing
      exact .inr (match_gain h0 hrest hgroup hopen)
  | _ => exact absurd trivial hc

end

/-! ## Whole texts -/

section
variable {t n : Tables} {b : Bytes} {cs : List Command}

/-- It includes no file. -/
def Idle.text (h : Idle b) : ConfText := ⟨b, h.noNul, fun _ hmem => nomatch h.skips _ hmem⟩

theorem Idle.run (h : Idle b) (t : Tables) : Run.run Tables.exec t (commands b) = some t := by
  have hskips := h.skips
  generalize commands b = cs at hskips ⊢
  induction cs with
  | nil => rfl
  | cons c cs ih =>
      obtain ⟨rfl, hcs⟩ := List.forall_mem_cons.mp hskips
      exact ih hcs

/-- A command that comes back has an effect. -/
theorem effect_isSome_iff {c : Command} (h0 : 0 ∉ c.arg) (hc : ∀ arg, c ≠ .synInclude arg) :
    c.effect.isSome = true ↔ c.Returns := by
  have hreturns : (∃ l', exec (fun _ _ => none) [] initialLoader c = some l') ↔ c.Returns :=
    exec_returns_iff wf_initialLoader h0 hc
  rw [← hreturns, ← Option.isSome_iff_exists, ← Option.isSome_map (f := Loader.tables),
    exec_effect wf_initialLoader, Tables.exec, Option.isSome_map]

/-- The commands that are performed to the end, without a look at what follows the text. -/
def ClosedRun (t : Tables) (cs : List Command) : Prop :=
  Run.Along Tables.exec (fun t c => c.Returns ∧ c.Closed t.groups) t cs

theorem ClosedRun.run (h : ClosedRun t cs) (h0 : ∀ c ∈ cs, 0 ∉ c.arg)
    (hc : ∀ arg, .synInclude arg ∉ cs) : ∃ n, Run.run Tables.exec t cs = some n ∧
      ∀ b, 0 ∉ b → Run.run Tables.exec t (cs.map (Command.extend b)) = some n := by
  induction cs generalizing t with
  | nil => exact ⟨t, rfl, fun _ _ => rfl⟩
  | cons c cs ih =>
      obtain ⟨⟨hreturns, hclosed⟩, hrest⟩ := h
      obtain ⟨hzero, h0⟩ := List.forall_mem_cons.mp h0
      have hne : ∀ arg, c ≠ .synInclude arg := fun arg heq => hc arg (heq ▸ List.mem_cons_self ..)
      obtain ⟨e, he⟩ := Option.isSome_iff_exists.mp ((effect_isSome_iff hzero hne).mpr hreturns)
      have hexec : t.exec c = some (t.apply e) := by rw [Tables.exec, he, Option.map_some]
      obtain ⟨n, hrun, hext⟩ := ih (hrest _ hexec) h0
        fun arg hmem => hc arg (List.mem_cons_of_mem c hmem)
      refine ⟨n, Run.run_cons_eq_some.mpr ⟨_, hexec, hrun⟩, fun b hb => ?_⟩
      exact Run.run_cons_eq_some.mpr
        ⟨_, (hclosed.exec_extend hreturns hzero hb).trans hexec, hext b hb⟩

/-- Tables that are ahead stay ahead. -/
theorem Tables.Behind.run {k : Nat} {t' n' : Tables} (h : t.Behind k t') (hb : 0 ∉ b)
    (h0 : ∀ c ∈ cs, 0 ∉ c.arg) (hrun : Run.run Tables.exec t cs = some n)
    (hrun' : Run.run Tables.exec t' (cs.map (Command.extend b)) = some n') : n.Behind k n' := by
  induction cs generalizing t t' with
  | nil =>
      cases hrun
      cases hrun'
      exact h
  | cons c cs ih =>
      obtain ⟨hzero, h0⟩ := List.forall_mem_cons.mp h0
      obtain ⟨u, hu, hrest⟩ := Run.run_cons_eq_some.mp hrun
      obtain ⟨u', hu', hrest'⟩ := Run.run_cons_eq_some.mp hrun'
      obtain ⟨e, he, rfl⟩ := Option.map_eq_some_iff.mp hu
      obtain ⟨e', he', rfl⟩ := Option.map_eq_some_iff.mp hu'
      exact ih ((effect_le hzero hb he he').behind h) h0 hrest hrest'

/-- A keyword command without a line feed behind it is the last one. -/
def LastLine (cs : List Command) : Prop :=
  ∀ before arg after, cs = before ++ .synKeyword arg :: after → 0x0A ∉ arg → after = []

theorem gotoNextLine_synKeyword {p arg : Bytes} (h : readCommand p = .synKeyword arg) :
    gotoNextLine arg = gotoNextLine p := by
  have hword := gotoNextLine_getWord p
  unfold readCommand at h
  split at h
  · cases h
  · generalize getWord p = w at h hword
    rcases w with ⟨_ | cmd, rest⟩
    · cases h
    · dsimp only at h hword
      split at h
      · have htype := gotoNextLine_getWord rest
        generalize getWord rest = w' at h htype
        rcases w' with ⟨_ | type, rest'⟩
        · cases h
        · dsimp only at h htype
          split_ifs at h
          cases h
          exact htype.trans hword
      · split_ifs at h

theorem lastLine_commands (p : Bytes) : LastLine (commands p) := by
  induction p using lines_induction with
  | nil p hp =>
      intro before arg after heq
      rw [commands, places_nil hp] at heq
      simp at heq
  | cons p c q hp ih =>
      intro before arg after heq hlf
      rw [commands, places_cons hp, List.map_cons, ← commands] at heq
      cases before with
      | nil =>
          obtain ⟨hcmd, rfl⟩ := List.cons.inj heq
          have hnext : gotoNextLine arg = [] := by
            rw [gotoNextLine, List.dropWhile_eq_nil_iff.mpr fun c hc =>
              decide_eq_true (ne_of_mem_of_not_mem hc hlf)]
            rfl
          rw [← gotoNextLine_synKeyword hcmd, hnext]
          rfl
      | cons c' before =>
          obtain ⟨-, heq⟩ := List.cons.inj heq
          exact ih before arg after heq hlf

/-- Behind a text that is not closed some text without commands makes a difference. -/
theorem exists_difference (h0 : ∀ c ∈ cs, 0 ∉ c.arg) (hc : ∀ arg, .synInclude arg ∉ cs)
    (hlast : LastLine cs) (hrun : Run.run Tables.exec t cs = some n) (h : ¬ ClosedRun t cs) :
    ∃ b, Idle b ∧ ∀ n', Run.run Tables.exec t (cs.map (Command.extend b)) = some n' →
      n.count < n'.count ∨ n.groups.length < n'.groups.length := by
  induction cs generalizing t with
  | nil => exact absurd trivial h
  | cons c cs ih =>
      obtain ⟨hzero, h0⟩ := List.forall_mem_cons.mp h0
      have hne : ∀ arg, c ≠ .synInclude arg := fun arg heq => hc arg (heq ▸ List.mem_cons_self ..)
      obtain ⟨u, hu, hrest⟩ := Run.run_cons_eq_some.mp hrun
      obtain ⟨e, he, rfl⟩ := Option.map_eq_some_iff.mp hu
      have hreturns : c.Returns := (effect_isSome_iff hzero hne).mp (he ▸ rfl)
      by_cases hclosed : c.Closed t.groups
      · -- The difference comes later.
        have hlast' : LastLine cs := by
          intro before arg after heq
          exact hlast (c :: before) arg after (heq ▸ rfl)
        have hopen : ¬ ClosedRun (t.apply e) cs := fun hcs =>
          h (Run.along_cons hu ⟨hreturns, hclosed⟩ hcs)
        obtain ⟨b, hidle, hdiff⟩ := ih h0 (fun arg hmem => hc arg (List.mem_cons_of_mem c hmem))
          hlast' hrest hopen
        refine ⟨b, hidle, fun n' hrun' => ?_⟩
        obtain ⟨u', hu', hrest'⟩ := Run.run_cons_eq_some.mp hrun'
        rw [hclosed.exec_extend hreturns hzero hidle.noNul, hu] at hu'
        cases hu'
        exact hdiff n' hrest'
      · rcases exists_gain hzero hclosed he with ⟨arg, rfl, hbare⟩ | ⟨b, e', hidle, he', hlt⟩
        · -- The group is added when a line feed follows its name.
          obtain rfl := hlast [] arg cs rfl hbare.last
          cases he.symm.trans hbare.effect
          cases hrest
          refine ⟨[], idle_nil, fun n' hrun' => .inr ?_⟩
          obtain ⟨u', hu', hrest'⟩ := Run.run_cons_eq_some.mp hrun'
          cases hrest'
          rw [Tables.exec, hbare.extend, Option.map_some] at hu'
          cases hu'
          have hgroups : (checkGroup t.groups (untilWhite arg)).2 =
              t.groups ++ [⟨upper (untilWhite arg), 0, 0⟩] := by
            rw [checkGroup, if_pos hbare.new, if_pos hbare.valid]
          show t.groups.length < (checkGroup t.groups (untilWhite arg)).2.length
          rw [hgroups, List.length_append]
          exact Nat.lt_succ_self _
        · refine ⟨b, hidle, fun n' hrun' => .inl ?_⟩
          obtain ⟨u', hu', hrest'⟩ := Run.run_cons_eq_some.mp hrun'
          rw [Tables.exec, he', Option.map_some] at hu'
          cases hu'
          exact (hlt.behind.run hidle.noNul h0 hrest hrest').count

end

/-! ### Loads -/

section
variable {l : Loader}

namespace ConfText

theorem load_tables (h : l.Wf) (s : ConfText) :
    (s.load l).map Loader.tables = Run.run Tables.exec l.tables (commands s.bytes) := by
  have htake : s.bytes.takeWhile (· ≠ 0) = s.bytes :=
    List.takeWhile_eq_self_iff.mpr fun c hc => decide_eq_true (ne_of_mem_of_not_mem hc s.noNul)
  have hload : s.load l = Run.run (exec (loadSyntaxConf (fun _ => some s.bytes) 0) []) l
      (commands (s.bytes.takeWhile (· ≠ 0))) := loadSyntaxConf_succ (fun _ => some s.bytes) 0 [] l
  rw [hload, htake]
  exact run_effect h [] _

theorem load_join (h : l.Wf) (s t : ConfText) : ((s.join t).load l).map Loader.tables =
    (Run.run Tables.exec l.tables ((commands s.bytes).map (Command.extend t.bytes))).bind
      fun n => Run.run Tables.exec n (commands t.bytes) := by
  rw [load_tables h, join, commands_line, Run.run_append]

theorem zero_notMem_args (s : ConfText) : ∀ c ∈ commands s.bytes, 0 ∉ c.arg := by
  intro c hc hmem
  obtain ⟨q, hq, rfl⟩ := List.mem_map.mp hc
  exact s.noNul (((arg_readCommand q).trans (mem_places hq).1).subset hmem)

end ConfText

theorem map_loaded (o : Option Loader) :
    o.map Loader.loaded = (o.map Loader.tables).map fun t =>
      (⟨t.keywtab, t.keywtabIc, t.patterns⟩, t.groups) := by
  cases o <;> rfl

/-- A text is loaded apart from what follows exactly when its commands come back and are closed. -/
theorem lineLocal_iff (h : l.Wf) (s : ConfText) :
    LineLocal l s ↔ ClosedRun l.tables (commands s.bytes) := by
  have h0 := s.zero_notMem_args
  constructor
  · rintro ⟨l₁, hload, hall⟩
    have hwf : l₁.Wf := wf_loadSyntaxConf h hload
    have hrun := s.load_tables h
    rw [hload, Option.map_some] at hrun
    by_contra hopen
    obtain ⟨b, hidle, hdiff⟩ :=
      exists_difference h0 s.noInclude (lastLine_commands _) hrun.symm hopen
    -- The other text changes nothing, so the loads differ in what they count.
    have heq := hall hidle.text
    rw [map_loaded, map_loaded, ConfText.load_join h, ConfText.load_tables hwf] at heq
    cases hrun' : Run.run Tables.exec l.tables ((commands s.bytes).map (Command.extend b)) with
    | none =>
        rw [Idle.text, hrun', hidle.run] at heq
        cases heq
    | some n' =>
        rw [Idle.text, hrun', Option.bind_some, hidle.run, hidle.run, Option.map_some,
          Option.map_some, Option.some.injEq, Prod.mk.injEq, Buf.mk.injEq] at heq
        obtain ⟨⟨hk, hkIc, hpat⟩, hgroups⟩ := heq
        rcases hdiff n' hrun' with hlt | hlt
        · rw [Tables.count, Tables.count, hk, hkIc, hpat] at hlt
          exact Nat.lt_irrefl _ hlt
        · rw [hgroups] at hlt
          exact Nat.lt_irrefl _ hlt
  · intro hclosed
    obtain ⟨n, hrun, hext⟩ := hclosed.run h0 s.noInclude
    have htables := s.load_tables h
    rw [hrun] at htables
    obtain ⟨l₁, hload, rfl⟩ := Option.map_eq_some_iff.mp htables
    refine ⟨l₁, hload, fun t => ?_⟩
    have hwf : l₁.Wf := wf_loadSyntaxConf h hload
    rw [map_loaded, map_loaded, ConfText.load_join h, hext t.bytes t.noNul, Option.bind_some,
      t.load_tables hwf]

/-- Keywords, and a region with closed values. -/
def closedBytes : Bytes :=
  bytes "syn keyword Keyword if\nsyn region Comment start=\"/*\" end=\"*/\""

theorem commands_closedBytes : commands closedBytes =
    [.synKeyword (bytes "Keyword if\nsyn region Comment start=\"/*\" end=\"*/\""),
      .synRegion (bytes "Comment start=\"/*\" end=\"*/\"")] := by decide +kernel

def closedText : ConfText where
  bytes := closedBytes
  noNul := by decide +kernel
  noInclude arg := by simp [commands_closedBytes]

theorem lineLocal_closedText : initialLoader.Wf ∧ LineLocal initialLoader closedText := by
  refine ⟨wf_initialLoader, (lineLocal_iff wf_initialLoader closedText).mpr ?_⟩
  rw [show commands closedText.bytes = _ from commands_closedBytes]
  refine ⟨⟨?_, ?_, ?_⟩, fun t _ => ⟨⟨trivial, fun _ => ?_⟩, fun _ _ => trivial⟩⟩
  · rintro _ ⟨⟩
    decide +kernel
  · exact fun hrest => absurd hrest (by decide +kernel)
  · rintro _ ⟨⟩
    decide +kernel
  · rintro rest hrest kvs key w hopen
    have hwhite := skipwhite_of_getGroupName hrest
    cases hrest
    obtain ⟨kvs', hset, -⟩ := exists_settings hwhite (by decide +kernel)
    exact absurd hset (hopen.not_settings hwhite kvs')

/-- A region whose end is not closed. -/
def openBytes : Bytes := bytes "syn region Comment start=\"/*\" end=\"*/"

theorem commands_openBytes :
    commands openBytes = [.synRegion (bytes "Comment start=\"/*\" end=\"*/")] := by decide +kernel

def openText : ConfText where
  bytes := openBytes
  noNul := by decide +kernel
  noInclude arg := by simp [commands_openBytes]

/-- A comment. -/
theorem idle_quote : Idle (bytes "#\"") := ⟨by decide +kernel, by decide +kernel⟩

/-- The quotation mark in a comment closes the value, and the region is stored. -/
theorem not_lineLocal_openText : ¬ LineLocal initialLoader openText := by
  rintro ⟨l₁, hload, hall⟩
  have hcount := congrArg (Option.map (·.1.patterns.length)) (hall idle_quote.text)
  have htext : idle_quote.text.load l₁ =
      (openText.load initialLoader).bind idle_quote.text.load := by
    rw [hload, Option.bind_some]
  rw [htext] at hcount
  exact absurd hcount (by decide +kernel)

end

end HapAndroid.Highlight