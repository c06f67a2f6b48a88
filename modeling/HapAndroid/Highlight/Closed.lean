import HapAndroid.Highlight.Ahead
import HapAndroid.Highlight.Lines

/-!
# Closed commands

What the effect of a command is when a line feed and another text follow.  A command is closed
(`Command.Closed`) when it does not matter to it: the values of a region and of a match are closed
in the text, a list of keywords does not end with a lone backslash, and a keyword command at the
very end of the text has more than a new group.  A closed command does the same with more lines
(`Command.Closed.exec_extend`), and every command does the same or more (`effect_le`).
-/

namespace HapAndroid.Highlight

/-- The settings have a start and an end. -/
def Complete (kvs : List (Key × Bytes)) : Prop :=
  (lastValue kvs .start).isSome = true ∧ (lastValue kvs .end).isSome = true

/-- What follows the text does not matter to the command. -/
def Command.Closed (gs : List HlGroup) : Command → Prop
  | .synKeyword arg =>
      -- A group name that is the end of the text is not looked up.
      (getGroupName arg = none → endsExcmd arg = false → nameId gs (untilWhite arg) = 0 →
        validName (untilWhite arg) = false) ∧
      ∀ rest ∈ getGroupName arg, Letter.backslash ∉ listLetters true (letters rest)
  | .synRegion arg =>
      HasGroup gs (untilWhite arg) → ∀ rest ∈ getGroupName arg, ∀ kvs key w,
        OpenValue rest kvs key w → (∃ d, w = [d, d]) ∧ ¬ Complete (kvs ++ [(key, [])])
  | .synMatch arg => HasGroup gs (untilWhite arg) → ∀ rest ∈ getGroupName arg, Delimited rest
  | _ => True

/-! ## Effects with more lines -/

section
variable {arg rest p q w v tail b : Bytes} {d : UInt8} {key : Key} {kvs kvs' : List (Key × Bytes)}
  {c : Command} {e e' : Effect}

theorem getGroupName_some_line (b : Bytes) (h : getGroupName arg = some rest) :
    getGroupName (arg ++ 0x0A :: b) = some (rest ++ 0x0A :: b) := by
  obtain ⟨hend, -, rfl⟩ := getGroupName_eq_some_iff.mp h
  exact getGroupName_line b hend

theorem effect_synKeyword (h : getGroupName arg = some rest) (h0 : 0 ∉ rest) :
    (Command.synKeyword arg).effect = if Letter.cr ∈ listLetters true (letters rest) then none
      else some (.addKeywords (untilWhite arg) (wordsOf (listLetters true (letters rest)))) := by
  rw [Command.effect, h, Option.elim_some,
    copyWords_eq h0 (skipwhite_of_getGroupName h) (Nat.le_refl _)]
  split <;> rfl

theorem effect_synKeyword_none (h : getGroupName arg = none) :
    (Command.synKeyword arg).effect = some .nothing := by
  rw [Command.effect, h, Option.elim_none]

/-- A group name that is the end of the text is with more lines one without words. -/
theorem effect_synKeyword_none_line (b : Bytes) (h : getGroupName arg = none) :
    ((Command.synKeyword arg).extend b).effect =
      some (if endsExcmd arg then .nothing else .addKeywords (untilWhite arg) []) := by
  rw [Command.extend]
  cases hend : endsExcmd arg with
  | true =>
      rw [effect_synKeyword_none (getGroupName_line_of_ends b hend)]
      rfl
  | false =>
      have hnil := (getGroupName_eq_none_iff.mp h).resolve_left (by simp [hend])
      rw [Command.effect, getGroupName_line b hend, hnil, Option.elim_some, List.nil_append,
        copyWords_of_ends rfl, untilWhite_line]
      rfl

theorem effect_synCase (b arg : Bytes) :
    ((Command.synCase arg).extend b).effect = (Command.synCase arg).effect := by
  simp only [Command.extend, Command.effect,
    isPrefixOf_line arg b (show 0x0A ∉ bytes "match" by decide +kernel),
    isPrefixOf_line arg b (show 0x0A ∉ bytes "ignore" by decide +kernel)]

theorem effect_hiLink (b arg : Bytes) :
    ((Command.hiLink arg).extend b).effect = (Command.hiLink arg).effect := by
  simp only [Command.extend, Command.effect, skiptowhite_line, skipwhite_line, endsExcmd_line,
    untilWhite_line, isPrefixOf_line _ b (show 0x0A ∉ bytes "NONE" by decide +kernel)]

/-! ### Patterns -/

theorem getSynPattern_of_open (h : ¬ Delimited w) : getSynPattern w = none := by
  cases hget : getSynPattern w with
  | none => rfl
  | some r =>
      obtain ⟨d, rest, hv, -⟩ := getSynPattern_eq_some_iff.mp hget
      exact absurd ⟨d, r.1, rest, hv⟩ h

theorem OpenValue.not_settings (h : OpenValue p kvs key w) (hwhite : skipwhite p = p) :
    ∀ kvs, ¬ Settings p kvs := by
  obtain ⟨q, hreads, hat, hopen⟩ := h
  exact not_settings_of_fails hreads (.inr ⟨key, w, hat, getSynPattern_of_open hopen⟩) hwhite

/-- The settings when an open value is closed by more lines. -/
theorem OpenValue.settings (h : OpenValue p kvs key w) (hv : Quoted d v tail (w ++ 0x0A :: b))
    (htail : endsExcmd tail = true ∨ isWhite (tail.headD 0) = true)
    (hset : Settings (skipwhite tail) kvs') :
    Settings (p ++ 0x0A :: b) (kvs ++ (key, v) :: kvs') := by
  obtain ⟨q, hreads, hat, -⟩ := h
  obtain ⟨r, hreads', hend⟩ := hset
  exact ⟨r, (hreads.line b).append (.cons (hat.line b) hv htail hreads'), hend⟩

/-- A pattern comes from settings with a start and an end. -/
theorem exists_settings (hwhite : skipwhite p = p) (h : (regionPattern p).isSome = true) :
    ∃ kvs, Settings p kvs ∧ Complete kvs := by
  by_cases hset : ∃ kvs, Settings p kvs
  · obtain ⟨kvs, hkvs⟩ := hset
    rw [regionPattern_of_settings hwhite hkvs] at h
    split at h
    · next hcomplete => exact ⟨kvs, hkvs, hcomplete⟩
    · cases h
  · rw [regionPattern_of_not_settings hwhite (not_exists.mp hset)] at h
    cases h

theorem Complete.append (h : Complete kvs') (kvs : List (Key × Bytes)) : Complete (kvs ++ kvs') :=
  ⟨isSome_lastValue_append kvs h.1, isSome_lastValue_append kvs h.2⟩

theorem regionPattern_line (b : Bytes) (hwhite : skipwhite rest = rest) {pat : SynPat}
    (h : regionPattern rest = some pat) : regionPattern (rest ++ 0x0A :: b) = some pat := by
  obtain ⟨kvs, hkvs, -⟩ := exists_settings hwhite (h ▸ rfl)
  rw [regionPattern_of_settings hwhite hkvs] at h
  rwa [regionPattern_of_settings (by rw [skipwhite_line, hwhite]) (hkvs.line b)]

/-- Without an open value, and with an empty one that does not complete the settings, the pattern
is the same. -/
theorem regionPattern_of_closed (b : Bytes) (hwhite : skipwhite rest = rest)
    (h : ∀ kvs key w, OpenValue rest kvs key w →
      (∃ d, w = [d, d]) ∧ ¬ Complete (kvs ++ [(key, [])])) :
    regionPattern (rest ++ 0x0A :: b) = regionPattern rest := by
  have hwhite' : skipwhite (rest ++ 0x0A :: b) = rest ++ 0x0A :: b := by
    rw [skipwhite_line, hwhite]
  by_cases hset : ∃ kvs, Settings rest kvs
  · obtain ⟨kvs, hkvs⟩ := hset
    rw [regionPattern_of_settings hwhite hkvs, regionPattern_of_settings hwhite' (hkvs.line b)]
  · have hnot := not_exists.mp hset
    rw [regionPattern_of_not_settings hwhite hnot]
    by_cases hopen : ∃ kvs key w, OpenValue rest kvs key w
    · obtain ⟨kvs, key, w, hopen⟩ := hopen
      obtain ⟨⟨d, rfl⟩, hincomplete⟩ := h kvs key w hopen
      have hv : Quoted d [] (0x0A :: b) ([d, d] ++ 0x0A :: b) := ⟨rfl, List.not_mem_nil, by simp⟩
      have hset' := hopen.settings hv (.inl rfl) ⟨_, .nil _, .inl rfl⟩
      rw [regionPattern_of_settings hwhite' hset']
      exact if_neg hincomplete
    · refine regionPattern_of_not_settings hwhite' (not_settings_line b hwhite hnot ?_)
      exact fun kvs key w h => hopen ⟨kvs, key, w, h⟩

theorem matchPattern_line (b : Bytes) (h : Delimited rest) :
    matchPattern (rest ++ 0x0A :: b) = matchPattern rest := by
  obtain ⟨d, v, tail, hv⟩ := h
  rw [matchPattern, matchPattern, hv.getSynPattern_line, Option.map_map]
  rfl

end

/-! ### Closed commands -/

section
variable {t : Tables} {group : Bytes} {c : Command}

theorem Tables.apply_ofPattern (h : ¬ HasGroup t.groups group) (pat : Option SynPat) :
    t.apply (.ofPattern group pat) = t := by
  cases pat with
  | none => rfl
  | some pat =>
      rw [Effect.ofPattern, Option.elim_some, Tables.apply, Tables.withGroup,
        checkGroup_of_not_hasGroup h]
      rfl

/-- A closed command does the same with more lines. -/
theorem Command.Closed.exec_extend {b : Bytes} (h : c.Closed t.groups) (hreturns : c.Returns)
    (h0 : 0 ∉ c.arg) (hb : 0 ∉ b) : t.exec (c.extend b) = t.exec c := by
  cases c with
  | noWord => rfl
  | noType => rfl
  | synCase arg => rw [Tables.exec, Tables.exec, effect_synCase]
  | hiLink arg => rw [Tables.exec, Tables.exec, effect_hiLink]
  | synInclude arg => rfl
  | skip => rfl
  | synKeyword arg =>
      obtain ⟨hbare, hlist⟩ := h
      cases hrest : getGroupName arg with
      | none =>
          rw [Tables.exec, Tables.exec, effect_synKeyword_none hrest,
            effect_synKeyword_none_line b hrest]
          cases hend : endsExcmd arg with
          | true => rfl
          | false =>
              -- No word is added, and the group is found or has no valid name.
              exact congrArg some (Tables.withGroup_eq_self (hbare hrest hend))
      | some rest =>
          have hzero := notMem_arguments h0 hrest
          have hzero' : 0 ∉ rest ++ 0x0A :: b := by simp [hzero, hb]
          rw [Tables.exec, Tables.exec, Command.extend, effect_synKeyword hrest hzero,
            effect_synKeyword (getGroupName_some_line b hrest) hzero', untilWhite_line]
          rcases listLetters_line rest b with ⟨-, heq⟩ | ⟨xs, heq, -⟩
          · rw [heq]
          · refine absurd ?_ (hlist rest hrest)
            simp [heq]
  | synRegion arg =>
      rw [Tables.exec, Tables.exec, Command.extend, Command.effect, Command.effect, untilWhite_line]
      refine congrArg some ?_
      by_cases hgroup : HasGroup t.groups (untilWhite arg)
      · refine congrArg (fun pat => t.apply (.ofPattern (untilWhite arg) pat)) ?_
        cases hrest : getGroupName arg with
        | none =>
            cases hend : endsExcmd arg with
            | true => rw [getGroupName_line_of_ends b hend]
            | false =>
                have hnil := (getGroupName_eq_none_iff.mp hrest).resolve_left (by simp [hend])
                have hset : Settings (0x0A :: b) [] := ⟨_, .nil _, .inl rfl⟩
                rw [getGroupName_line b hend, hnil, List.nil_append, Option.bind_some,
                  regionPattern_of_settings rfl hset]
                rfl
        | some rest =>
            rw [getGroupName_some_line b hrest, Option.bind_some, Option.bind_some]
            exact regionPattern_of_closed b (skipwhite_of_getGroupName hrest) (h hgroup rest hrest)
      · rw [Tables.apply_ofPattern hgroup, Tables.apply_ofPattern hgroup]
  | synMatch arg =>
      obtain ⟨rest, hrest⟩ := Option.isSome_iff_exists.mp (matchArguments_iff.mp hreturns)
      rw [Tables.exec, Tables.exec, Command.extend, Command.effect, Command.effect, untilWhite_line,
        hrest, getGroupName_some_line b hrest, Option.map_some, Option.map_some]
      refine congrArg some ?_
      by_cases hgroup : HasGroup t.groups (untilWhite arg)
      · rw [matchPattern_line b (h hgroup rest hrest)]
      · rw [Tables.apply_ofPattern hgroup, Tables.apply_ofPattern hgroup]

end

/-! ## More lines do more -/

section
variable {xs ys w : List Letter} {x y : Letter} {arg rest b : Bytes} {c : Command} {e e' : Effect}

/-- A letter of a word makes a word. -/
theorem wordsOf_ne_nil (hw : ∀ x ∈ w, x.separates = false) (hy : y.separates = false)
    (ys : List Letter) : 0 < (wordsOf (w ++ y :: ys)).length := by
  have hsplit : w ++ y :: ys =
      (w ++ y :: ys.takeWhile (!·.separates)) ++ ys.dropWhile (!·.separates) := by simp
  have hword : ∀ x ∈ w ++ y :: ys.takeWhile (!·.separates), x.separates = false := by
    intro x hx
    rcases List.mem_append.mp hx with hx | hx
    · exact hw x hx
    · rcases List.mem_cons.mp hx with rfl | hx
      · exact hy
      · simpa using List.mem_takeWhile_imp hx
  rw [hsplit]
  cases hdrop : ys.dropWhile (!·.separates) with
  | nil =>
      rw [List.append_nil, wordsOf_word (by simp) hword]
      exact Nat.one_pos
  | cons z zs =>
      have hz : z.separates = true := by simpa using of_dropWhile_eq_cons hdrop
      rw [wordsOf_append _ _ hz, wordsOf_word (by simp) hword]
      simp

/-- The words up to the last separator are whatever follows. -/
theorem exists_words (xs : List Letter) : ∃ ws w, (∀ x ∈ w, x.separates = false) ∧
    ∀ ys, wordsOf (xs ++ ys) = ws ++ wordsOf (w ++ ys) := by
  induction xs using List.reverseRecOn with
  | nil => exact ⟨[], [], by simp, fun _ => rfl⟩
  | append_singleton xs x ih =>
      obtain ⟨ws, w, hw, heq⟩ := ih
      simp only [List.append_assoc, List.singleton_append]
      cases hx : x.separates with
      | true => exact ⟨wordsOf xs, [], by simp, fun ys => wordsOf_append xs ys hx⟩
      | false =>
          refine ⟨ws, w ++ [x], fun z hz => ?_, fun ys => ?_⟩
          · rcases List.mem_append.mp hz with hz | hz
            · exact hw z hz
            · rwa [List.mem_singleton.mp hz]
          · rw [heq, List.append_assoc, List.singleton_append]

/-- Another letter in place of the last one, and more behind it, make no word less. -/
theorem length_wordsOf_le (hx : x.separates = false) (hy : y.separates = false)
    (xs ys : List Letter) : (wordsOf (xs ++ [x])).length ≤ (wordsOf (xs ++ y :: ys)).length := by
  obtain ⟨ws, w, hw, heq⟩ := exists_words xs
  have hword : ∀ z ∈ w ++ [x], z.separates = false := by
    intro z hz
    rcases List.mem_append.mp hz with hz | hz
    · exact hw z hz
    · rwa [List.mem_singleton.mp hz]
  have hpos := wordsOf_ne_nil hw hy ys
  rw [heq, heq, wordsOf_word (by simp) hword, List.length_append, List.length_append,
    List.length_singleton]
  omega

theorem length_wordsOf_line (rest b : Bytes) :
    (wordsOf (listLetters true (letters rest))).length ≤
      (wordsOf (listLetters true (letters (rest ++ 0x0A :: b)))).length := by
  rcases listLetters_line rest b with ⟨-, heq⟩ | ⟨xs, heq, hline⟩
  · rw [heq]
  · rw [heq, hline]
    exact length_wordsOf_le rfl rfl xs _

theorem Effect.Le.ofPattern {group : Bytes} {o o' : Option SynPat}
    (h : ∀ pat, o = some pat → o' = some pat) : Le (.ofPattern group o) (.ofPattern group o') := by
  cases o with
  | none =>
      cases o' with
      | none => exact .refl _
      | some pat => exact .pattern group pat
  | some pat =>
      rw [h pat rfl]
      exact .refl _

/-- With more lines a command does the same or more of it. -/
theorem effect_le (h0 : 0 ∉ c.arg) (hb : 0 ∉ b) (he : c.effect = some e)
    (he' : (c.extend b).effect = some e') : Effect.Le e e' := by
  have hsame : (c.extend b).effect = c.effect → Effect.Le e e' := by
    intro heq
    rw [heq, he] at he'
    cases he'
    exact .refl e
  cases c with
  | noWord => cases he
  | noType => cases he
  | synCase arg => exact hsame (effect_synCase b arg)
  | hiLink arg => exact hsame (effect_hiLink b arg)
  | synInclude arg => cases he
  | skip => exact hsame rfl
  | synKeyword arg =>
      cases hrest : getGroupName arg with
      | none =>
          rw [effect_synKeyword_none hrest] at he
          rw [effect_synKeyword_none_line b hrest] at he'
          cases he
          cases he'
          split
          · exact .refl _
          · exact .group _
      | some rest =>
          have hzero := notMem_arguments h0 hrest
          have hzero' : 0 ∉ rest ++ 0x0A :: b := by simp [hzero, hb]
          rw [effect_synKeyword hrest hzero] at he
          rw [Command.extend, effect_synKeyword (getGroupName_some_line b hrest) hzero',
            untilWhite_line] at he'
          split at he
          · cases he
          · split at he'
            · cases he'
            · cases he
              cases he'
              exact .keywords (length_wordsOf_line rest b)
  | synRegion arg =>
      rw [Command.effect] at he
      rw [Command.extend, Command.effect, untilWhite_line] at he'
      cases he
      cases he'
      refine .ofPattern fun pat hpat => ?_
      obtain ⟨rest, hrest, hpat⟩ := Option.bind_eq_some_iff.mp hpat
      rw [getGroupName_some_line b hrest, Option.bind_some]
      exact regionPattern_line b (skipwhite_of_getGroupName hrest) hpat
  | synMatch arg =>
      obtain ⟨rest, hrest, rfl⟩ := Option.map_eq_some_iff.mp he
      rw [Command.extend, Command.effect, untilWhite_line, getGroupName_some_line b hrest,
        Option.map_some] at he'
      cases he'
      refine .ofPattern fun pat hpat => ?_
      obtain ⟨r, hget, rfl⟩ := Option.map_eq_some_iff.mp hpat
      obtain ⟨d, tail, hv, -⟩ := getSynPattern_eq_some_iff.mp hget
      rw [matchPattern_line b ⟨d, r.1, tail, hv⟩, matchPattern, hget, Option.map_some]

end

end HapAndroid.Highlight
