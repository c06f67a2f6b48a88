import HapAndroid.Highlight.KeywordLine
import HapAndroid.Highlight.RegionCommand

/-!
# A text with more lines behind it

What the commands of a text become when a line feed and another text follow.  Most of what they
read stops at a line feed anyway.  Two things do not: a quoted value that is not closed, and a
backslash at the very end of a list of words, which then stands for the line feed.
-/

namespace HapAndroid.Highlight

/-- The command when a line feed and `b` follow the text. -/
def Command.extend (b : Bytes) : Command → Command
  | .noWord => .noWord
  | .noType => .noType
  | .synCase arg => .synCase (arg ++ 0x0A :: b)
  | .synKeyword arg => .synKeyword (arg ++ 0x0A :: b)
  | .synRegion arg => .synRegion (arg ++ 0x0A :: b)
  | .synMatch arg => .synMatch (arg ++ 0x0A :: b)
  | .hiLink arg => .hiLink (arg ++ 0x0A :: b)
  | .synInclude arg => .synInclude (arg ++ 0x0A :: b)
  | .skip => .skip

section
variable (p b : Bytes)

/-! ## Pointers -/

theorem dropWhile_line {f : UInt8 → Bool} (hf : f 0x0A = false) :
    (p ++ 0x0A :: b).dropWhile f = p.dropWhile f ++ 0x0A :: b := by
  induction p with
  | nil => exact List.dropWhile_cons_of_neg (by simp [hf])
  | cons c p ih =>
      rw [List.cons_append, List.dropWhile_cons, List.dropWhile_cons]
      split
      · exact ih
      · rfl

theorem takeWhile_line {f : UInt8 → Bool} (hf : f 0x0A = false) :
    (p ++ 0x0A :: b).takeWhile f = p.takeWhile f := by
  induction p with
  | nil => exact List.takeWhile_cons_of_neg (by simp [hf])
  | cons c p ih =>
      rw [List.cons_append, List.takeWhile_cons, List.takeWhile_cons]
      split
      · rw [ih]
      · rfl

theorem skipwhite_line : skipwhite (p ++ 0x0A :: b) = skipwhite p ++ 0x0A :: b :=
  dropWhile_line p b rfl

theorem skiptowhite_line : skiptowhite (p ++ 0x0A :: b) = skiptowhite p ++ 0x0A :: b :=
  dropWhile_line p b rfl

theorem untilWhite_line : untilWhite (p ++ 0x0A :: b) = untilWhite p := takeWhile_line p b rfl

theorem endsExcmd_line : endsExcmd (p ++ 0x0A :: b) = endsExcmd p := by
  cases p <;> rfl

theorem getWord_line : getWord (p ++ 0x0A :: b) = ((getWord p).1, (getWord p).2 ++ 0x0A :: b) := by
  unfold getWord
  rw [skipwhite_line, endsExcmd_line]
  split
  · rfl
  · rw [takeWhile_line _ b rfl, dropWhile_line _ b rfl, skipwhite_line]

theorem isPrefixOf_line {s : Bytes} (hs : 0x0A ∉ s) :
    s.isPrefixOf (p ++ 0x0A :: b) = s.isPrefixOf p := by
  induction s generalizing p with
  | nil => rfl
  | cons c s ih =>
      obtain ⟨hc, hs⟩ := List.ne_and_not_mem_of_not_mem_cons hs
      cases p with
      | nil =>
          rw [List.nil_append, List.isPrefixOf_cons_cons]
          simp [hc.symm]
      | cons d p =>
          rw [List.cons_append, List.isPrefixOf_cons_cons, List.isPrefixOf_cons_cons, ih p hs]

variable {p} in
theorem getGroupName_line (h : endsExcmd p = false) :
    getGroupName (p ++ 0x0A :: b) = some (skipwhite (skiptowhite p) ++ 0x0A :: b) := by
  refine getGroupName_eq_some_iff.mpr ⟨by rw [endsExcmd_line, h], by simp, ?_⟩
  rw [skiptowhite_line, skipwhite_line]

variable {p} in
theorem getGroupName_line_of_ends (h : endsExcmd p = true) :
    getGroupName (p ++ 0x0A :: b) = none :=
  getGroupName_eq_none_iff.mpr (.inl (by rw [endsExcmd_line, h]))

/-! ## Commands -/

variable {p} in
theorem readCommand_line (hp : p ≠ []) :
    readCommand (p ++ 0x0A :: b) = (readCommand p).extend b := by
  have hhead : (p ++ 0x0A :: b).headD 0 = p.headD 0 := by
    cases p with
    | nil => exact absurd rfl hp
    | cons c p => rfl
  rw [readCommand, readCommand, hhead, getWord_line]
  split
  · rfl
  · rcases getWord p with ⟨_ | cmd, rest⟩
    · rfl
    · dsimp only
      split
      · rw [getWord_line]
        rcases getWord rest with ⟨_ | type, rest'⟩
        · rfl
        · dsimp only
          split_ifs <;> rfl
      · split_ifs <;> rfl

end

/-- The places of a text are found behind its first blanks. -/
theorem places_congr {p q : Bytes} (h : p.dropWhile isBlank = q.dropWhile isBlank) :
    places p = places q := by
  cases hp : p.dropWhile isBlank with
  | nil => rw [places_nil hp, places_nil (h.symm.trans hp)]
  | cons c t => rw [places_cons hp, places_cons (h.symm.trans hp)]

theorem dropWhile_gotoNextLine (p : Bytes) :
    (gotoNextLine p).dropWhile isBlank = (p.dropWhile (· ≠ 0x0A)).dropWhile isBlank := by
  rw [gotoNextLine]
  induction p.dropWhile (· ≠ 0x0A) with
  | nil => rfl
  | cons c q ih =>
      by_cases hc : c = 0x0A
      · subst hc
        rw [List.dropWhile_cons_of_pos (by simp), ih, List.dropWhile_cons_of_pos (by rfl)]
      · rw [List.dropWhile_cons_of_neg (by simp [hc])]

/-- The places of two texts with a line feed between them. -/
theorem places_line (p b : Bytes) :
    places (p ++ 0x0A :: b) = (places p).map (· ++ 0x0A :: b) ++ places b := by
  induction p using lines_induction with
  | nil p hp =>
      rw [places_nil hp]
      refine places_congr ?_
      rw [List.dropWhile_append, hp]
      rfl
  | cons p c t hp ih =>
      have hp' : (p ++ 0x0A :: b).dropWhile isBlank = c :: (t ++ 0x0A :: b) := by
        rw [List.dropWhile_append, hp]
        rfl
      have hnext : places (gotoNextLine (c :: (t ++ 0x0A :: b))) =
          places (gotoNextLine (c :: t) ++ 0x0A :: b) := by
        refine places_congr ?_
        rw [dropWhile_gotoNextLine, ← List.cons_append, dropWhile_line _ b (by simp),
          List.dropWhile_append, List.dropWhile_append, dropWhile_gotoNextLine]
      rw [places_cons hp', places_cons hp, hnext, ih]
      rfl

/-- The commands of two texts with a line feed between them. -/
theorem commands_line (p b : Bytes) :
    commands (p ++ 0x0A :: b) = (commands p).map (Command.extend b) ++ commands b := by
  rw [commands, places_line, List.map_append, List.map_map, commands, List.map_map]
  refine congrArg (· ++ _) (List.map_congr_left fun q hq => ?_)
  obtain ⟨-, c, t, rfl, -⟩ := mem_places hq
  exact readCommand_line b (List.cons_ne_nil c t)

/-! ## Values and keys -/

/-- A text starts with a closed value. -/
def Delimited (p : Bytes) : Prop := ∃ d v rest, Quoted d v rest p

/-- Behind the settings `kvs` a known key has a value that is not closed in the text. -/
def OpenValue (p : Bytes) (kvs : List (Key × Bytes)) (key : Key) (w : Bytes) : Prop :=
  ∃ q, Reads p kvs q ∧ KeyAt q key w ∧ ¬ Delimited w

section
variable {p q w v rest name : Bytes} {d : UInt8} {key : Key} {kvs : List (Key × Bytes)}

theorem Quoted.getSynPattern_eq (h : Quoted d v rest w) : getSynPattern w =
    if endsExcmd rest = true ∨ isWhite (rest.headD 0) = true then some (v, skipwhite rest)
    else none := by
  split
  · next hrest => exact getSynPattern_eq_some_iff.mpr ⟨d, rest, h, hrest, rfl⟩
  · next hrest =>
    cases hget : getSynPattern w with
    | none => rfl
    | some r =>
        obtain ⟨d', rest', h', hrest', -⟩ := getSynPattern_eq_some_iff.mp hget
        -- The first byte is the delimiter, and the value ends at the next one.
        have heq := h.eq.symm.trans h'.eq
        obtain ⟨rfl, htail⟩ := List.cons.inj heq
        have hrest := congrArg (List.dropWhile (· ≠ d)) htail
        rw [h.dropWhile, h'.dropWhile] at hrest
        cases hrest
        contradiction

variable (b : Bytes)

theorem Quoted.line (h : Quoted d v rest w) : Quoted d v (rest ++ 0x0A :: b) (w ++ 0x0A :: b) where
  eq := by rw [h.eq, List.cons_append, List.append_assoc, List.cons_append]
  notMem := h.notMem
  three := .inr (by simp)

theorem isWhite_headD_line (rest b : Bytes) :
    isWhite ((rest ++ 0x0A :: b).headD 0) = isWhite (rest.headD 0) := by
  cases rest <;> rfl

/-- A closed value is the same with more lines. -/
theorem Quoted.getSynPattern_line (h : Quoted d v rest w) : getSynPattern (w ++ 0x0A :: b) =
    (getSynPattern w).map fun r => (r.1, r.2 ++ 0x0A :: b) := by
  rw [(h.line b).getSynPattern_eq, h.getSynPattern_eq, endsExcmd_line, isWhite_headD_line,
    skipwhite_line]
  split <;> rfl

theorem KeyName.line (h : KeyName name rest p) :
    KeyName name (rest ++ 0x0A :: b) (p ++ 0x0A :: b) where
  eq := by rw [h.eq, List.append_assoc]
  name := h.name
  stop := by
    cases rest with
    | nil =>
        rintro c ⟨⟩
        rfl
    | cons c rest => exact h.stop
  notEnd := by rw [endsExcmd_line, h.notEnd]

theorem KeyAt.line (h : KeyAt p key w) : KeyAt (p ++ 0x0A :: b) key (w ++ 0x0A :: b) := by
  obtain ⟨name, white, white', hname, hkey, hw, hw', hhead⟩ := h
  refine ⟨name, white, white', ?_, hkey, hw, hw', ?_⟩
  · have hline := hname.line b
    rwa [List.append_assoc, List.cons_append, List.append_assoc] at hline
  · cases w with
    | nil =>
        rintro c ⟨⟩
        rfl
    | cons c w => exact hhead

theorem Reads.line (h : Reads p kvs q) : Reads (p ++ 0x0A :: b) kvs (q ++ 0x0A :: b) := by
  induction h with
  | nil p => exact .nil _
  | cons hkey hv hrest _ ih =>
      refine .cons (hkey.line b) (hv.line b) ?_ ?_
      · rwa [endsExcmd_line, isWhite_headD_line]
      · rwa [skipwhite_line]

theorem ArgumentsEnd.line (h : ArgumentsEnd p) : ArgumentsEnd (p ++ 0x0A :: b) := by
  rcases h with hend | ⟨name, rest, hname, hkey⟩
  · exact .inl (by rw [endsExcmd_line, hend])
  · exact .inr ⟨name, _, hname.line b, hkey⟩

theorem Settings.line (h : Settings p kvs) : Settings (p ++ 0x0A :: b) kvs := by
  obtain ⟨q, hreads, hend⟩ := h
  exact ⟨_, hreads.line b, hend.line b⟩

/-- A key that fails with a closed value, or without one, fails with more lines. -/
theorem KeyFails.line (h : KeyFails p) (hclosed : ∀ key w, KeyAt p key w → Delimited w) :
    KeyFails (p ++ 0x0A :: b) := by
  rcases h with ⟨name, rest, key, hname, hkey, heq⟩ | ⟨key, w, hat, hget⟩
  · refine .inl ⟨name, _, key, hname.line b, hkey, ?_⟩
    rw [skipwhite_line]
    cases h : skipwhite rest with
    | nil => simp
    | cons c t =>
        rw [h] at heq
        exact heq
  · obtain ⟨d, v, rest, hv⟩ := hclosed key w hat
    exact .inr ⟨key, _, hat.line b, by rw [hv.getSynPattern_line, hget, Option.map_none]⟩

/-- A text that fails at a key has no settings. -/
theorem not_settings_of_fails (hreads : Reads p kvs q) (hfails : KeyFails q)
    (hwhite : skipwhite p = p) : ∀ kvs, ¬ Settings p kvs := by
  intro kvs' hset
  obtain ⟨fuel', hfuel', hq, hread⟩ := hreads.readKeys CItem.zero 0 hwhite (Nat.le_refl _)
  rw [readKeys_of_fails _ _ hfails hq hfuel',
    readKeys_of_settings CItem.zero 0 hset hwhite (Nat.le_refl _)] at hread
  cases hread

/-- Without an open value no settings come with more lines. -/
theorem not_settings_line (hwhite : skipwhite p = p) (hset : ∀ kvs, ¬ Settings p kvs)
    (hopen : ∀ kvs key w, ¬ OpenValue p kvs key w) :
    ∀ kvs, ¬ Settings (p ++ 0x0A :: b) kvs := by
  obtain ⟨kvs, q, hreads, hend | hfails⟩ := exists_reads hwhite
  · exact absurd ⟨q, hreads, hend⟩ (hset kvs)
  · refine not_settings_of_fails (hreads.line b) (hfails.line b fun key w hat => ?_) ?_
    · by_contra hnot
      exact hopen kvs key w ⟨q, hreads, hat, hnot⟩
    · rw [skipwhite_line, hwhite]

end

/-! ## Letters -/

/-- The backslash at the very end of a text. -/
def Letter.backslash : Letter := ⟨false, 0x5C⟩

section
variable {p : Bytes}

/-- A text whose last byte is no lone backslash. -/
theorem letters_line (b : Bytes) (h : Letter.backslash ∉ letters p) :
    letters (p ++ 0x0A :: b) = letters p ++ ⟨false, 0x0A⟩ :: letters b := by
  induction p using letters.induct with
  | case1 => exact letters_cons (.inl (by decide))
  | case2 c =>
      have hc : c ≠ 0x5C := by
        rintro rfl
        exact h (List.mem_singleton.mpr rfl)
      rw [List.cons_append, List.nil_append, letters_cons (.inl hc),
        letters_cons (c := 0x0A) (.inl (by decide))]
      rfl
  | case3 d p ih =>
      rw [letters_escape] at h ⊢
      rw [List.cons_append, List.cons_append, letters_escape, List.cons_append,
        ih fun hmem => h (List.mem_cons_of_mem _ hmem)]
  | case4 c d p hc ih =>
      rw [letters_cons (.inl hc)] at h ⊢
      have hline := ih fun hmem => h (List.mem_cons_of_mem _ hmem)
      rw [List.cons_append, letters_cons (.inl hc), hline, List.cons_append]

/-- A lone backslash quotes the line feed. -/
theorem letters_line_of_mem (b : Bytes) (h : Letter.backslash ∈ letters p) :
    ∃ xs, letters p = xs ++ [Letter.backslash] ∧ Letter.backslash ∉ xs ∧
      letters (p ++ 0x0A :: b) = xs ++ ⟨true, 0x0A⟩ :: letters b := by
  induction p using letters.induct with
  | case1 => cases h
  | case2 c =>
      obtain rfl : 0x5C = c := congrArg Letter.byte (List.mem_singleton.mp h)
      exact ⟨[], rfl, List.not_mem_nil, letters_escape 0x0A b⟩
  | case3 d p ih =>
      have hne : Letter.backslash ≠ ⟨true, d⟩ := by simp [Letter.backslash]
      rw [letters_escape] at h
      obtain ⟨xs, hp, hnot, hline⟩ := ih ((List.mem_cons.mp h).resolve_left hne)
      refine ⟨⟨true, d⟩ :: xs, by rw [letters_escape, hp, List.cons_append],
        List.not_mem_cons_of_ne_of_not_mem hne hnot, ?_⟩
      rw [List.cons_append, List.cons_append, letters_escape, hline, List.cons_append]
  | case4 c d p hc ih =>
      rw [letters_cons (.inl hc)] at h
      have hne : Letter.backslash ≠ ⟨false, c⟩ := fun heq => hc (congrArg Letter.byte heq).symm
      obtain ⟨xs, hp, hnot, hline⟩ := ih ((List.mem_cons.mp h).resolve_left hne)
      refine ⟨⟨false, c⟩ :: xs, by rw [letters_cons (.inl hc), hp, List.cons_append],
        List.not_mem_cons_of_ne_of_not_mem hne hnot, ?_⟩
      rw [List.cons_append, letters_cons (.inl hc), hline, List.cons_append]

/-- A line feed ends the list, wherever it stands. -/
theorem listLetters_lf (start : Bool) (xs ys : List Letter) :
    listLetters start (xs ++ ⟨false, 0x0A⟩ :: ys) = listLetters start xs := by
  induction xs generalizing start with
  | nil => exact if_pos rfl
  | cons x xs ih =>
      rw [List.cons_append, listLetters, listLetters, ih]

theorem listLetters_subset (start : Bool) (xs : List Letter) : listLetters start xs ⊆ xs := by
  induction xs generalizing start with
  | nil => exact List.Subset.refl _
  | cons x xs ih =>
      rw [listLetters]
      split
      · exact List.nil_subset _
      · exact List.cons_subset_cons x (ih _)

/-- A list ends among some letters, or it goes on with what follows them. -/
theorem listLetters_append_cases (start : Bool) (xs : List Letter) :
    (∀ ys, listLetters start (xs ++ ys) = listLetters start xs) ∨
      ∃ s, ∀ ys, listLetters start (xs ++ ys) = xs ++ listLetters s ys := by
  induction xs generalizing start with
  | nil => exact .inr ⟨start, fun _ => rfl⟩
  | cons x xs ih =>
      simp only [List.cons_append, listLetters]
      cases hend : x.ends start with
      | true => exact .inl fun ys => rfl
      | false =>
          rcases ih x.separates with hsame | ⟨s, hs⟩
          · exact .inl fun ys => congrArg (x :: ·) (hsame ys)
          · exact .inr ⟨s, fun ys => congrArg (x :: ·) (hs ys)⟩

/-- A list without a lone backslash is the same with more lines; another one goes on. -/
theorem listLetters_line (p b : Bytes) :
    Letter.backslash ∉ listLetters true (letters p) ∧
      listLetters true (letters (p ++ 0x0A :: b)) = listLetters true (letters p) ∨
    ∃ xs, listLetters true (letters p) = xs ++ [Letter.backslash] ∧
      listLetters true (letters (p ++ 0x0A :: b)) =
        xs ++ ⟨true, 0x0A⟩ :: listLetters false (letters b) := by
  by_cases hmem : Letter.backslash ∈ letters p
  · obtain ⟨xs, hp, hnot, hline⟩ := letters_line_of_mem b hmem
    rw [hp, hline]
    rcases listLetters_append_cases true xs with hsame | ⟨s, hs⟩
    · refine .inl ⟨?_, by rw [hsame, hsame]⟩
      rw [hsame]
      exact fun h => hnot (listLetters_subset true xs h)
    · refine .inr ⟨xs, ?_, ?_⟩
      · rw [hs]
        cases s <;> rfl
      · rw [hs, listLetters, if_neg (by cases s <;> decide)]
        rfl
  · refine .inl ⟨fun h => hmem (listLetters_subset true _ h), ?_⟩
    rw [letters_line b hmem, listLetters_lf]

end

end HapAndroid.Highlight
