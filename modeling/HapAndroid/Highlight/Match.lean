import HapAndroid.Highlight.Bytes

/-!
# `match_text` and `match_region`

The pattern matcher.  `match_text` tries the element at the front of a pattern;
`match_region` splits a pattern at `|` and tries the alternatives with a loop over
their elements.  Both work on memory of a fixed size: the copy of the pattern, and
the word a `\z` has stored, which may also be absent.  `none` is a run that reads or
writes outside of that memory.

`match_text` returns the number of bytes matched, 0 for a failure and -1 for a `\s*`
that matched nothing.  A `\b` that matches also returns 0, with the pattern advanced,
so it counts as the last element of an alternative only.
-/

namespace HapAndroid.Highlight

/-- `MAX_SPLIT_MATCH_LENGTH`. -/
def maxSplitMatchLength : Nat := 255

/-- `MAX_FORWARD_MATCH_LENGTH`. -/
def maxForwardMatchLength : Nat := 80

/-- What `match_text` leaves: the rest of the pattern, the position in the text, the
stored word and the returned length. -/
structure TextMatch where
  pat : Bytes
  pos : Nat
  mem : Option Bytes
  len : Int

section
variable (t : FileText) (p : Bytes) (pos : Nat) (mem : Option Bytes)

/-- The return of 0 that changes nothing. -/
def noText : TextMatch := ⟨p, pos, mem, 0⟩

/-- The element takes `k` bytes of the pattern and `n` of the text. -/
def takes (k n : Nat) : TextMatch := ⟨p.drop k, pos + n, mem, n⟩

/-- Whether the pattern starts with a backslash and this letter. -/
def isEscape (c : Char) : Bool := p.getD 0 0 == 0x5C && p.getD 1 0 == c.toUInt8

/-- `\z`: compare with the stored word and forget it, or store the word that
follows. -/
def matchZ : Option TextMatch :=
  match mem with
  | none => none
  | some [] =>
      if t.run isKeyword pos ≤ maxForwardMatchLength then
        some (takes p pos (some ((t.rest pos).take (t.run isKeyword pos))) 2 (t.run isKeyword pos))
      else none
  | some word =>
      if word.length < maxForwardMatchLength then
        if t.startsWith pos word then some (takes p pos (some []) 2 word.length)
        else some (noText p pos mem)
      else none

/-- A run of a class that may not be empty. -/
def matchRun (cls : UInt8 → Bool) : TextMatch :=
  if t.run cls pos = 0 then noText p pos mem else takes p pos mem 3 (t.run cls pos)

/-- One byte of a class. -/
def matchOne (cls : UInt8 → Bool) : TextMatch :=
  if cls (t.byte pos) then takes p pos mem 2 1 else noText p pos mem

/-- `\s*`. -/
def matchBlanks : TextMatch :=
  { takes p pos mem 3 (t.run isBlank pos) with
    len := if t.run isBlank pos = 0 then -1 else t.run isBlank pos }

/-- `\b`: a word ends here.  The returned length does not count it. -/
def matchWordEnd : TextMatch :=
  if isKeyword (t.prev pos) && !isKeyword (t.byte pos) then
    { takes p pos mem 2 1 with len := 0 }
  else noText p pos mem

/-- `\$` is a dollar. -/
def unescape : Bytes := if isEscape p '$' then p.drop 1 else p

/-- A literal byte, up to case. -/
def matchLiteral : Option TextMatch :=
  -- The end of the pattern against the end of the text would step over both.
  if (unescape p).getD 0 0 = 0 ∧ t.byte pos = 0 then none
  else if toLower ((unescape p).getD 0 0) = toLower (t.byte pos) then
    some (takes (unescape p) pos mem 1 1)
  else some (noText p pos mem)

def matchText : Option TextMatch :=
  if isEscape p 'z' && isAlpha (t.byte pos) then matchZ t p pos mem
  else if isEscape p 's' then
    if p.getD 2 0 = 0x2A then some (matchBlanks t p pos mem)
    else if p.getD 2 0 = 0x2B then some (matchRun t p pos mem isBlank)
    else some (matchOne t p pos mem isBlank)
  else if isEscape p 'w' then
    if p.getD 2 0 = 0x2B then some (matchRun t p pos mem isKeyword)
    else some (matchOne t p pos mem isKeyword)
  else if isEscape p 'b' then some (matchWordEnd t p pos mem)
  else matchLiteral t p pos mem

end

/-! ### What an element takes -/

section
variable {t : FileText} {p : Bytes} {pos : Nat} {mem : Option Bytes}

/-- An element that counts has taken that many bytes of the text, and has taken some
of the pattern unless that was empty. -/
structure TextMatch.Sound (t : FileText) (p : Bytes) (pos : Nat) (r : TextMatch) : Prop where
  pos_eq : r.len ≠ 0 → r.pos = pos + r.len.toNat
  pos_le : r.len ≠ 0 → pos ≤ t.length → r.pos ≤ t.length
  pat_lt : r.len ≠ 0 → r.pat.length < p.length

theorem sound_noText : (noText p pos mem).Sound t p pos :=
  ⟨fun h => absurd rfl h, fun h => absurd rfl h, fun h => absurd rfl h⟩

theorem sound_takes {k n : Nat} {mem' : Option Bytes} (hk : 0 < k) (hp : p ≠ [])
    (hn : pos ≤ t.length → pos + n ≤ t.length) : (takes p pos mem' k n).Sound t p pos where
  pos_eq := fun _ => by simp [takes]
  pos_le := fun _ => hn
  pat_lt := fun _ => by
    have : 0 < p.length := List.length_pos_of_ne_nil hp
    simp only [takes, List.length_drop]
    omega

theorem ne_nil_of_isEscape {c : Char} (h : isEscape p c = true) : p ≠ [] := by
  rintro rfl
  simp [isEscape] at h

theorem sound_matchZ (hp : p ≠ []) {r : TextMatch} (h : matchZ t p pos mem = some r) :
    r.Sound t p pos := by
  unfold matchZ at h
  split at h
  · cases h
  · split at h
    · cases h
      exact sound_takes (by simp) hp fun hle => FileText.run_le hle
    · cases h
  · split at h
    · split at h
      · next hw =>
        cases h
        exact sound_takes (by simp) hp (FileText.le_of_startsWith hw)
      · cases h
        exact sound_noText
    · cases h

theorem sound_matchRun (hp : p ≠ []) (cls : UInt8 → Bool) :
    (matchRun t p pos mem cls).Sound t p pos := by
  unfold matchRun
  split
  · exact sound_noText
  · exact sound_takes (by simp) hp fun hle => FileText.run_le hle

theorem sound_matchOne (hp : p ≠ []) {cls : UInt8 → Bool} (h0 : cls 0 = false) :
    (matchOne t p pos mem cls).Sound t p pos := by
  unfold matchOne
  split
  · next hc => exact sound_takes (by simp) hp fun _ => FileText.lt_length (by intro h; simp [h, h0] at hc)
  · exact sound_noText

theorem sound_matchBlanks (hp : p ≠ []) : (matchBlanks t p pos mem).Sound t p pos := by
  have hlen : 0 < p.length := List.length_pos_of_ne_nil hp
  refine ⟨fun _ => ?_, fun _ hle => FileText.run_le hle, fun _ => ?_⟩
  · simp only [matchBlanks, takes]
    split <;> simp_all
  · simp only [matchBlanks, takes, List.length_drop]
    omega

theorem sound_matchWordEnd : (matchWordEnd t p pos mem).Sound t p pos := by
  unfold matchWordEnd
  split
  · exact ⟨fun h => absurd rfl h, fun h => absurd rfl h, fun h => absurd rfl h⟩
  · exact sound_noText

theorem toLower_eq_zero {c : UInt8} (h : toLower c = 0) : c = 0 := by
  unfold toLower at h
  split at h
  · next hc =>
    simp only [Bool.and_eq_true, decide_eq_true_eq, UInt8.le_iff_toNat_le] at hc
    have := congrArg UInt8.toNat h
    rw [UInt8.toNat_add] at this
    simp at this hc
    omega
  · exact h

theorem sound_matchLiteral {r : TextMatch} (h : matchLiteral t p pos mem = some r) :
    r.Sound t p pos := by
  unfold matchLiteral at h
  split at h
  · cases h
  · next hboth =>
    split at h
    · next heq =>
      cases h
      -- Equal up to case and not both zero, so neither is.
      have hbyte : t.byte pos ≠ 0 := by
        intro h0
        rw [h0] at heq hboth
        exact hboth ⟨toLower_eq_zero heq, rfl⟩
      have hpat : unescape p ≠ [] := by
        intro hnil
        rw [hnil] at heq
        exact hbyte (toLower_eq_zero heq.symm)
      have hle : (unescape p).length ≤ p.length := by
        unfold unescape
        split
        · rw [List.length_drop]
          omega
        · exact Nat.le_refl _
      have h' : (takes (unescape p) pos mem 1 1).Sound t (unescape p) pos :=
        sound_takes (by simp) hpat fun _ => FileText.lt_length hbyte
      exact ⟨h'.pos_eq, h'.pos_le, fun hl => Nat.lt_of_lt_of_le (h'.pat_lt hl) hle⟩
    · cases h
      exact sound_noText

theorem sound_matchText {r : TextMatch} (h : matchText t p pos mem = some r) : r.Sound t p pos := by
  unfold matchText at h
  split at h
  · next hz => exact sound_matchZ (ne_nil_of_isEscape (Bool.and_eq_true_iff.mp hz).1) h
  · split at h
    · next hs =>
      have hp := ne_nil_of_isEscape hs
      split at h
      · cases h; exact sound_matchBlanks hp
      · split at h
        · cases h; exact sound_matchRun hp isBlank
        · cases h; exact sound_matchOne hp rfl
    · split at h
      · next hw =>
        have hp := ne_nil_of_isEscape hw
        split at h
        · cases h; exact sound_matchRun hp isKeyword
        · cases h; exact sound_matchOne hp rfl
      · split at h
        · cases h; exact sound_matchWordEnd
        · exact sound_matchLiteral h

end

/-! ## Alternatives -/

/-- How an alternative ends. -/
inductive AltEnd where
  /-- It matches, with this length. -/
  | matched (len : Nat)
  /-- The next alternative is tried. -/
  | next
  /-- The remaining alternatives are not tried. -/
  | leave
deriving DecidableEq

/-- The loop over the elements of an alternative. -/
def matchLoop (t : FileText) : Nat → Bytes → Nat → Option Bytes → Nat →
    Option (AltEnd × Option Bytes)
  | _, [], _, mem, retLen => some (.matched retLen, mem)
  | 0, _ :: _, _, _, _ => none
  | fuel + 1, c :: p, pos, mem, retLen =>
      if c = 0x24 then
        some (if t.byte pos = 0x0A ∨ t.byte pos = 0 then .matched retLen else .next, mem)
      else
        match matchText t (c :: p) pos mem with
        | none => none
        | some r =>
            if r.len = 0 then some (if r.pat = [] then .matched retLen else .next, r.mem)
            else matchLoop t fuel r.pat r.pos r.mem (retLen + r.len.toNat)

/-- One alternative.  After `^` a first element that fails ends the search. -/
def matchAlt (t : FileText) (p : Bytes) (pos : Nat) (mem : Option Bytes) :
    Option (AltEnd × Option Bytes) :=
  if p.getD 0 0 = 0x5E then
    if t.prev pos = 0 ∨ t.prev pos = 0x0A then
      match matchText t (p.drop 1) pos mem with
      | none => none
      | some r =>
          if r.len = 0 then some (.leave, r.mem)
          else matchLoop t r.pat.length r.pat r.pos r.mem r.len.toNat
    else some (.leave, mem)
  else matchLoop t p.length p pos mem 0

/-- What `match_region` leaves: the length when it returns `TRUE`, and the stored
word. -/
structure RegionMatch where
  len : Option Nat
  mem : Option Bytes

def matchAlts (t : FileText) (pos : Nat) : List Bytes → Option Bytes → Option RegionMatch
  | [], mem => some ⟨none, mem⟩
  | p :: ps, mem =>
      match matchAlt t p pos mem with
      | none => none
      | some (.matched len, mem) => some ⟨some len, mem⟩
      | some (.next, mem) => matchAlts t pos ps mem
      | some (.leave, mem) => some ⟨none, mem⟩

def matchRegion (t : FileText) (pos : Nat) (syn : Bytes) (mem : Option Bytes) :
    Option RegionMatch :=
  if syn.length < maxSplitMatchLength then matchAlts t pos (syn.splitOn 0x7C) mem else none

/-! ### What a match takes -/

section
variable {t : FileText}

/-- The loop has room for every element: more of it changes nothing. -/
theorem matchLoop_fuel {fuel : Nat} {p : Bytes} {pos : Nat} {mem : Option Bytes} {retLen : Nat}
    (h : p.length ≤ fuel) :
    matchLoop t fuel p pos mem retLen = matchLoop t p.length p pos mem retLen := by
  induction fuel using Nat.strongRecOn generalizing p pos mem retLen with
  | ind fuel ih =>
      cases p with
      | nil => simp [matchLoop]
      | cons c p =>
          rw [List.length_cons] at h
          obtain ⟨fuel, rfl⟩ : ∃ n, fuel = n + 1 := ⟨fuel - 1, by omega⟩
          rw [List.length_cons, matchLoop, matchLoop]
          split
          · rfl
          · cases hr : matchText t (c :: p) pos mem with
            | none => rfl
            | some r =>
                dsimp only
                split
                · rfl
                · next hlen =>
                  -- Both runs go on with a shorter pattern.
                  have hlt := (sound_matchText hr).pat_lt hlen
                  rw [List.length_cons] at hlt
                  rw [ih fuel (by omega) (by omega), ih p.length (by omega) (by omega)]

/-- A match ends inside the text. -/
theorem matchLoop_le {start : Nat} : ∀ {fuel : Nat} {p : Bytes} {pos : Nat} {mem mem' : Option Bytes}
    {retLen n : Nat}, matchLoop t fuel p pos mem retLen = some (.matched n, mem') →
      pos = start + retLen → pos ≤ t.length → start + n ≤ t.length
  | _, [], pos, mem, mem', retLen, n, h, hpos, hle => by
      rw [matchLoop] at h
      cases h
      exact hpos ▸ hle
  | 0, _ :: _, _, _, _, _, _, h, _, _ => by
      rw [matchLoop] at h
      cases h
  | fuel + 1, c :: p, pos, mem, mem', retLen, n, h, hpos, hle => by
      rw [matchLoop] at h
      split at h
      · split at h
        · cases h
          exact hpos ▸ hle
        · cases h
      · cases hr : matchText t (c :: p) pos mem with
        | none =>
            rw [hr] at h
            cases h
        | some r =>
            have hsound := sound_matchText hr
            rw [hr] at h
            dsimp only at h
            split at h
            · split at h
              · cases h
                exact hpos ▸ hle
              · cases h
            · next hlen =>
              have hr := hsound.pos_eq hlen
              exact matchLoop_le h (by omega) (hsound.pos_le hlen hle)

theorem matchAlt_le {p : Bytes} {pos n : Nat} {mem mem' : Option Bytes}
    (h : matchAlt t p pos mem = some (.matched n, mem')) (hle : pos ≤ t.length) :
    pos + n ≤ t.length := by
  unfold matchAlt at h
  split at h
  · split at h
    · cases hr : matchText t (p.drop 1) pos mem with
      | none =>
          rw [hr] at h
          cases h
      | some r =>
          have hsound := sound_matchText hr
          rw [hr] at h
          dsimp only at h
          split at h
          · cases h
          · next hlen => exact matchLoop_le h (hsound.pos_eq hlen) (hsound.pos_le hlen hle)
    · cases h
  · exact matchLoop_le h (Nat.add_zero _).symm hle

theorem matchAlts_le {pos n : Nat} {mem' : Option Bytes} (hle : pos ≤ t.length) :
    ∀ {ps : List Bytes} {mem : Option Bytes},
      matchAlts t pos ps mem = some ⟨some n, mem'⟩ → pos + n ≤ t.length
  | [], mem, h => by cases h
  | p :: ps, mem, h => by
      rw [matchAlts] at h
      split at h
      · cases h
      · next hp =>
        cases h
        exact matchAlt_le hp hle
      · exact matchAlts_le hle h
      · cases h

theorem matchRegion_le {pos n : Nat} {syn : Bytes} {mem mem' : Option Bytes}
    (h : matchRegion t pos syn mem = some ⟨some n, mem'⟩) (hle : pos ≤ t.length) :
    pos + n ≤ t.length := by
  unfold matchRegion at h
  split at h
  · exact matchAlts_le hle h
  · cases h

end

end HapAndroid.Highlight
