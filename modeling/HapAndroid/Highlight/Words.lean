import HapAndroid.Lib.Machine
import HapAndroid.Highlight.Chars
import HapAndroid.Highlight.Load
import HapAndroid.Highlight.Parse

/-!
# Keywords and words

A keyword is looked up as the run of word characters from the position on, so it ends
where a word ends.  That it starts where a word starts depends on how the scanner came
there.  A word that is no keyword is skipped as a whole when there are patterns; without
patterns the scanner goes on with its second character, and so finds a keyword at its end.
A match, the end of a region and the start of a tag may end inside of a word as well.

`keywords_whole` says that these are the only ways: in a run that takes nothing that ends
inside of a word, and meets no word that ends with a keyword where it goes on character by
character, every keyword that is recorded is a whole word.
-/

namespace HapAndroid.Highlight

open Machine

/-- The position between two characters of a word. -/
def FileText.MidWord (t : FileText) (i : Nat) : Prop :=
  0 < i ∧ isKeyword (t.byte (i - 1)) = true ∧ isKeyword (t.byte i) = true

/-- The bytes from a position make a whole word: no word character is before or behind
them. -/
def FileText.WholeWord (t : FileText) (i n : Nat) : Prop :=
  (i = 0 ∨ isKeyword (t.byte (i - 1)) = false) ∧ isKeyword (t.byte (i + n)) = false

section
variable {t : FileText} {i : Nat}

/-- A run ends before a byte that is not of its class. -/
theorem FileText.run_stop {p : UInt8 → Bool} (h0 : p 0 = false) :
    p (t.byte (i + t.run p i)) = false := by
  rw [t.byte_add, FileText.run]
  generalize t.rest i = bs
  induction bs with
  | nil => exact h0
  | cons b bs ih =>
      cases hb : p b with
      | true =>
          rw [List.takeWhile_cons_of_pos hb, List.length_cons, List.getD_cons_succ]
          exact ih
      | false =>
          rw [List.takeWhile_cons_of_neg (by simp [hb])]
          exact hb

/-- The bytes of a run are of its class. -/
theorem FileText.byte_of_run {p : UInt8 → Bool} {j : Nat} (hj : j < t.run p i) :
    p (t.byte (i + j)) = true := by
  rw [t.byte_add]
  unfold FileText.run at hj
  generalize t.rest i = bs at hj ⊢
  induction bs generalizing j with
  | nil => simp at hj
  | cons b bs ih =>
      cases hb : p b with
      | true =>
          rw [List.takeWhile_cons_of_pos hb, List.length_cons] at hj
          cases j with
          | zero => exact hb
          | succ j =>
              rw [List.getD_cons_succ]
              exact ih (by omega)
      | false =>
          rw [List.takeWhile_cons_of_neg (by simp [hb])] at hj
          simp at hj

theorem FileText.not_midWord_of_byte (h : isKeyword (t.byte i) = false) : ¬t.MidWord i := by
  rintro ⟨-, -, hkey⟩
  rw [h] at hkey
  cases hkey

theorem FileText.not_midWord_succ {n : Nat}
    (h : isKeyword (t.byte (i + n - 1)) = false) : ¬t.MidWord (i + n) := by
  rintro ⟨-, hkey, -⟩
  rw [h] at hkey
  cases hkey

theorem isKeyword_of_isTrail {b : UInt8} (h : isTrail b = true) : isKeyword b = false :=
  forall_byte (P := fun b => isTrail b = true → isKeyword b = false) (by decide +kernel) b h

/-- The last byte of a character that is no word character is none. -/
theorem isKeyword_last_of_char (h0 : t.byte i ≠ 0) (h : isKeyword (t.byte i) = false) :
    isKeyword (t.byte (i + utfcPtr2len t i - 1)) = false := by
  rcases utfcPtr2len_cases h0 with hone | ⟨hlen, htrail⟩
  · rw [hone]
    exact h
  · have hlast := htrail (utfcPtr2len t i - 2) (by omega)
    rw [show i + utfcPtr2len t i - 1 = i + 1 + (utfcPtr2len t i - 2) by omega]
    exact isKeyword_of_isTrail hlast

/-- A word character has one byte. -/
theorem utfcPtr2len_of_isKeyword (h : isKeyword (t.byte i) = true) : utfcPtr2len t i = 1 := by
  have h0 : t.byte i ≠ 0 := Scan.byte_ne_zero_of_isKeyword h
  have htab : utf8lenTab (t.byte i) = 1 :=
    if_pos (UInt8.lt_trans (isKeyword_ascii h) (by decide))
  rw [utfcPtr2len, if_neg h0, utfPtr2len, if_neg h0, htab]
  split
  · rfl
  · dsimp only
    split <;> rfl

end

/-! ## The scanner -/

namespace Scan

variable {e : ScanEnv} {s : Scan}

/-- No keyword stands at the end of the word at a position, apart from the word itself. -/
def SuffixFree (e : ScanEnv) (pos : Nat) : Prop :=
  ∀ q, pos < q → (∀ i, pos ≤ i → i < q → isKeyword (e.text.byte i) = true) →
    e.keywordAt q = none

/-- What the step takes before it goes on does not end inside of a word, and a word it goes
through by characters ends with no keyword. -/
structure KeepsWords (e : ScanEnv) (s : Scan) : Prop where
  takes : ∀ k n u, Takes e s k n u → k = .item ∨ k = .close → ¬e.text.MidWord (s.pos + n)
  advance : s.pc = .advance → isKeyword (e.text.byte s.pos) = true → SuffixFree e s.pos

/-- The places where a keyword may be looked up from this position on. -/
def Searching (s : Scan) : Prop :=
  s.pc = .enter ∨ s.pc = .top ∨ (∃ idx, s.pc = .item idx) ∨ s.pc = .advance

/-- There the position is not inside of a word, or no keyword stands at it. -/
def Fresh (e : ScanEnv) (s : Scan) : Prop :=
  s.Searching → ¬e.text.MidWord s.pos ∨ e.keywordAt s.pos = none

theorem fresh_of_not_midWord (h : ¬e.text.MidWord s.pos) : Fresh e s := fun _ => .inl h

/-- A step that stays where it is. -/
theorem Fresh.stay {u : Scan} (h : Fresh e s) (hs : s.Searching) (hpos : u.pos = s.pos) :
    Fresh e u := fun _ => by
  rw [hpos]
  exact h hs

/-- After a run of word characters no word goes on. -/
theorem fresh_run {u : Scan} (hpos : u.pos = s.pos + e.text.run isKeyword s.pos) :
    Fresh e u := by
  refine fresh_of_not_midWord ?_
  rw [hpos]
  exact FileText.not_midWord_of_byte (FileText.run_stop rfl)

theorem fresh_advance {u : Scan} (h0 : e.text.byte s.pos ≠ 0)
    (hpos : u.pos = s.pos + utfcPtr2len e.text s.pos)
    (hfree : isKeyword (e.text.byte s.pos) = true → SuffixFree e s.pos) : Fresh e u := by
  cases hkey : isKeyword (e.text.byte s.pos) with
  | false =>
      refine fresh_of_not_midWord ?_
      rw [hpos]
      exact FileText.not_midWord_succ (isKeyword_last_of_char h0 hkey)
  | true =>
      intro _
      rw [hpos, utfcPtr2len_of_isKeyword hkey]
      refine .inr (hfree hkey _ (Nat.lt_succ_self _) fun i hle hlt => ?_)
      rwa [show i = s.pos by omega]

/-- A step that keeps to words leads to a position that is fresh again. -/
theorem fresh_step (h : Fresh e s) (hkeeps : KeepsWords e s) : Fresh e (step e s) := by
  generalize hu : step e s = u
  have hmove : Move e s u := hu ▸ move_step e s
  have hnot (hpc : u.pc = .stop ∨ u.pc = .fault ∨ ∃ idx second, u.pc = .region idx second) :
      Fresh e u := by
    intro hs
    rcases hpc with hpc | hpc | ⟨idx, second, hpc⟩ <;> simp [Searching, hpc] at hs
  cases hmove with
  | halt _ => exact h
  | fault _ hf _ _ => exact hnot (.inr (.inl hf))
  | leave _ _ => exact hnot (.inl rfl)
  | enter hpc _ => exact h.stay (.inl hpc) rfl
  | blank _ hblank =>
      refine fresh_of_not_midWord (FileText.not_midWord_succ ?_)
      rw [Nat.add_sub_cancel, Bool.eq_false_iff]
      intro hkey
      rw [not_isBlank_of_isKeyword hkey] at hblank
      cases hblank
  | keyword n g _ hkey _ => exact fresh_run (s := s) (by rw [← (keywordAt_eq hkey).2]; rfl)
  | loop _ hpc _ => exact h.stay (.inr (.inl hpc)) rfl
  | search hpc _ => exact h.stay (.inr (.inl hpc)) rfl
  | word _ _ _ => exact fresh_run (s := s) rfl
  | noWord idx hpc => exact h.stay (.inr (.inr (.inl ⟨idx, hpc⟩))) rfl
  | next idx _ _ hpc _ _ => exact h.stay (.inr (.inr (.inl ⟨idx, hpc⟩))) rfl
  | takes k n u ht =>
      have hpos := ht.pos_eq
      have hland (hk : k = .item ∨ k = .close) : Fresh e u := by
        refine fresh_of_not_midWord ?_
        rw [hpos]
        exact hkeeps.takes k n u ht hk
      cases ht with
      | item _ _ _ _ _ _ _ _ _ => exact hland (.inl rfl)
      | close _ _ _ _ _ _ _ _ _ _ _ _ _ => exact hland (.inr rfl)
      | start idx pat _ _ _ _ _ _ _ _ _ => exact hnot (.inr (.inr ⟨idx, _, rfl⟩))
      | skip idx second _ _ _ hpc _ _ _ => exact hnot (.inr (.inr ⟨idx, second, hpc⟩))
      | firstEnd idx _ _ _ _ _ _ _ _ _ => exact hnot (.inr (.inr ⟨idx, false, rfl⟩))
  | unclosed _ _ pat _ _ h0 =>
      refine fresh_of_not_midWord (FileText.not_midWord_of_byte ?_)
      show isKeyword (e.text.byte s.pos) = false
      rw [h0]
      rfl
  | cut _ _ _ _ _ _ _ _ => exact hnot (.inl rfl)
  | regionChar idx second _ hpc _ => exact hnot (.inr (.inr ⟨idx, second, hpc⟩))
  | advance hpc hend =>
      exact fresh_advance (s := s) (byte_ne_zero_of_endText hend) rfl (hkeeps.advance hpc)

/-- A keyword at a fresh position is a whole word. -/
theorem Fresh.wholeWord (h : Fresh e s) (hpc : s.pc = .top) {n g : Nat}
    (hkey : e.keywordAt s.pos = some (n, g)) : e.text.WholeWord s.pos n := by
  obtain ⟨hbyte, hn⟩ := keywordAt_eq hkey
  refine ⟨?_, by rw [hn]; exact FileText.run_stop rfl⟩
  rcases h (.inr (.inl hpc)) with hmid | hnone
  · rcases Nat.eq_zero_or_pos s.pos with h0 | hpos
    · exact .inl h0
    · refine .inr (Bool.eq_false_iff.mpr fun hprev => hmid ⟨hpos, hprev, hbyte⟩)
  · rw [hnone] at hkey
    cases hkey

end Scan

/-! ## The whole parse -/

namespace Parse

variable {e : ParseEnv} {s : Parse}

/-- What a step takes does not end inside of a word, nor does the start of a tag. -/
structure KeepsWords (e : ParseEnv) (s : Parse) : Prop where
  scan : ∀ tag, s.pc = .scanning tag → Scan.KeepsWords (e.scanEnv tag) s.scan
  tagStart : ∀ idx tag syn n m, s.pc = .tag idx → e.tags[idx]? = some tag →
    tag.pat.start = some syn → matchRegion e.text s.scan.pos syn none = some ⟨some n, m⟩ →
    ¬e.text.MidWord (s.scan.pos + n)

/-- Inside of `scan_syntax` the position is fresh. -/
def Fresh (e : ParseEnv) (s : Parse) : Prop :=
  ∀ tag, s.pc = .scanning tag → Scan.Fresh (e.scanEnv tag) s.scan

theorem fresh_of_not_scanning (h : ∀ tag, s.pc ≠ .scanning tag) : Fresh e s :=
  fun tag hpc => absurd hpc (h tag)

theorem fresh_init (e : ParseEnv) : Fresh e (init e) := by
  unfold init
  split
  · intro tag _
    refine Scan.fresh_of_not_midWord ?_
    show ¬e.text.MidWord (e.text.run isWhite 0)
    -- The byte before is white space.
    rintro ⟨hpos, hprev, -⟩
    have hwhite := FileText.byte_of_run (t := e.text) (p := isWhite) (i := 0)
      (show e.text.run isWhite 0 - 1 < e.text.run isWhite 0 by omega)
    rw [Nat.zero_add] at hwhite
    have hblank := Scan.not_isBlank_of_isKeyword hprev
    rw [isBlank, hwhite] at hblank
    cases hblank
  · split
    · exact fresh_of_not_scanning (by simp)
    · exact fresh_of_not_scanning (by simp)

theorem fresh_step (h : Fresh e s) (hkeeps : KeepsWords e s) : Fresh e (step e s) := by
  generalize hu : step e s = u
  have hmove : Move e s u := hu ▸ move_step e s
  cases hmove with
  | halt _ => exact h
  | openTag idx tag syn n m hpc htag hsyn hm hend =>
      intro tag' _
      refine Scan.fresh_of_not_midWord ?_
      show ¬e.text.MidWord (s.openTag tag n).scan.pos
      rw [openTag_pos]
      exact hkeeps.tagStart idx tag syn n m hpc htag hsyn hm
  | leaveScan tag _ _ =>
      refine fresh_of_not_scanning fun tag' => ?_
      cases tag <;> simp
  | scan tag hpc _ _ =>
      intro tag' hpc'
      obtain rfl : tag = tag' := by
        have := hpc.symm.trans hpc'
        simpa using this
      exact Scan.fresh_step (h tag hpc) (hkeeps.scan tag hpc)
  | otherChar tag hpc _ => exact fresh_of_not_scanning (by simp [hpc])
  | _ => exact fresh_of_not_scanning (by simp)

/-- The next step records a keyword of `n` bytes. -/
def RecordsKeyword (e : ParseEnv) (s : Parse) (n g : Nat) : Prop :=
  ∃ tag, s.pc = .scanning tag ∧ s.scan.pc = .top ∧
    (e.scanEnv tag).keywordAt s.scan.pos = some (n, g) ∧ g ≠ 0

theorem RecordsKeyword.step_eq {n g : Nat} (h : RecordsKeyword e s n g) :
    step e s = s.on (·.record g n) := by
  obtain ⟨tag, hpc, htop, hkey, hg⟩ := h
  have hword := (Scan.keywordAt_eq hkey).1
  rw [step_scanning hpc (by simp [htop]) (by simp [htop])]
  have hscan : Scan.step (e.scanEnv tag) s.scan = s.scan.record g n := by
    simp [Scan.step, htop, Scan.stepTop, Scan.byte_ne_zero_of_isKeyword hword,
      Scan.not_isBlank_of_isKeyword hword, hkey, hg]
  rw [on, on, hscan]

/-- In a run that keeps to words, every keyword that is recorded is a whole word. -/
theorem keywords_whole (e : ParseEnv)
    (hkeeps : ∀ s, Reaches (step e) (init e) s → KeepsWords e s) :
    ∀ s, Reaches (step e) (init e) s → ∀ n g, RecordsKeyword e s n g →
      e.text.WholeWord s.scan.pos n := by
  rintro s hs n g ⟨tag, hpc, htop, hkey, -⟩
  have hfresh := invariant_along (fresh_init e) (fun t ht h => fresh_step h (hkeeps t ht)) s hs
  exact (hfresh tag hpc).wholeWord htop hkey

/-- A file with a keyword. -/
def keywordFiles : Files := fun conf =>
  if conf = bytes "c" then some (bytes "syn keyword Keyword if\n") else none

def keywordLoader : Loader :=
  (loadConf keywordFiles 1 (bytes "c") .fresh .fresh).getD ⟨false, [], [], .fresh, .fresh⟩

theorem loadConf_keywordFiles :
    loadConf keywordFiles 1 (bytes "c") .fresh .fresh = some keywordLoader := by decide +kernel

/-- What the scanner sees of the file. -/
theorem buf_keywordLoader : keywordLoader.buf = ⟨[], [(bytes "if", 4)], []⟩ := by decide +kernel

/-- A text of ASCII characters, with this file. -/
def keywordEnv (text : FileText) : ParseEnv :=
  ⟨text, keywordLoader.buf, keywordLoader.groups.items⟩

theorem keywordEnv_eq (text : FileText) :
    keywordEnv text = ⟨text, ⟨[], [(bytes "if", 4)], []⟩, keywordLoader.groups.items⟩ := by
  rw [keywordEnv, buf_keywordLoader]

theorem zero_notMem_aIfB : (0 : UInt8) ∉ bytes "a if b" := by decide +kernel

/-- The keyword between two other words. -/
def aIfB : FileText := ⟨bytes "a if b", zero_notMem_aIfB, 0⟩

theorem keyword_among_words :
    loadConf keywordFiles 1 (bytes "c") .fresh .fresh = some keywordLoader ∧
      ∀ s, Reaches (step (keywordEnv aIfB)) (init (keywordEnv aIfB)) s → ∀ n g,
        RecordsKeyword (keywordEnv aIfB) s n g → aIfB.WholeWord s.scan.pos n := by
  -- The keyword stands at one place, behind a blank.
  have hnone : ∀ q < 6, q ≠ 2 →
      (ScanEnv.mk aIfB ⟨[], [(bytes "if", 4)], []⟩ none).keywordAt q = none := by
    decide +kernel
  refine ⟨loadConf_keywordFiles, keywords_whole (keywordEnv aIfB) fun s _ => ?_⟩
  rw [keywordEnv_eq]
  refine ⟨fun tag _ => ⟨fun k n u ht _ => ?_, fun _ _ q hq hword => ?_⟩, ?_⟩
  · cases ht <;> simp_all [ParseEnv.scanEnv]
  · rcases Nat.lt_or_ge q 6 with hlt | hge
    · refine hnone q hlt ?_
      rintro rfl
      have hblank : isKeyword (aIfB.byte 1) = true := hword 1 (by omega) (by omega)
      exact absurd hblank (by decide +kernel)
    · have hend : aIfB.byte q = 0 := List.getD_eq_default _ _ hge
      have hkey : ¬isKeyword (aIfB.byte q) = true := by
        rw [hend]
        decide
      exact if_neg hkey
  · intro idx tag syn n m _ htag
    cases htag

/-- The keyword in a longer word. -/
def xif : FileText := ⟨bytes "xif", by decide +kernel, 0⟩

theorem keyword_in_word :
    loadConf keywordFiles 1 (bytes "c") .fresh .fresh = some keywordLoader ∧
      ¬∀ s, Reaches (step (keywordEnv xif)) (init (keywordEnv xif)) s → ∀ n g,
        RecordsKeyword (keywordEnv xif) s n g → xif.WholeWord s.scan.pos n := by
  refine ⟨loadConf_keywordFiles, fun h => ?_⟩
  rw [keywordEnv_eq] at h
  -- Three steps: enter, find no keyword, go on with the second character.
  have hwhole := h _ ⟨3, rfl⟩ 2 4 ⟨none, by decide +kernel, by decide +kernel, by decide +kernel,
    by decide⟩
  exact absurd hwhole.1 (by decide +kernel)

end Parse

end HapAndroid.Highlight
