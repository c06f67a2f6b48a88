import HapAndroid.Lib.Machine
import HapAndroid.Highlight.Chars
import HapAndroid.Highlight.Parse

/-!
# Progress of the scanner and of `parse_file`

Every loop is left or moves on, except in six places: a keyword of group 0, an empty
match of a `match` item, of a `skip` or of the first `end`, a region that ends where it
starts, and a tag without text whose end is empty.  `Parse.Advances` says of a state that
the next step is none of these.

The rank orders the states at one position.  A region that has moved on ranks above the
head of the loop, and so does the text of a tag: the head may then come at the same
position.
-/

namespace HapAndroid.Highlight

open Machine

/-! ## The scanner -/

namespace Scan

/-- The next step does not come back without moving. -/
structure Advances (e : ScanEnv) (s : Scan) : Prop where
  keyword : ∀ n g, s.pc = .top → e.keywordAt s.pos = some (n, g) → g ≠ 0
  pattern : ∀ k n u, Takes e s k n u → 0 < n ∨ k = .start ∨ (k = .close ∧ s.start < s.cur)

/-- The rank of a state among those at the same position, for `P` patterns. -/
def rank (P : Nat) (s : Scan) : Nat :=
  match s.pc with
  | .enter => 2 * P + 4
  | .top => 2 * P + 3
  | .item idx => 2 * (P - idx) + 2
  | .region idx _ => if s.start < s.cur then 2 * P + 5 else 2 * (P - idx) + 1
  | .advance => 1
  | .stop => 0
  | .fault => 0

theorem rank_lt (P : Nat) (s : Scan) : rank P s < 2 * P + 6 := by
  unfold rank
  split
  case h_4 => split <;> omega
  all_goals omega

variable {e : ScanEnv} {s : Scan}

/-- A step moves on, or changes neither the position nor the offset. -/
theorem forward_step (e : ScanEnv) (s : Scan) : (step e s).pc = .fault ∨
    (s.pos < (step e s).pos ∧ s.cur < (step e s).cur) ∨
      ((step e s).pos = s.pos ∧ (step e s).cur = s.cur) := by
  have hword : isKeyword (e.text.byte s.pos) = true → 0 < e.text.run isKeyword s.pos :=
    fun h => FileText.run_pos h (byte_ne_zero_of_isKeyword h)
  have hbytes : ∀ n, 0 < n → s.pos < (s.bytes n).pos ∧ s.cur < (s.bytes n).cur :=
    fun n hn => ⟨Nat.lt_add_of_pos_right hn, Nat.lt_add_of_pos_right hn⟩
  have hchar : e.text.byte s.pos ≠ 0 →
      s.pos < (s.char e.text).pos ∧ s.cur < (s.char e.text).cur :=
    fun h0 => ⟨Nat.lt_add_of_pos_right (utfcPtr2len_pos h0), Nat.lt_succ_self _⟩
  generalize hu : step e s = u
  have hmove : Move e s u := hu ▸ move_step e s
  cases hmove with
  | fault _ hf _ _ => exact .inl hf
  | blank _ _ => exact .inr (.inl (hbytes 1 Nat.one_pos))
  | keyword n g _ hkey _ =>
      have hpos := hword (keywordAt_eq hkey).1
      rw [← (keywordAt_eq hkey).2] at hpos
      exact .inr (.inl (hbytes n hpos))
  | word _ _ hkey => exact .inr (.inl (hbytes _ (hword hkey)))
  | takes k n u ht =>
      rw [ht.pos_eq, ht.cur_eq]
      omega
  | regionChar _ _ m _ h0 => exact .inr (.inl (hchar h0))
  | advance _ hend => exact .inr (.inl (hchar (byte_ne_zero_of_endText hend)))
  | _ => exact .inr (.inr ⟨rfl, rfl⟩)

/-- A step stays inside the text. -/
theorem pos_le_length_step (h : s.pos ≤ e.text.length) :
    (step e s).pc = .fault ∨ (step e s).pos ≤ e.text.length := by
  generalize hu : step e s = u
  have hmove : Move e s u := hu ▸ move_step e s
  cases hmove with
  | fault _ hf _ _ => exact .inl hf
  | blank _ hblank => exact .inr (FileText.lt_length (byte_ne_zero_of_isBlank hblank))
  | keyword n g _ hkey _ =>
      rw [(keywordAt_eq hkey).2]
      exact .inr (FileText.run_le h)
  | word _ _ _ => exact .inr (FileText.run_le h)
  | takes k n u ht => exact .inr (ht.pos_eq ▸ ht.le h)
  | regionChar _ _ m _ h0 => exact .inr (utfcPtr2len_le h0)
  | advance _ hend => exact .inr (utfcPtr2len_le (byte_ne_zero_of_endText hend))
  | _ => exact .inr h

/-- The scanner stops at the end of the text or of the tag. -/
theorem endText_step (h : s.pc ≠ .stop) (hstop : (step e s).pc = .stop) :
    e.endText (step e s).pos = true := by
  generalize hu : step e s = u at hstop ⊢
  have hmove : Move e s u := hu ▸ move_step e s
  cases hmove with
  | halt _ => exact absurd hstop h
  | fault _ hf _ _ => exact absurd (hstop.symm.trans hf) (by simp)
  | leave _ hend => exact hend
  | blank hpc _ => exact absurd (hpc.symm.trans hstop) (by simp)
  | keyword _ _ hpc _ _ => exact absurd (hpc.symm.trans hstop) (by simp)
  | loop _ hpc _ => exact absurd (hpc.symm.trans hstop) (by simp)
  | search _ _ =>
      simp only [goto_pc] at hstop
      split at hstop <;> cases hstop
  | takes k n u ht => cases ht <;> simp_all
  | cut _ _ _ _ _ _ _ htag => simp [ScanEnv.endText, cutRegion, htag]
  | regionChar _ _ _ hpc _ => exact absurd (hpc.symm.trans hstop) (by simp)
  | _ => cases hstop

/-- A pattern is tried inside the text after the head of the loop or after another
pattern, at the same position. -/
theorem item_of_step {idx : Nat} (hpc : (step e s).pc = .item idx)
    (h0 : e.text.byte (step e s).pos ≠ 0) : (step e s).pos = s.pos ∧
      (s.pc = .top ∨ ∃ idx', s.pc = .item idx' ∧ e.text.byte s.pos ≠ 0) := by
  generalize hu : step e s = u at hpc h0 ⊢
  have hmove : Move e s u := hu ▸ move_step e s
  cases hmove with
  | search htop _ => exact ⟨rfl, .inl htop⟩
  | next idx' _ _ hitem _ h0' => exact ⟨rfl, .inr ⟨idx', hitem, h0'⟩⟩
  | unclosed _ _ _ _ _ hend => exact absurd hend h0
  | halt hend => rcases hend with hend | hend <;> exact absurd (hend.symm.trans hpc) (by simp)
  | fault _ hf _ _ => exact absurd (hf.symm.trans hpc) (by simp)
  | blank htop _ => exact absurd (htop.symm.trans hpc) (by simp)
  | keyword _ _ htop _ _ => exact absurd (htop.symm.trans hpc) (by simp)
  | loop _ htop _ => exact absurd (htop.symm.trans hpc) (by simp)
  | takes k n u ht =>
      cases ht with
      | skip _ _ _ _ _ hreg => exact absurd (hreg.symm.trans hpc) (by simp)
      | _ => cases hpc
  | regionChar _ _ _ hreg _ => exact absurd (hreg.symm.trans hpc) (by simp)
  | _ => cases hpc

/-- The scanner is inside a region after a pattern that starts it, or after a step inside
it, which keeps its start and takes a pattern or a character. -/
theorem region_of_step {idx : Nat} {second : Bool} (hpc : (step e s).pc = .region idx second) :
    (∃ idx', s.pc = .item idx' ∧ e.text.byte s.pos ≠ 0 ∧ (step e s).start = s.cur) ∨
      ((∃ idx' second', s.pc = .region idx' second') ∧ (step e s).start = s.start ∧
        ((∃ k n, (k = .skip ∨ k = .firstEnd) ∧ Takes e s k n (step e s)) ∨
          s.pos < (step e s).pos)) := by
  generalize hu : step e s = u at hpc ⊢
  have hmove : Move e s u := hu ▸ move_step e s
  cases hmove with
  | takes k n u ht =>
      have htakes := ht
      cases ht with
      | start idx' _ _ _ _ hitem _ h0 => exact .inl ⟨idx', hitem, h0, rfl⟩
      | skip idx' second' _ _ _ hreg =>
          exact .inr ⟨⟨idx', second', hreg⟩, rfl, .inl ⟨_, n, .inl rfl, htakes⟩⟩
      | firstEnd idx' _ _ _ _ hreg =>
          exact .inr ⟨⟨idx', true, hreg⟩, rfl, .inl ⟨_, n, .inr rfl, htakes⟩⟩
      | item => cases hpc
      | close => cases hpc
  | regionChar idx' second' m hreg h0 =>
      exact .inr ⟨⟨idx', second', hreg⟩, rfl, .inr (Nat.lt_add_of_pos_right (utfcPtr2len_pos h0))⟩
  | halt hend => rcases hend with hend | hend <;> exact absurd (hend.symm.trans hpc) (by simp)
  | fault _ hf _ _ => exact absurd (hf.symm.trans hpc) (by simp)
  | blank htop _ => exact absurd (htop.symm.trans hpc) (by simp)
  | keyword _ _ htop _ _ => exact absurd (htop.symm.trans hpc) (by simp)
  | loop _ htop _ => exact absurd (htop.symm.trans hpc) (by simp)
  | search _ _ =>
      simp only [goto_pc] at hpc
      split at hpc <;> cases hpc
  | _ => cases hpc

/-- A region starts where the scanner was. -/
theorem start_le_step (h : ∀ idx second, s.pc = .region idx second → s.start ≤ s.cur)
    {idx : Nat} {second : Bool} (hpc : (step e s).pc = .region idx second) :
    (step e s).start ≤ (step e s).cur := by
  have hle : s.cur ≤ (step e s).cur := by
    rcases forward_step e s with hf | ⟨-, hlt⟩ | ⟨-, heq⟩
    · exact absurd (hf.symm.trans hpc) (by simp)
    · exact Nat.le_of_lt hlt
    · exact Nat.le_of_eq heq.symm
  rcases region_of_step hpc with ⟨_, -, -, hstart⟩ | ⟨⟨idx', second', hreg⟩, hstart, -⟩
  · exact hstart ▸ hle
  · exact hstart ▸ Nat.le_trans (h idx' second' hreg) hle

theorem rank_pos {P : Nat} (hstop : s.pc ≠ .stop) (hfault : s.pc ≠ .fault) : 0 < rank P s := by
  unfold rank
  split
  case h_4 => split <;> omega
  case h_6 h => exact absurd h hstop
  case h_7 h => exact absurd h hfault
  all_goals omega

theorem rank_region {P idx : Nat} {second : Bool} (h : s.pc = .region idx second) :
    rank P s = if s.start < s.cur then 2 * P + 5 else 2 * (P - idx) + 1 := by
  rw [rank, h]

/-- An empty match that may be taken leads to a lower rank. -/
theorem rank_takes {k : Taker} {u : Scan} (h : Advances e s) (ht : Takes e s k 0 u) :
    rank e.buf.patterns.length u < rank e.buf.patterns.length s := by
  have hempty := (h.pattern k 0 u ht).resolve_left (Nat.lt_irrefl 0)
  cases ht with
  | start idx pat n m' m hpc _ _ _ _ _ => simp [rank, hpc]
  | close idx pat n m' m os oe hpc _ _ _ _ _ =>
      obtain ⟨-, hlt⟩ := hempty.resolve_left (by simp)
      rw [rank_region hpc, if_pos hlt]
      simp [rank]
  | item => simp at hempty
  | skip => simp at hempty
  | firstEnd => simp at hempty

/-- A step that does not come back moves on or lowers the rank. -/
theorem progress_step (h : Advances e s) (hstop : s.pc ≠ .stop) (hfault : s.pc ≠ .fault) :
    (step e s).pc = .fault ∨
      Progress Scan.pos (rank e.buf.patterns.length) s (step e s) := by
  rcases forward_step e s with hf | hpos | ⟨hpos, hcur⟩
  · exact .inl hf
  · exact .inr (.inl hpos.1)
  -- The position stays: the rank has to fall.
  refine .inr (.inr ⟨hpos, ?_⟩)
  generalize hu : step e s = u at hpos hcur ⊢
  have hmove : Move e s u := hu ▸ move_step e s
  have hidx : ∀ {idx : Nat} {pat : SynPat}, e.buf.patterns[idx]? = some pat →
      idx < e.buf.patterns.length := fun h => (List.getElem?_eq_some_iff.mp h).1
  have hword : isKeyword (e.text.byte s.pos) = true → 0 < e.text.run isKeyword s.pos :=
    fun h => FileText.run_pos h (byte_ne_zero_of_isKeyword h)
  cases hmove with
  | halt hend => exact absurd hend (by simp [hstop, hfault])
  | fault _ hf _ _ =>
      rw [rank, hf]
      exact rank_pos hstop hfault
  | leave _ _ => exact rank_pos hstop hfault
  | enter hpc _ => simp [rank, hpc]
  | blank _ _ => exact absurd hpos (by simp)
  | keyword n g _ hkey _ =>
      have hn := hword (keywordAt_eq hkey).1
      rw [← (keywordAt_eq hkey).2] at hn
      have hpos : s.pos + n = s.pos := hpos
      omega
  | loop n hpc hkey => exact absurd rfl (h.keyword n 0 hpc hkey)
  | search hpc _ => by_cases hnone : e.buf.patterns = [] <;> simp [rank, hpc, hnone]
  | word _ _ hkey =>
      have hn := hword hkey
      have hpos : s.pos + e.text.run isKeyword s.pos = s.pos := hpos
      omega
  | noWord idx hpc => simp [rank, hpc]
  | next idx pat m hpc hpat _ =>
      have := hidx hpat
      simp only [rank, hpc, goto_pc]
      omega
  | takes k n u ht =>
      rw [ht.pos_eq] at hpos
      obtain rfl : n = 0 := by omega
      exact rank_takes h ht
  | unclosed idx second pat hpc hpat _ =>
      have := hidx hpat
      rw [rank_region hpc]
      simp only [rank, goto_pc]
      split <;> omega
  | cut idx second pat m hpc _ _ _ => exact rank_pos hstop hfault
  | regionChar _ _ m _ h0 =>
      have hn := utfcPtr2len_pos h0
      have hpos : s.pos + utfcPtr2len e.text s.pos = s.pos := hpos
      omega
  | advance _ hend =>
      have hn := utfcPtr2len_pos (byte_ne_zero_of_endText hend)
      have hpos : s.pos + utfcPtr2len e.text s.pos = s.pos := hpos
      omega

end Scan

/-! ## Where `parse_file` is -/

namespace Parse

variable {e : ParseEnv} {s : Parse}

/-- Inside of a tag. -/
def InTag (s : Parse) (tag : Tag) : Prop :=
  s.pc = .other tag ∨ s.pc = .scanning (some tag) ∨ s.pc = .after tag

/-- What is known of a state from its place in the program.  Inside of a tag that has not
moved on there is a byte, the one that the loop was entered with. -/
structure Control (e : ParseEnv) (s : Parse) : Prop where
  inside : Inside e s
  started : ∀ tag, s.InTag tag → s.tagStart ≤ s.scan.cur ∧
    (s.tagStart = s.scan.cur → e.text.byte s.scan.pos ≠ 0)
  ended : ∀ tag, s.pc = .after tag → e.text.byte s.scan.pos = 0 ∨ atEnd e s tag = true
  stopped : ∀ tag, s.pc = .scanning tag → s.scan.pc = .stop →
    (e.scanEnv tag).endText s.scan.pos = true
  region : ∀ tag idx second, s.pc = .scanning tag → s.scan.pc = .region idx second →
    s.scan.start ≤ s.scan.cur
  le_length : s.scan.pos ≤ e.text.length

/-- At the head of the loop and at the end nothing else is known. -/
theorem control_outside (hpc : s.pc = .head ∨ s.pc = .done) (hle : s.scan.pos ≤ e.text.length) :
    Control e s := by
  constructor <;> rcases hpc with hpc | hpc <;> simp_all [Inside, InTag]

theorem control_tag {idx : Nat} (hpc : s.pc = .tag idx) (h0 : e.text.byte s.scan.pos ≠ 0) :
    Control e s := by
  have hle := Nat.le_of_lt (FileText.lt_length h0)
  constructor <;> simp_all [Inside, InTag]

theorem control_openTag {n : Nat} {tag : Tag} (h0 : e.text.byte s.scan.pos ≠ 0)
    (hle : s.scan.pos + n ≤ e.text.length) : Control e (s.openTag tag n) := by
  have hstart : s.scan.cur = s.scan.cur + n → e.text.byte (s.scan.pos + n) ≠ 0 := by
    intro h
    obtain rfl : n = 0 := by omega
    exact h0
  constructor
  · unfold openTag
    split <;> simp [Inside, call]
  · intro tag' _
    rw [openTag_tagStart, openTag_cur, openTag_pos]
    exact ⟨Nat.le_add_right _ _, hstart⟩
  · unfold openTag
    split <;> simp [call]
  · unfold openTag
    split <;> simp [call]
  · unfold openTag
    split <;> simp [call]
  · rw [openTag_pos]
    exact hle

/-- The end of a tag is where its scan ends. -/
theorem atEnd_of_endText {tag : Tag} (h : (e.scanEnv (some tag)).endText s.scan.pos = true) :
    e.text.byte s.scan.pos = 0 ∨ atEnd e s tag = true := by
  rcases Bool.or_eq_true_iff.mp h with h | h
  · exact .inl (of_decide_eq_true h)
  · exact .inr h

theorem control_after {tag : Tag} (h : Control e s) (hin : s.InTag tag)
    (hend : e.text.byte s.scan.pos = 0 ∨ atEnd e s tag = true) :
    Control e (s.goto (.after tag)) where
  inside := by simp [Inside]
  started := fun _ _ => h.started tag hin
  ended := by
    intro tag' htag
    cases htag
    exact hend
  stopped := by simp
  region := by simp
  le_length := h.le_length

theorem control_scan {tag : Option Tag} (h : Control e s) (hpc : s.pc = .scanning tag)
    (hstop : s.scan.pc ≠ .stop) : Control e (s.on (Scan.step (e.scanEnv tag))) ∨
      (s.on (Scan.step (e.scanEnv tag))).Faulted := by
  have htext : (e.scanEnv tag).text = e.text := rfl
  rcases Scan.pos_le_length_step (e := e.scanEnv tag) h.le_length with hf | hle
  · exact .inr (.inr ⟨tag, hpc, hf⟩)
  rcases Scan.forward_step (e.scanEnv tag) s.scan with hf | hmoved
  · exact .inr (.inr ⟨tag, hpc, hf⟩)
  refine .inl ⟨by simp [Inside, hpc], ?_, by simp [hpc], ?_, ?_, hle⟩
  · rintro tag' (htag | htag | htag)
    · exact absurd (hpc.symm.trans htag) (by simp)
    · obtain ⟨hstart, hbyte⟩ := h.started tag' (.inr (.inl htag))
      simp only [on_scan, on_tagStart]
      rcases hmoved with ⟨-, hcur⟩ | ⟨hpos, hcur⟩
      · omega
      · rw [hpos, hcur]
        exact ⟨hstart, hbyte⟩
    · exact absurd (hpc.symm.trans htag) (by simp)
  · intro tag' htag hend
    obtain rfl : tag = tag' := by simpa using hpc.symm.trans htag
    exact Scan.endText_step hstop hend
  · intro tag' idx second _ hreg
    exact Scan.start_le_step (h.region tag · · hpc) hreg

theorem control_step (h : Control e s) : Control e (step e s) ∨ (step e s).Faulted := by
  generalize hu : step e s = u
  have hmove : Move e s u := hu ▸ move_step e s
  cases hmove with
  | halt _ => exact .inl h
  | fault => exact .inr (.inl rfl)
  | finish _ _ => exact .inl (control_outside (.inr rfl) h.le_length)
  | look _ h0 => exact .inl (control_tag rfl h0)
  | char idx hpc => exact .inl (control_outside (.inl rfl) (utfcPtr2len_le (h.inside idx hpc)))
  | nextTag idx hpc _ => exact .inl (control_tag rfl (h.inside idx hpc))
  | openTag idx tag syn n m hpc _ _ hm _ =>
      exact .inl (control_openTag (h.inside idx hpc) (matchRegion_le hm h.le_length))
  | leaveOther tag hpc hend => exact .inl (control_after h (.inl hpc) hend)
  | otherChar tag hpc h0 =>
      obtain ⟨hstart, -⟩ := h.started tag (.inl hpc)
      refine .inl ⟨by simp [Inside, hpc], ?_, by simp [hpc], by simp [hpc], by simp [hpc],
        utfcPtr2len_le h0⟩
      intro tag' _
      simp only [on_scan, on_tagStart, Scan.char_cur]
      omega
  | leaveScan tag hpc hstop =>
      cases tag with
      | none => exact .inl (control_outside (.inr rfl) h.le_length)
      | some tag =>
          exact .inl (control_after h (.inr (.inl hpc)) (atEnd_of_endText (h.stopped _ hpc hstop)))
  | scan tag hpc hstop _ => exact control_scan h hpc hstop
  | unended _ _ _ => exact .inl (control_outside (.inl rfl) h.le_length)
  | close tag _ hend =>
      obtain ⟨w, hw, hstart⟩ := (Option.any_eq_true ..).mp hend
      have hle := FileText.le_of_startsWith hstart h.le_length
      refine .inl (control_outside (.inl rfl) ?_)
      simpa [closeTag, hw] using hle
  | pass _ _ _ => exact .inl (control_outside (.inl rfl) h.le_length)

theorem control_init (e : ParseEnv) : Control e (init e) ∨ (init e).Faulted := by
  have hle : e.text.run isWhite 0 ≤ e.text.length := by
    have := FileText.run_le (t := e.text) (p := isWhite) (Nat.zero_le _)
    omega
  unfold init
  dsimp only
  split
  · exact .inl ⟨by simp [Inside, call], by simp [InTag, call], by simp [call], by simp [call],
      by simp [call], hle⟩
  · split
    · exact .inl (control_outside (.inl rfl) hle)
    · exact .inr (.inl rfl)

/-! ## Progress -/

/-- The run is over. -/
def Final (s : Parse) : Prop := s.pc = .done ∨ s.Faulted

theorem final_step (h : s.Final) : (step e s).Final := by
  rcases h with h | h
  · rw [step_halted (.inl h)]
    exact .inl h
  · exact .inr (faulted_step h)

/-- The next step does not come back without moving. -/
structure Advances (e : ParseEnv) (s : Parse) : Prop where
  scan : ∀ tag, s.pc = .scanning tag → Scan.Advances (e.scanEnv tag) s.scan
  tagEnd : ∀ tag w, s.pc = .after tag → tag.pat.end = some w →
    e.text.startsWith s.scan.pos w = true → 0 < w.length ∨ s.tagStart < s.scan.cur

/-- Above the ranks of the scanner. -/
def scanRoom (e : ParseEnv) : Nat := 2 * e.buf.patterns.length + 6

/-- The rank of a state among those at the same position. -/
def rank (e : ParseEnv) (s : Parse) : Nat :=
  match s.pc with
  | .head => e.tags.length + scanRoom e + 3
  | .tag idx => (e.tags.length - idx) + scanRoom e + 2
  | .other _ => if s.tagStart < s.scan.cur then e.tags.length + scanRoom e + 5 else 2
  | .scanning _ =>
      (if s.tagStart < s.scan.cur then e.tags.length + scanRoom e + 5 else 2) +
        s.scan.rank e.buf.patterns.length
  | .after _ => if s.tagStart < s.scan.cur then e.tags.length + scanRoom e + 4 else 1
  | .done => 0
  | .fault => 0

theorem rank_lt (e : ParseEnv) (s : Parse) : rank e s < e.tags.length + 2 * scanRoom e + 6 := by
  have hscan : s.scan.rank e.buf.patterns.length < scanRoom e := Scan.rank_lt _ _
  unfold rank
  split
  all_goals first | omega | (split <;> omega)

/-- The position in the text. -/
def pos (s : Parse) : Nat := s.scan.pos

theorem rank_head (h : s.pc = .head) : rank e s = e.tags.length + scanRoom e + 3 := by
  rw [rank, h]

theorem rank_tag {idx : Nat} (h : s.pc = .tag idx) :
    rank e s = (e.tags.length - idx) + scanRoom e + 2 := by
  rw [rank, h]

theorem rank_after {tag : Tag} (h : s.pc = .after tag) :
    rank e s = if s.tagStart < s.scan.cur then e.tags.length + scanRoom e + 4 else 1 := by
  rw [rank, h]

theorem rank_scanning {tag : Option Tag} (h : s.pc = .scanning tag) :
    rank e s = (if s.tagStart < s.scan.cur then e.tags.length + scanRoom e + 5 else 2) +
      s.scan.rank e.buf.patterns.length := by
  rw [rank, h]

/-- A tag that starts with an empty match ranks below the search for tags. -/
theorem rank_openTag {idx : Nat} (hpc : s.pc = .tag idx) (tag : Tag) :
    rank e (s.openTag tag 0) < rank e s := by
  have hstart : ¬ (s.openTag tag 0).tagStart < (s.openTag tag 0).scan.cur := by simp
  rw [rank_tag hpc]
  rcases hother : isOther tag with _ | _
  · have hopen : s.openTag tag 0 = (s.markTag tag 0).call (some tag) := by simp [openTag, hother]
    have hpc' : (s.openTag tag 0).pc = .scanning (some tag) := by rw [hopen]; rfl
    rw [rank_scanning hpc', if_neg hstart]
    have := Scan.rank_lt e.buf.patterns.length (s.openTag tag 0).scan
    unfold scanRoom
    omega
  · have hopen : s.openTag tag 0 = (s.markTag tag 0).goto (.other tag) := by simp [openTag, hother]
    rw [rank, show (s.openTag tag 0).pc = .other tag by rw [hopen]; rfl]
    simp only [if_neg hstart]
    unfold scanRoom
    omega

/-- Behind its start, a tag that ends ranks above the next pass of the loop. -/
theorem rank_lt_after {u : Parse} {tag : Tag} (hpc : s.pc = .after tag)
    (hlt : s.tagStart < s.scan.cur) (hu : u.pc = .head) : rank e u < rank e s := by
  rw [rank_after hpc, if_pos hlt, rank_head hu]
  omega

/-- At the end of the text the tag has moved on. -/
theorem Control.tagStart_lt {tag : Tag} (hctl : Control e s) (hpc : s.pc = .after tag)
    (h0 : e.text.byte s.scan.pos = 0) : s.tagStart < s.scan.cur := by
  obtain ⟨hle, hbyte⟩ := hctl.started tag (.inr (.inr hpc))
  exact Nat.lt_of_le_of_ne hle fun heq => hbyte heq h0

theorem progress_scan {tag : Option Tag} (h : Scan.Advances (e.scanEnv tag) s.scan)
    (hpc : s.pc = .scanning tag) (hstop : s.scan.pc ≠ .stop) (hfault : s.scan.pc ≠ .fault) :
    (s.on (Scan.step (e.scanEnv tag))).Final ∨
      Progress pos (rank e) s (s.on (Scan.step (e.scanEnv tag))) := by
  rcases Scan.progress_step h hstop hfault with hf | hpos | ⟨hpos, hrank⟩
  · exact .inl (.inr (.inr ⟨tag, hpc, hf⟩))
  · exact .inr (.inl hpos)
  · rcases Scan.forward_step (e.scanEnv tag) s.scan with hf | ⟨hlt, -⟩ | ⟨-, hcur⟩
    · exact .inl (.inr (.inr ⟨tag, hpc, hf⟩))
    · exact .inr (.inl hlt)
    · refine .inr (.inr ⟨hpos, ?_⟩)
      have hnext : (s.on (Scan.step (e.scanEnv tag))).pc = .scanning tag := hpc
      rw [rank_scanning hpc, rank_scanning hnext]
      simp only [on_tagStart, on_scan, hcur]
      exact Nat.add_lt_add_left hrank _

/-- A step that does not come back moves on or lowers the rank. -/
theorem progress_step (hctl : Control e s) (h : Advances e s) (hend : ¬ s.Final) :
    (step e s).Final ∨ Progress pos (rank e) s (step e s) := by
  have hchar : e.text.byte s.scan.pos ≠ 0 → s.scan.pos < (s.scan.char e.text).pos :=
    fun h0 => Nat.lt_add_of_pos_right (utfcPtr2len_pos h0)
  generalize hu : step e s = u
  have hmove : Move e s u := hu ▸ move_step e s
  cases hmove with
  | halt hhalt => exact absurd (hhalt.imp_right .inl) hend
  | fault => exact .inl (.inr (.inl rfl))
  | finish _ _ => exact .inl (.inl rfl)
  | look hpc _ =>
      refine .inr (.inr ⟨rfl, ?_⟩)
      have hnext : rank e (s.goto (.tag 0)) = e.tags.length - 0 + scanRoom e + 2 := rank_tag rfl
      rw [rank_head hpc, hnext]
      omega
  | char idx hpc => exact .inr (.inl (hchar (hctl.inside idx hpc)))
  | nextTag idx hpc hidx =>
      refine .inr (.inr ⟨rfl, ?_⟩)
      have hnext : rank e (s.goto (.tag (idx + 1))) =
          e.tags.length - (idx + 1) + scanRoom e + 2 := rank_tag rfl
      rw [rank_tag hpc, hnext]
      omega
  | openTag idx tag syn n m hpc _ _ _ _ =>
      rcases Nat.eq_zero_or_pos n with rfl | hn
      · exact .inr (.inr ⟨openTag_pos tag 0, rank_openTag hpc tag⟩)
      · refine .inr (.inl ?_)
        rw [pos, pos, openTag_pos]
        omega
  | leaveOther tag hpc _ =>
      refine .inr (.inr ⟨rfl, ?_⟩)
      simp only [rank, hpc, goto_pc, goto_tagStart, goto_scan]
      split <;> omega
  | otherChar _ _ h0 => exact .inr (.inl (hchar h0))
  | leaveScan tag hpc hstop =>
      cases tag with
      | none => exact .inl (.inl rfl)
      | some tag =>
          refine .inr (.inr ⟨rfl, ?_⟩)
          simp only [rank, hpc, goto_pc, goto_tagStart, goto_scan, Option.elim_some]
          split <;> omega
  | scan tag hpc hstop hfault => exact progress_scan (h.scan tag hpc) hpc hstop hfault
  | unended tag hpc h0 =>
      exact .inr (.inr ⟨rfl, rank_lt_after hpc (hctl.tagStart_lt hpc h0) rfl⟩)
  | close tag hpc htag =>
      obtain ⟨w, hw, hstart⟩ := (Option.any_eq_true ..).mp htag
      have hpos : ((s.closeTag tag).goto .head).pos = s.pos + w.length := by
        simp [pos, closeTag, hw]
      rcases Nat.eq_zero_or_pos w.length with hlen | hlen
      · have hlt := (h.tagEnd tag w hpc hw hstart).resolve_left (by omega)
        exact .inr (.inr ⟨by rw [hpos, hlen]; rfl, rank_lt_after hpc hlt rfl⟩)
      · exact .inr (.inl (by rw [hpos]; omega))
  | pass tag hpc htag =>
      have h0 := (hctl.ended tag hpc).resolve_right (by simp [htag])
      exact .inr (.inr ⟨rfl, rank_lt_after hpc (hctl.tagStart_lt hpc h0) rfl⟩)

end Parse

end HapAndroid.Highlight
