import HapAndroid.Lib.Machine
import HapAndroid.Highlight.Chars
import HapAndroid.Highlight.Load
import HapAndroid.Highlight.Parse

/-!
# Offsets as Java indices

`cur_offset` is meant to count the characters of the Java string in front of the
position.  A step by a character counts one, and a blank or a word counts its bytes,
which are ASCII.  The bytes of a matched pattern, of the start of a tag and of its end
are also counted one by one: that is the number of characters only when they are ASCII
(`Parse.synced_iff`).
-/

namespace HapAndroid.Highlight

open ModifiedUtf8 Machine

/-- A record between two boundaries that were passed, up to the correction by one of
the `hg` attributes. -/
def Located (us : List UInt16) (hgs : List (Option Bytes)) (pos : Nat) (i : Item) : Prop :=
  ∃ p q a b hg, p ≤ q ∧ q ≤ pos ∧ Boundary us p a ∧ Boundary us q b ∧ hg ∈ none :: hgs ∧
    Scan.hgAdjust hg a b = some (i.start, i.stop)

theorem Located.mono {us : List UInt16} {hgs : List (Option Bytes)} {pos pos' : Nat} {i : Item}
    (h : Located us hgs pos i) (hle : pos ≤ pos') : Located us hgs pos' i := by
  obtain ⟨p, q, a, b, hg, hpq, hq, rest⟩ := h
  exact ⟨p, q, a, b, hg, hpq, Nat.le_trans hq hle, rest⟩

/-- A record without a correction. -/
theorem Located.plain {us : List UInt16} {hgs : List (Option Bytes)} {p q a b : Nat} (g : Nat)
    (hpq : p ≤ q) (hp : Boundary us p a) (hq : Boundary us q b) : Located us hgs q ⟨g, a, b⟩ :=
  ⟨p, q, a, b, none, hpq, Nat.le_refl q, hp, hq, List.mem_cons_self .., rfl⟩

/-! ## The scanner -/

namespace Scan

/-- The offsets are Java indices: the current one of the position, the others of
positions that were passed. -/
structure Synced (us : List UInt16) (hgs : List (Option Bytes)) (s : Scan) : Prop where
  here : Boundary us s.pos s.cur
  start : ∃ p ≤ s.pos, Boundary us p s.start
  out : ∀ i ∈ s.out, Located us hgs s.pos i

namespace Synced

variable {us : List UInt16} {hgs : List (Option Bytes)} {before : UInt8} {s : Scan}

/-- Move to another boundary. -/
theorem move {u : Scan} (h : s.Synced us hgs) (hpos : s.pos ≤ u.pos)
    (hhere : Boundary us u.pos u.cur) (hstart : u.start = s.start) (hout : u.out = s.out) :
    u.Synced us hgs := by
  refine ⟨hhere, ?_, fun i hi => (h.out i (hout ▸ hi)).mono hpos⟩
  obtain ⟨p, hp, hb⟩ := h.start
  exact ⟨p, Nat.le_trans hp hpos, hstart ▸ hb⟩

theorem bytes_of_boundary {n : Nat} (h : s.Synced us hgs)
    (hb : Boundary us (s.pos + n) (s.cur + n)) : (s.bytes n).Synced us hgs :=
  h.move (Nat.le_add_right _ _) hb rfl rfl

theorem char (h : s.Synced us hgs) (h0 : (javaText us before).byte s.pos ≠ 0) :
    (s.char (javaText us before)).Synced us hgs :=
  h.move (Nat.le_add_right _ _) (utfcPtr2len_boundary h.here h0) rfl rfl

theorem markStart (h : s.Synced us hgs) : s.markStart.Synced us hgs :=
  ⟨h.here, ⟨s.pos, Nat.le_refl _, h.here⟩, h.out⟩

theorem store (h : s.Synced us hgs) (m : Bytes) : (s.store m).Synced us hgs :=
  ⟨h.here, h.start, h.out⟩

theorem goto (h : s.Synced us hgs) (pc : ScanPc) : (s.goto pc).Synced us hgs :=
  ⟨h.here, h.start, h.out⟩

theorem push {g : Nat} {os oe : Int} (h : s.Synced us hgs)
    (hi : Located us hgs s.pos ⟨g, os, oe⟩) : (s.push g os oe).Synced us hgs := by
  refine ⟨h.here, h.start, fun i hmem => ?_⟩
  rcases List.mem_append.mp hmem with hmem | hmem
  · exact h.out i hmem
  · rw [List.mem_singleton.mp hmem]
    exact hi

theorem record {n : Nat} (h : s.Synced us hgs) (g : Nat)
    (hb : Boundary us (s.pos + n) (s.cur + n)) : (s.record g n).Synced us hgs :=
  (h.markStart.bytes_of_boundary hb).push (.plain g (Nat.le_add_right _ _) h.here hb)

theorem cutRegion (h : s.Synced us hgs) (pat : SynPat) : (s.cutRegion pat).Synced us hgs := by
  obtain ⟨p, hp, hb⟩ := h.start
  exact h.push (.plain pat.fromId hp hb h.here)

theorem takes {e : ScanEnv} {k : Taker} {n : Nat} {u : Scan} (h : s.Synced us hgs)
    (hhgs : ∀ pat ∈ e.buf.patterns, pat.hg ∈ hgs) (ht : Takes e s k n u)
    (hb : Boundary us (s.pos + n) (s.cur + n)) : u.Synced us hgs := by
  cases ht with
  | item idx pat n m _ _ _ _ _ => exact ((h.store m).record pat.fromId hb).goto _
  | start idx pat n m' m _ _ _ _ _ _ => exact ((h.store m).markStart.bytes_of_boundary hb).goto _
  | skip idx second pat n m _ _ _ _ => exact (h.store m).bytes_of_boundary hb
  | firstEnd idx pat n m' m _ _ _ _ _ => exact ((h.store m).bytes_of_boundary hb).goto _
  | close idx pat n m' m os oe _ hpat _ _ _ hadj =>
      obtain ⟨p, hp, hstart⟩ := h.start
      have hmem : pat.hg ∈ none :: hgs :=
        List.mem_cons_of_mem _ (hhgs pat (List.mem_of_getElem? hpat))
      refine (((h.store m).bytes_of_boundary hb).push ?_).goto _
      exact ⟨p, s.pos + n, s.start, s.cur + n, pat.hg, Nat.le_trans hp (Nat.le_add_right _ _),
        Nat.le_refl _, hstart, hb, hmem, hadj⟩

end Synced

variable {us : List UInt16} {hgs : List (Option Bytes)} {before : UInt8} {e : ScanEnv} {s : Scan}

/-- A step keeps the offsets when the match it takes is ASCII. -/
theorem synced_step (htext : e.text = javaText us before)
    (hhgs : ∀ pat ∈ e.buf.patterns, pat.hg ∈ hgs) (h : s.Synced us hgs)
    (hascii : ∀ k n u, Takes e s k n u → e.text.Ascii s.pos n) :
    (step e s).Synced us hgs ∨ (step e s).pc = .fault := by
  have hle : s.pos ≤ e.text.length := htext ▸ h.here.le_length
  have hbound : ∀ n, s.pos + n ≤ e.text.length → e.text.Ascii s.pos n →
      Boundary us (s.pos + n) (s.cur + n) := by
    rw [htext]
    exact fun n => h.here.ascii
  have hword : Boundary us (s.pos + e.text.run isKeyword s.pos)
      (s.cur + e.text.run isKeyword s.pos) :=
    hbound _ (FileText.run_le hle) (FileText.ascii_run fun _ => isKeyword_ascii)
  have hchar : e.text.byte s.pos ≠ 0 → (s.char e.text).Synced us hgs := by
    rw [htext]
    exact h.char
  generalize hu : step e s = u
  have hmove : Move e s u := hu ▸ move_step e s
  cases hmove with
  | fault _ hf _ _ => exact .inr hf
  | halt _ => exact .inl h
  | leave _ _ => exact .inl (h.goto _)
  | enter _ _ => exact .inl ((h.store _).goto _)
  | blank _ hblank =>
      have h1 := hbound 1 (FileText.lt_length (byte_ne_zero_of_isBlank hblank))
        (FileText.ascii_one (isBlank_ascii hblank))
      exact .inl (h.bytes_of_boundary h1)
  | keyword n g _ hkey _ =>
      rw [(keywordAt_eq hkey).2]
      exact .inl (h.record g hword)
  | loop _ _ _ => exact .inl h.markStart
  | search _ _ => exact .inl (h.markStart.goto _)
  | word _ _ _ => exact .inl ((h.bytes_of_boundary hword).goto _)
  | noWord _ _ => exact .inl (h.goto _)
  | next _ _ m _ _ _ => exact .inl ((h.store m).goto _)
  | takes k n u ht => exact .inl (h.takes hhgs ht (hbound n (ht.le hle) (hascii k n u ht)))
  | unclosed _ _ pat _ _ _ => exact .inl ((h.cutRegion pat).goto _)
  | cut _ _ pat m _ _ _ _ => exact .inl (((h.store m).cutRegion pat).goto _)
  | regionChar _ _ m _ h0 => exact .inl ((hchar h0).store m)
  | advance _ hend => exact .inl ((hchar (byte_ne_zero_of_endText hend)).goto _)

end Scan

/-! ## The whole parse -/

namespace Parse

/-- The offsets are Java indices. -/
structure Synced (us : List UInt16) (hgs : List (Option Bytes)) (s : Parse) : Prop where
  scan : s.scan.Synced us hgs
  tagStart : ∃ p ≤ s.scan.pos, Boundary us p s.tagStart

/-- What the next step takes as a pattern, as the start of a tag or as its end is
ASCII. -/
structure TakesAscii (e : ParseEnv) (s : Parse) : Prop where
  pattern : ∀ tag k n u, s.pc = .scanning tag → Scan.Takes (e.scanEnv tag) s.scan k n u →
    e.text.Ascii s.scan.pos n
  tagStart : ∀ idx tag syn n m, s.pc = .tag idx → e.tags[idx]? = some tag →
    tag.pat.start = some syn → matchRegion e.text s.scan.pos syn none = some ⟨some n, m⟩ →
    tag.pat.end ≠ none → e.text.Ascii s.scan.pos n
  tagEnd : ∀ tag w, s.pc = .after tag → tag.pat.end = some w →
    e.text.startsWith s.scan.pos w = true → e.text.Ascii s.scan.pos w.length

variable {us : List UInt16} {hgs : List (Option Bytes)} {before : UInt8} {e : ParseEnv} {s : Parse}

namespace Synced

theorem goto (h : s.Synced us hgs) (pc : ParsePc) : (s.goto pc).Synced us hgs :=
  ⟨h.scan, h.tagStart⟩

/-- The scanner moves on. -/
theorem on {f : Scan → Scan} (h : s.Synced us hgs) (hf : (f s.scan).Synced us hgs)
    (hpos : s.scan.pos ≤ (f s.scan).pos) : (s.on f).Synced us hgs := by
  obtain ⟨p, hp, hb⟩ := h.tagStart
  exact ⟨hf, p, Nat.le_trans hp hpos, hb⟩

theorem markTag {n : Nat} (h : s.Synced us hgs) (tag : Tag)
    (hb : Boundary us (s.scan.pos + n) (s.scan.cur + n)) : (s.markTag tag n).Synced us hgs := by
  have hmoved := h.scan.bytes_of_boundary hb
  have hpos : s.scan.pos ≤ s.scan.pos + n := Nat.le_add_right _ _
  refine ⟨?_, s.scan.pos, by rw [markTag_pos]; exact hpos, by rw [markTag_tagStart]; exact h.scan.here⟩
  unfold Parse.markTag
  split
  · exact hmoved.push (.plain tag.toId hpos h.scan.here hb)
  · exact hmoved

theorem openTag {n : Nat} (h : s.Synced us hgs) (tag : Tag)
    (hb : Boundary us (s.scan.pos + n) (s.scan.cur + n)) : (s.openTag tag n).Synced us hgs := by
  have hmark := h.markTag tag hb
  unfold Parse.openTag
  split
  · exact hmark.goto _
  · exact ⟨hmark.scan.goto _, hmark.tagStart⟩

theorem closeTag {w : Bytes} (h : s.Synced us hgs) {tag : Tag} (hw : tag.pat.end = some w)
    (hb : Boundary us (s.scan.pos + w.length) (s.scan.cur + w.length)) :
    (s.closeTag tag).Synced us hgs := by
  -- The record starts here, or where the tag starts.
  have hstart : ∃ p ≤ s.scan.pos,
      Boundary us p (if tag.toId = groupTagId then s.scan.cur else s.tagStart) := by
    split
    · exact ⟨s.scan.pos, Nat.le_refl _, h.scan.here⟩
    · exact h.tagStart
  obtain ⟨p, hp, hpb⟩ := hstart
  have hpos : s.scan.pos ≤ s.scan.pos + w.length := Nat.le_add_right _ _
  have hmoved := (h.scan.bytes_of_boundary hb).push
    (Located.plain tag.toId (Nat.le_trans hp hpos) hpb hb)
  obtain ⟨q, hq, hqb⟩ := h.tagStart
  unfold Parse.closeTag
  rw [hw]
  exact ⟨⟨hmoved.here, hmoved.start, hmoved.out⟩, q, Nat.le_trans hq hpos, hqb⟩

end Synced

/-- A step keeps the offsets when what it takes is ASCII. -/
theorem synced_step (htext : e.text = javaText us before)
    (hhgs : ∀ pat ∈ e.buf.patterns, pat.hg ∈ hgs) (h : s.Synced us hgs) (hin : Inside e s)
    (hascii : TakesAscii e s) : (step e s).Synced us hgs ∨ (step e s).Faulted := by
  have hle : s.scan.pos ≤ e.text.length := htext ▸ h.scan.here.le_length
  have hbound : ∀ n, s.scan.pos + n ≤ e.text.length → e.text.Ascii s.scan.pos n →
      Boundary us (s.scan.pos + n) (s.scan.cur + n) := by
    rw [htext]
    exact fun n => h.scan.here.ascii
  have hchar : e.text.byte s.scan.pos ≠ 0 → (s.on (·.char e.text)).Synced us hgs := by
    rw [htext]
    exact fun h0 => h.on (h.scan.char h0) (Nat.le_add_right _ _)
  generalize hu : step e s = u
  have hmove : Move e s u := hu ▸ move_step e s
  cases hmove with
  | halt _ => exact .inl h
  | fault => exact .inr (.inl rfl)
  | finish _ _ => exact .inl (h.goto _)
  | look _ _ => exact .inl (h.goto _)
  | char idx hpc => exact .inl ((hchar (hin idx hpc)).goto _)
  | nextTag _ _ _ => exact .inl (h.goto _)
  | openTag idx tag syn n m hpc htag hsyn hm hend =>
      have hn := hbound n (matchRegion_le hm hle) (hascii.tagStart idx tag syn n m hpc htag hsyn hm hend)
      exact .inl (h.openTag tag hn)
  | leaveOther _ _ _ => exact .inl (h.goto _)
  | otherChar _ _ h0 => exact .inl (hchar h0)
  | leaveScan _ _ _ => exact .inl (h.goto _)
  | scan tag hpc _ _ =>
      have hstep := Scan.synced_step (e := e.scanEnv tag) htext hhgs h.scan
        fun k n u ht => hascii.pattern tag k n u hpc ht
      rcases hstep with hs | hf
      · exact .inl (h.on hs (Scan.pos_le_step _ _))
      · exact .inr (.inr ⟨tag, hpc, hf⟩)
  | unended tag _ _ =>
      obtain ⟨p, hp, hb⟩ := h.tagStart
      have hpush := h.scan.push (.plain tag.toId hp hb h.scan.here)
      exact .inl ⟨hpush, h.tagStart⟩
  | close tag hpc hend =>
      obtain ⟨w, hw, hstart⟩ := (Option.any_eq_true ..).mp hend
      have hn := hbound w.length (FileText.le_of_startsWith hstart hle)
        (hascii.tagEnd tag w hpc hw hstart)
      exact .inl ((h.closeTag hw hn).goto _)
  | pass _ _ _ => exact .inl (h.goto _)

/-- What `parse_file` reads for a Java string. -/
def javaEnv (us : List UInt16) (before : UInt8) (buf : Buf) (groups : List HlGroup) : ParseEnv :=
  ⟨javaText us before, buf, groups⟩

variable {buf : Buf} {groups : List HlGroup}

theorem synced_init (us : List UInt16) (before : UInt8) (buf : Buf) (groups : List HlGroup) :
    (init (javaEnv us before buf groups)).Synced us hgs := by
  have hwhite : Boundary us ((javaText us before).run isWhite 0)
      ((javaText us before).run isWhite 0) := by
    have hle : 0 + (javaText us before).run isWhite 0 ≤ (javaText us before).length :=
      FileText.run_le (Nat.zero_le _)
    have hascii : (javaText us before).Ascii 0 ((javaText us before).run isWhite 0) :=
      FileText.ascii_run fun _ => isWhite_ascii
    have h := (boundary_zero us).ascii hle hascii
    rwa [Nat.zero_add] at h
  have hscan : ∀ pc, Scan.Synced us hgs ⟨pc, (javaText us before).run isWhite 0,
      (javaText us before).run isWhite 0, 0, [], []⟩ := fun pc =>
    ⟨hwhite, ⟨0, Nat.zero_le _, boundary_zero us⟩, by simp⟩
  have htag : ∃ p ≤ (javaText us before).run isWhite 0, Boundary us p 0 :=
    ⟨0, Nat.zero_le _, boundary_zero us⟩
  unfold init
  split
  · exact ⟨hscan .enter, htag⟩
  · split
    · exact ⟨hscan .enter, htag⟩
    · exact ⟨hscan .enter, htag⟩

/-- What is taken between two states with Java indices is ASCII. -/
theorem takesAscii_of_synced {e : ParseEnv} (htext : e.text = javaText us before)
    (hs : ¬ s.Faulted → s.Synced us hgs)
    (hnext : ¬ (step e s).Faulted → (step e s).Synced us hgs) : TakesAscii e s := by
  -- Both states count the same number of bytes and of characters.
  have hascii : ∀ n, ¬ s.Faulted → ¬ (step e s).Faulted →
      (step e s).scan.pos = s.scan.pos + n → (step e s).scan.cur = s.scan.cur + n →
      e.text.Ascii s.scan.pos n := by
    intro n hf hf' hpos hcur
    have hb := (hnext hf').scan.here
    rw [hpos, hcur] at hb
    rw [htext]
    exact (hs hf).scan.here.ascii_of_add hb
  refine ⟨?_, ?_, ?_⟩
  · intro tag k n u hpc ht
    obtain ⟨hstop, hfault, hu⟩ := ht.pc_ne
    have hstep : step e s = s.on (Scan.step (e.scanEnv tag)) := step_scanning hpc hstop hfault
    have hscan : (step e s).scan = u := by
      rw [hstep]
      exact ht.step_eq
    refine hascii n ?_ ?_ (hscan ▸ ht.pos_eq) (hscan ▸ ht.cur_eq)
    · rintro (h | ⟨_, -, h⟩)
      · exact absurd (hpc.symm.trans h) (by simp)
      · exact hfault h
    · rintro (h | ⟨_, -, h⟩)
      · rw [hstep] at h
        exact absurd (hpc.symm.trans h) (by simp)
      · exact hu (hscan ▸ h)
  · intro idx tag syn n m hpc htag hsyn hm hend
    have hstep : step e s = s.openTag tag n := step_openTag hpc htag hsyn hm hend
    refine hascii n ?_ ?_ (by rw [hstep, openTag_pos]) (by rw [hstep, openTag_cur])
    · rintro (h | ⟨_, h, -⟩) <;> exact absurd (hpc.symm.trans h) (by simp)
    · rw [hstep]
      unfold openTag
      split
      · simp [Faulted]
      · simp [Faulted, call]
  · intro tag w hpc hw hstart
    by_cases h0 : e.text.byte s.scan.pos = 0
    · exact FileText.ascii_end h0
    · have hend : atEnd e s tag = true := by simpa [atEnd, hw] using hstart
      have hstep := step_closeTag hpc h0 hend
      have hn : (tag.pat.end.getD []).length = w.length := by rw [hw]; rfl
      refine hascii w.length ?_ ?_ ?_ ?_
      · rintro (h | ⟨_, h, -⟩) <;> exact absurd (hpc.symm.trans h) (by simp)
      · rw [hstep]
        simp [Faulted]
      · rw [hstep, ← hn]
        rfl
      · rw [hstep, ← hn]
        rfl

/-- `cur_offset` is the Java index of the position in every state, and so are the
offsets that are recorded from it, exactly when every pattern, tag start and tag end
that is taken on the way is ASCII. -/
theorem synced_iff (us : List UInt16) (before : UInt8) (buf : Buf) (groups : List HlGroup) :
    (∀ s, Reaches (step (javaEnv us before buf groups)) (init (javaEnv us before buf groups)) s →
        ¬ s.Faulted → s.Synced us (buf.patterns.map (·.hg))) ↔
      ∀ s, Reaches (step (javaEnv us before buf groups)) (init (javaEnv us before buf groups)) s →
        TakesAscii (javaEnv us before buf groups) s := by
  constructor
  · intro h s hs
    exact takesAscii_of_synced rfl (h s hs) (h _ hs.step)
  · intro h s hs hf
    let I (s : Parse) : Prop := Inside (javaEnv us before buf groups) s ∧
      (s.Synced us (buf.patterns.map (·.hg)) ∨ s.Faulted)
    have hinit : I (init (javaEnv us before buf groups)) :=
      ⟨inside_init _, .inl (synced_init us before buf groups)⟩
    have hstep : ∀ s, Reaches (step (javaEnv us before buf groups))
        (init (javaEnv us before buf groups)) s → I s →
        I (step (javaEnv us before buf groups) s) := by
      rintro s hs ⟨hin, hsync | hf⟩
      · have hhgs : ∀ pat ∈ buf.patterns, pat.hg ∈ buf.patterns.map (·.hg) :=
          fun pat hp => List.mem_map_of_mem hp
        exact ⟨inside_step hin, synced_step rfl hhgs hsync hin (h s hs)⟩
      · exact ⟨inside_step hin, .inr (faulted_step hf)⟩
    exact (invariant_along hinit hstep s hs).2.resolve_right hf

/-- A file with one command, a match of the letter `é`. -/
def accentFiles : Files := fun conf =>
  if conf = bytes "c" then
    some (bytes "syn match String \"" ++ [0xC3, 0xA9] ++ bytes "\"\n")
  else none

/-- What the loader makes of it. -/
def accentLoader : Loader :=
  (loadConf accentFiles 1 (bytes "c") .fresh .fresh).getD ⟨false, [], [], .fresh, .fresh⟩

/-- The text `éx`, with this configuration. -/
def accentEnv : ParseEnv :=
  javaEnv [0xE9, 0x78] 0 accentLoader.buf accentLoader.groups.items

/-- The match of `é` counts two characters. -/
theorem accent_not_synced :
    loadConf accentFiles 1 (bytes "c") .fresh .fresh = some accentLoader ∧
      ¬ ∀ s, Reaches (step accentEnv) (init accentEnv) s → ¬ s.Faulted →
        s.Synced [0xE9, 0x78] (accentLoader.buf.patterns.map (·.hg)) := by
  refine ⟨by decide +kernel, fun h => ?_⟩
  -- Three steps: enter, find no keyword, take the match.
  have hpc : ((step accentEnv)^[3] (init accentEnv)).pc = .scanning none ∧
      ((step accentEnv)^[3] (init accentEnv)).scan.pc = .top := by decide +kernel
  have hcur : ((step accentEnv)^[3] (init accentEnv)).scan.pos = 2 ∧
      ((step accentEnv)^[3] (init accentEnv)).scan.cur = 2 := by decide +kernel
  have hf : ¬ ((step accentEnv)^[3] (init accentEnv)).Faulted := by
    rintro (hf | ⟨_, -, hf⟩)
    · exact absurd (hpc.1.symm.trans hf) (by simp)
    · exact absurd (hpc.2.symm.trans hf) (by simp)
  have hb := (h _ ⟨3, rfl⟩ hf).scan.here
  rw [hcur.1, hcur.2] at hb
  exact absurd hb.2 (by decide)

end Parse

end HapAndroid.Highlight
