import HapAndroid.Highlight.Match

/-!
# `scan_syntax`

The scanner as a machine.  Its program counter stands at one of the places the
source jumps to: the head of the loop (`LABEL_START_WHILE`), the loop over the
pattern items, the loop that looks for the end of a region, and the step to the next
character.  One step is one pass of such a loop.

The position in the text and the offset that is reported move together in two ways
only: by bytes (`Scan.bytes`), when a match of that length was found, and by one
character (`Scan.char`).  `fault` is a run that leaves the memory it has.
-/

namespace HapAndroid.Highlight

/-! ## What the loader has made -/

/-- A `syn_pattern`: a region or a match. -/
structure SynPat where
  start : Option Bytes
  skip : Option Bytes
  «end» : Option Bytes
  end2 : Option Bytes
  tag : Option Bytes
  «match» : Option Bytes
  hg : Option Bytes
  fromId : Nat
deriving DecidableEq

/-- The keywords of a table with their groups, the newest first. -/
abbrev KeywordTable := List (Bytes × Nat)

def KeywordTable.find (kt : KeywordTable) (w : Bytes) : Option Nat :=
  (List.find? (fun e => e.1 = w) kt).map (·.2)

/-- What the scanner reads of the buffer, without the two offsets. -/
structure Buf where
  keywtab : KeywordTable
  keywtabIc : KeywordTable
  patterns : List SynPat
deriving DecidableEq

/-- `MAXKEYWLEN`. -/
def maxKeywLen : Nat := 80

/-- The word at a position and its group, when it is a keyword: first as it is, then
ignoring case. -/
def Buf.checkKeywordId (b : Buf) (t : FileText) (pos : Nat) : Option (Nat × Nat) :=
  let n := t.run isKeyword pos
  let word := (t.rest pos).take n
  if n ≤ maxKeywLen then
    ((b.keywtab.find word).or (b.keywtabIc.find (word.map toLower))).map fun g => (n, g)
  else none

/-! ## The machine -/

/-- A recorded match. -/
structure Item where
  group : Nat
  start : Int
  stop : Int
deriving DecidableEq

inductive ScanPc where
  /-- Before the first test. -/
  | enter
  /-- The head of the loop. -/
  | top
  /-- The loop over the items. -/
  | item (idx : Nat)
  /-- The loop to the end of a region; whether its `end2` is still to come. -/
  | region (idx : Nat) (second : Bool)
  /-- The step to the next character. -/
  | advance
  | stop
  | fault
deriving DecidableEq

structure Scan where
  pc : ScanPc
  pos : Nat
  /-- `cur_offset`. -/
  cur : Nat
  /-- `start_offset`. -/
  start : Nat
  /-- The word stored by `\z`. -/
  mem : Bytes
  out : List Item
deriving DecidableEq

/-- What the scanner reads. -/
structure ScanEnv where
  text : FileText
  buf : Buf
  tagEnd : Option Bytes

namespace ScanEnv

/-- `end_text`. -/
def endText (e : ScanEnv) (pos : Nat) : Bool :=
  e.text.byte pos = 0 || e.tagEnd.any (e.text.startsWith pos)

/-- The keyword at a position. -/
def keywordAt (e : ScanEnv) (pos : Nat) : Option (Nat × Nat) :=
  if isKeyword (e.text.byte pos) then e.buf.checkKeywordId e.text pos else none

/-- Try a pattern that may be absent, with the stored word: the length of a match, and
the word that is stored now. -/
def tryMatch (e : ScanEnv) (pos : Nat) (mem : Bytes) : Option Bytes → Option (Option Nat × Bytes)
  | none => some (none, mem)
  | some syn => (matchRegion e.text pos syn (some mem)).map fun r => (r.len, r.mem.getD [])

end ScanEnv

namespace Scan

@[simps] def goto (s : Scan) (pc : ScanPc) : Scan := { s with pc }

/-- Move by bytes, each counted. -/
@[simps] def bytes (s : Scan) (n : Nat) : Scan := { s with pos := s.pos + n, cur := s.cur + n }

/-- Move by a character, counted once. -/
@[simps] def char (s : Scan) (t : FileText) : Scan :=
  { s with pos := s.pos + utfcPtr2len t s.pos, cur := s.cur + 1 }

/-- `add_match_result`. -/
@[simps] def push (s : Scan) (group : Nat) (start stop : Int) : Scan :=
  { s with out := s.out ++ [⟨group, start, stop⟩] }

@[simps] def markStart (s : Scan) : Scan := { s with start := s.cur }

@[simps] def store (s : Scan) (mem : Bytes) : Scan := { s with mem }

/-- A match of `n` bytes from here is recorded. -/
def record (s : Scan) (group n : Nat) : Scan :=
  (s.markStart.bytes n).push group s.cur (s.cur + n : Nat)

/-- One pass of the loop. -/
def stepTop (e : ScanEnv) (s : Scan) : Scan :=
  if e.text.byte s.pos = 0 then s.goto .stop
  else if isBlank (e.text.byte s.pos) then s.bytes 1
  else
    match e.keywordAt s.pos with
    | some (n, g) => if g ≠ 0 then s.record g n else s.markStart
    | none => s.markStart.goto (if e.buf.patterns = [] then .advance else .item 0)

/-- After the items: a word is skipped as a whole. -/
def stepWord (e : ScanEnv) (s : Scan) : Scan :=
  if isKeyword (e.text.byte s.pos) then (s.bytes (e.text.run isKeyword s.pos)).goto .top
  else s.goto .advance

/-- A tag that is no `exinc_end`. -/
def skipsItem (pat : SynPat) : Bool := pat.tag.any (· ≠ Highlight.bytes "exinc_end")

/-- One item: its match, then its start. -/
def stepItem (e : ScanEnv) (s : Scan) (idx : Nat) : Scan :=
  match e.buf.patterns[idx]? with
  | none => stepWord e s
  | some pat =>
      if e.text.byte s.pos = 0 then stepWord e s
      else if skipsItem pat then s.goto (.item (idx + 1))
      else
        match e.tryMatch s.pos s.mem pat.match with
        | none => s.goto .fault
        | some (some n, m) => ((s.store m).record pat.fromId n).goto .top
        | some (none, m) =>
            match e.tryMatch s.pos m pat.start with
            | none => s.goto .fault
            | some (some n, m) =>
                ((s.store m).markStart.bytes n).goto (.region idx pat.end2.isSome)
            | some (none, m) => (s.store m).goto (.item (idx + 1))

/-- The correction of the two offsets by `hg`; `none` reads behind a text of one
byte. -/
def hgAdjust (hg : Option Bytes) (os oe : Int) : Option (Int × Int) :=
  match hg with
  | none => some (os, oe)
  | some h =>
      if h.getD 0 0 = 's'.toUInt8 ∨ h.getD 0 0 = 'e'.toUInt8 then
        if h.length < 2 then none
        else
          let off : Int := (h.getD 2 0).toNat - 48
          let d : Int := if h.getD 1 0 = '+'.toUInt8 then off else -off
          if h.getD 0 0 = 's'.toUInt8 then some (os + d, oe) else some (os, oe + d)
      else some (os, oe)

/-- The end of a region has been found. -/
def closeRegion (s : Scan) (pat : SynPat) : Scan :=
  match hgAdjust pat.hg s.start s.cur with
  | none => s.goto .fault
  | some (os, oe) => (s.push pat.fromId os oe).goto .top

/-- The region so far is recorded. -/
def cutRegion (s : Scan) (pat : SynPat) : Scan := s.push pat.fromId s.start s.cur

/-- One pass of the loop to the end of a region. -/
def stepRegion (e : ScanEnv) (s : Scan) (idx : Nat) (second : Bool) : Scan :=
  match e.buf.patterns[idx]? with
  | none => s.goto .fault
  | some pat =>
      if e.text.byte s.pos = 0 then (s.cutRegion pat).goto (.item (idx + 1))
      else
        match e.tryMatch s.pos s.mem pat.skip with
        | none => s.goto .fault
        | some (some n, m) => (s.store m).bytes n
        | some (none, m) =>
            if pat.end = none then s.goto .fault
            else
              match e.tryMatch s.pos m pat.end with
              | none => s.goto .fault
              | some (some n, m) =>
                  if second then ((s.store m).bytes n).goto (.region idx false)
                  else closeRegion ((s.store m).bytes n) pat
              | some (none, m) =>
                  if e.tagEnd.any (e.text.startsWith s.pos) then
                    ((s.store m).cutRegion pat).goto .stop
                  else (s.store m).char e.text

def step (e : ScanEnv) (s : Scan) : Scan :=
  match s.pc with
  | .enter => if e.endText s.pos then s.goto .stop else (s.store []).goto .top
  | .top => stepTop e s
  | .item idx => stepItem e s idx
  | .region idx second => stepRegion e s idx second
  | .advance => if e.endText s.pos then s.goto .stop else (s.char e.text).goto .top
  | .stop => s
  | .fault => s

/-! ## What a step can do -/

/-- The places that take the bytes of a matched pattern. -/
inductive Taker where
  | item | start | skip | firstEnd | close
deriving DecidableEq

/-- A step takes the bytes of a matched pattern: where, how many, and the state after
it. -/
inductive Takes (e : ScanEnv) (s : Scan) : Taker → Nat → Scan → Prop
  | item (idx : Nat) (pat : SynPat) (n : Nat) (m : Bytes) : s.pc = .item idx →
      e.buf.patterns[idx]? = some pat → e.text.byte s.pos ≠ 0 → skipsItem pat = false →
      e.tryMatch s.pos s.mem pat.match = some (some n, m) →
      Takes e s .item n (((s.store m).record pat.fromId n).goto .top)
  | start (idx : Nat) (pat : SynPat) (n : Nat) (m' m : Bytes) : s.pc = .item idx →
      e.buf.patterns[idx]? = some pat → e.text.byte s.pos ≠ 0 → skipsItem pat = false →
      e.tryMatch s.pos s.mem pat.match = some (none, m') →
      e.tryMatch s.pos m' pat.start = some (some n, m) →
      Takes e s .start n (((s.store m).markStart.bytes n).goto (.region idx pat.end2.isSome))
  | skip (idx : Nat) (second : Bool) (pat : SynPat) (n : Nat) (m : Bytes) :
      s.pc = .region idx second → e.buf.patterns[idx]? = some pat → e.text.byte s.pos ≠ 0 →
      e.tryMatch s.pos s.mem pat.skip = some (some n, m) →
      Takes e s .skip n ((s.store m).bytes n)
  | firstEnd (idx : Nat) (pat : SynPat) (n : Nat) (m' m : Bytes) : s.pc = .region idx true →
      e.buf.patterns[idx]? = some pat → e.text.byte s.pos ≠ 0 →
      e.tryMatch s.pos s.mem pat.skip = some (none, m') →
      e.tryMatch s.pos m' pat.end = some (some n, m) →
      Takes e s .firstEnd n (((s.store m).bytes n).goto (.region idx false))
  | close (idx : Nat) (pat : SynPat) (n : Nat) (m' m : Bytes) (os oe : Int) :
      s.pc = .region idx false → e.buf.patterns[idx]? = some pat → e.text.byte s.pos ≠ 0 →
      e.tryMatch s.pos s.mem pat.skip = some (none, m') →
      e.tryMatch s.pos m' pat.end = some (some n, m) →
      hgAdjust pat.hg s.start (s.cur + n : Nat) = some (os, oe) →
      Takes e s .close n ((((s.store m).bytes n).push pat.fromId os oe).goto .top)

/-- The moves of the scanner, with what is known when they are made.  A fault keeps
the records and does not go back. -/
inductive Move (e : ScanEnv) (s : Scan) : Scan → Prop
  | halt : s.pc = .stop ∨ s.pc = .fault → Move e s s
  | fault (u : Scan) : u.pc = .fault → u.out = s.out → s.pos ≤ u.pos → Move e s u
  | leave : s.pc = .enter ∨ s.pc = .top ∨ s.pc = .advance → e.endText s.pos = true →
      Move e s (s.goto .stop)
  | enter : s.pc = .enter → e.endText s.pos = false → Move e s ((s.store []).goto .top)
  | blank : s.pc = .top → isBlank (e.text.byte s.pos) = true → Move e s (s.bytes 1)
  | keyword (n g : Nat) : s.pc = .top → e.keywordAt s.pos = some (n, g) → g ≠ 0 →
      Move e s (s.record g n)
  | loop (n : Nat) : s.pc = .top → e.keywordAt s.pos = some (n, 0) → Move e s s.markStart
  | search : s.pc = .top → e.text.byte s.pos ≠ 0 →
      Move e s (s.markStart.goto (if e.buf.patterns = [] then .advance else .item 0))
  | word (idx : Nat) : s.pc = .item idx → isKeyword (e.text.byte s.pos) = true →
      Move e s ((s.bytes (e.text.run isKeyword s.pos)).goto .top)
  | noWord (idx : Nat) : s.pc = .item idx → Move e s (s.goto .advance)
  | next (idx : Nat) (pat : SynPat) (m : Bytes) : s.pc = .item idx →
      e.buf.patterns[idx]? = some pat → e.text.byte s.pos ≠ 0 →
      Move e s ((s.store m).goto (.item (idx + 1)))
  | takes (k : Taker) (n : Nat) (u : Scan) : Takes e s k n u → Move e s u
  | unclosed (idx : Nat) (second : Bool) (pat : SynPat) : s.pc = .region idx second →
      e.buf.patterns[idx]? = some pat → e.text.byte s.pos = 0 →
      Move e s ((s.cutRegion pat).goto (.item (idx + 1)))
  | cut (idx : Nat) (second : Bool) (pat : SynPat) (m : Bytes) : s.pc = .region idx second →
      e.buf.patterns[idx]? = some pat → e.text.byte s.pos ≠ 0 →
      e.tagEnd.any (e.text.startsWith s.pos) = true →
      Move e s (((s.store m).cutRegion pat).goto .stop)
  | regionChar (idx : Nat) (second : Bool) (m : Bytes) : s.pc = .region idx second →
      e.text.byte s.pos ≠ 0 → Move e s ((s.store m).char e.text)
  | advance : s.pc = .advance → e.endText s.pos = false → Move e s ((s.char e.text).goto .top)

variable {e : ScanEnv} {s : Scan}

/-- A scan that has ended stays as it is. -/
theorem step_halted (h : s.pc = .stop ∨ s.pc = .fault) : step e s = s := by
  unfold step
  rcases h with h | h <;> simp [h]

theorem endText_of_byte (h : e.text.byte s.pos = 0) : e.endText s.pos = true := by
  simp [ScanEnv.endText, h]

theorem byte_ne_zero_of_endText (h : e.endText s.pos = false) : e.text.byte s.pos ≠ 0 := by
  intro h0
  rw [endText_of_byte h0] at h
  cases h

theorem byte_ne_zero_of_isBlank {b : UInt8} (h : isBlank b = true) : b ≠ 0 := by
  rintro rfl
  cases h

theorem byte_ne_zero_of_isKeyword {b : UInt8} (h : isKeyword b = true) : b ≠ 0 := by
  rintro rfl
  cases h

theorem move_stepTop (hpc : s.pc = .top) : Move e s (stepTop e s) := by
  unfold stepTop
  split
  · next h0 => exact .leave (.inr (.inl hpc)) (endText_of_byte h0)
  · next h0 =>
    split
    · next hb => exact .blank hpc hb
    · split
      · next n g hk =>
        split
        · next hg => exact .keyword n g hpc hk hg
        · next hg => exact .loop n hpc (by rw [hk, Decidable.of_not_not hg])
      · exact .search hpc h0

theorem move_stepWord {idx : Nat} (hpc : s.pc = .item idx) : Move e s (stepWord e s) := by
  unfold stepWord
  split
  · next hw => exact .word idx hpc hw
  · exact .noWord idx hpc

theorem move_stepItem {idx : Nat} (hpc : s.pc = .item idx) : Move e s (stepItem e s idx) := by
  unfold stepItem
  split
  · exact move_stepWord hpc
  · next pat hpat =>
    split
    · exact move_stepWord hpc
    · next h0 =>
      split
      · exact .next idx pat s.mem hpc hpat h0
      · next hskip =>
        have hskip : skipsItem pat = false := by simpa using hskip
        split
        · exact .fault _ rfl rfl (by simp)
        · next n m hm => exact .takes _ n _ (.item idx pat n m hpc hpat h0 hskip hm)
        · next m' hm =>
          split
          · exact .fault _ rfl rfl (by simp)
          · next n m hs => exact .takes _ n _ (.start idx pat n m' m hpc hpat h0 hskip hm hs)
          · next m _ => exact .next idx pat m hpc hpat h0

theorem move_stepRegion {idx : Nat} {second : Bool} (hpc : s.pc = .region idx second) :
    Move e s (stepRegion e s idx second) := by
  unfold stepRegion
  split
  · exact .fault _ rfl rfl (by simp)
  · next pat hpat =>
    split
    · next h0 => exact .unclosed idx second pat hpc hpat h0
    · next h0 =>
      split
      · exact .fault _ rfl rfl (by simp)
      · next n m hskip => exact .takes _ n _ (.skip idx second pat n m hpc hpat h0 hskip)
      · next m' hskip =>
        split
        · exact .fault _ rfl rfl (by simp)
        · split
          · exact .fault _ rfl rfl (by simp)
          · next n m hend =>
            split
            · next h2 =>
              subst h2
              exact .takes _ n _ (.firstEnd idx pat n m' m hpc hpat h0 hskip hend)
            · next h2 =>
              obtain rfl : second = false := by simpa using h2
              unfold closeRegion
              split
              · exact .fault _ rfl rfl (by simp)
              · next os oe hhg =>
                exact .takes _ n _ (.close idx pat n m' m os oe hpc hpat h0 hskip hend hhg)
          · next m _ =>
            split
            · next ht => exact .cut idx second pat m hpc hpat h0 ht
            · exact .regionChar idx second m hpc h0

/-- Every step is one of the moves. -/
theorem move_step (e : ScanEnv) (s : Scan) : Move e s (step e s) := by
  unfold step
  split
  · next hpc =>
    split
    · next h => exact .leave (.inl hpc) h
    · next h => exact .enter hpc (by simpa using h)
  · next hpc => exact move_stepTop hpc
  · next idx hpc => exact move_stepItem hpc
  · next idx second hpc => exact move_stepRegion hpc
  · next hpc =>
    split
    · next h => exact .leave (.inr (.inr hpc)) h
    · next h => exact .advance hpc (by simpa using h)
  · next hpc => exact .halt (.inl hpc)
  · next hpc => exact .halt (.inr hpc)

theorem not_isBlank_of_isKeyword {b : UInt8} (h : isKeyword b = true) : isBlank b = false := by
  simp only [isKeyword, isAlpha, isBlank, isWhite, isBreak, Bool.or_eq_true, Bool.and_eq_true,
    decide_eq_true_eq, beq_iff_eq, UInt8.le_iff_toNat_le, Bool.or_eq_false_iff,
    beq_eq_false_iff_ne] at h ⊢
  refine ⟨⟨?_, ?_⟩, ?_, ?_⟩ <;> (rintro rfl; simp at h)

/-- A keyword of group 0 is looked at again and again. -/
theorem step_loop {n : Nat} (hpc : s.pc = .top) (h : e.keywordAt s.pos = some (n, 0)) :
    step e s = s.markStart := by
  have hkey : isKeyword (e.text.byte s.pos) = true := by
    unfold ScanEnv.keywordAt at h
    split at h
    · assumption
    · cases h
  simp [step, hpc, stepTop, byte_ne_zero_of_isKeyword hkey, not_isBlank_of_isKeyword hkey, h]

/-! ### Steps that take a match -/

/-- A match ends inside the text. -/
theorem tryMatch_le {pos n : Nat} {mem m : Bytes} {p : Option Bytes}
    (h : e.tryMatch pos mem p = some (some n, m)) (hle : pos ≤ e.text.length) :
    pos + n ≤ e.text.length := by
  cases p with
  | none => cases h
  | some syn =>
      obtain ⟨⟨len, mem'⟩, hr, heq⟩ := Option.map_eq_some_iff.mp h
      cases heq
      exact matchRegion_le hr hle

namespace Takes

variable {k : Taker} {n : Nat} {u : Scan}

/-- The step is the one that takes the match. -/
theorem step_eq (h : Takes e s k n u) : step e s = u := by
  cases h with
  | item idx pat n m hpc hpat h0 hskip hm =>
      simp [step, hpc, stepItem, hpat, h0, hskip, hm]
  | start idx pat n m' m hpc hpat h0 hskip hm hs =>
      simp [step, hpc, stepItem, hpat, h0, hskip, hm, hs]
  | skip idx second pat n m hpc hpat h0 hm => simp [step, hpc, stepRegion, hpat, h0, hm]
  | firstEnd idx pat n m' m hpc hpat h0 hskip hend =>
      have hsome : pat.end ≠ none := fun hnone => by simp [hnone, ScanEnv.tryMatch] at hend
      simp [step, hpc, stepRegion, hpat, h0, hskip, hend, hsome]
  | close idx pat n m' m os oe hpc hpat h0 hskip hend hhg =>
      have hsome : pat.end ≠ none := fun hnone => by simp [hnone, ScanEnv.tryMatch] at hend
      have hclose : closeRegion ((s.store m).bytes n) pat =
          (((s.store m).bytes n).push pat.fromId os oe).goto .top := by
        rw [closeRegion, show hgAdjust pat.hg ((s.store m).bytes n).start
          ((s.store m).bytes n).cur = some (os, oe) from hhg]
      simp [step, hpc, stepRegion, hpat, h0, hskip, hend, hsome, hclose]

/-- Neither the state before nor the one after is an end. -/
theorem pc_ne (h : Takes e s k n u) : s.pc ≠ .stop ∧ s.pc ≠ .fault ∧ u.pc ≠ .fault := by
  cases h <;> simp_all

theorem pos_eq (h : Takes e s k n u) : u.pos = s.pos + n := by
  cases h <;> rfl

theorem cur_eq (h : Takes e s k n u) : u.cur = s.cur + n := by
  cases h <;> rfl

theorem le (h : Takes e s k n u) (hle : s.pos ≤ e.text.length) : s.pos + n ≤ e.text.length := by
  cases h with
  | item _ _ _ _ _ _ _ _ hm => exact tryMatch_le hm hle
  | start _ _ _ _ _ _ _ _ _ _ hm => exact tryMatch_le hm hle
  | skip _ _ _ _ _ _ _ _ hm => exact tryMatch_le hm hle
  | firstEnd _ _ _ _ _ _ _ _ _ hm => exact tryMatch_le hm hle
  | close _ _ _ _ _ _ _ _ _ _ _ hm _ => exact tryMatch_le hm hle

end Takes

/-- A step does not go back. -/
theorem pos_le_step (e : ScanEnv) (s : Scan) : s.pos ≤ (step e s).pos := by
  generalize hu : step e s = u
  have hmove : Move e s u := hu ▸ move_step e s
  cases hmove with
  | fault _ _ _ hpos => exact hpos
  | takes k n u ht =>
      rw [ht.pos_eq]
      exact Nat.le_add_right _ _
  | _ => simp [record, cutRegion]

/-- A keyword is a whole word. -/
theorem keywordAt_eq {pos n g : Nat} (h : e.keywordAt pos = some (n, g)) :
    isKeyword (e.text.byte pos) = true ∧ n = e.text.run isKeyword pos := by
  unfold ScanEnv.keywordAt at h
  split at h
  · next hkey =>
    refine ⟨hkey, ?_⟩
    simp only [Buf.checkKeywordId] at h
    split at h
    · obtain ⟨_, -, heq⟩ := Option.map_eq_some_iff.mp h
      exact (congrArg Prod.fst heq).symm
    · cases h
  · cases h

end Scan

end HapAndroid.Highlight
