import HapAndroid.Highlight.Groups
import HapAndroid.Highlight.Scan

/-!
# `parse_file`

Without tags the whole text is scanned.  With tags the text is searched for the start
of one; a tag `other` is read to its end, any other is scanned to its end.  The calls of
`scan_syntax` are part of the machine: a step inside of one is a step of the scanner.
-/

namespace HapAndroid.Highlight

/-- `MAX_TAG_NUM`. -/
def maxTagNum : Nat := 10

/-- `GROUP_TAG_ID`. -/
def groupTagId : Nat := 1

/-- What `parse_file` reads. -/
structure ParseEnv where
  text : FileText
  buf : Buf
  groups : List HlGroup

/-- A region with a tag, and the group that it is linked to. -/
structure Tag where
  pat : SynPat
  toId : Nat
deriving DecidableEq

namespace ParseEnv

variable (e : ParseEnv)

/-- The link of a group, from the entry with the lowest place. -/
def tagToId (group : Nat) : Nat := ((e.groups.find? fun g => g.fromId = group).map (·.toId)).getD 0

def tags : List Tag :=
  (e.buf.patterns.filter (·.tag.isSome)).map fun pat => ⟨pat, e.tagToId pat.fromId⟩

/-- What a call of `scan_syntax` reads. -/
def scanEnv (tag : Option Tag) : ScanEnv := ⟨e.text, e.buf, tag.bind (·.pat.end)⟩

end ParseEnv

inductive ParsePc where
  /-- The head of the loop. -/
  | head
  /-- The loop over the tags. -/
  | tag (idx : Nat)
  /-- The loop to the end of a tag `other`. -/
  | other (tag : Tag)
  /-- Inside of `scan_syntax`, for the text or for a tag. -/
  | scanning (tag : Option Tag)
  /-- Behind the text of a tag. -/
  | after (tag : Tag)
  | done
  | fault
deriving DecidableEq

structure Parse where
  pc : ParsePc
  /-- The offsets, the records and the state of the scanner. -/
  scan : Scan
  /-- The local `start_offset`. -/
  tagStart : Nat
deriving DecidableEq

namespace Parse

@[simps] def goto (s : Parse) (pc : ParsePc) : Parse := { s with pc }

/-- Change the offsets and the records. -/
@[simps] def on (s : Parse) (f : Scan → Scan) : Parse := { s with scan := f s.scan }

/-- Call `scan_syntax`. -/
def call (s : Parse) (tag : Option Tag) : Parse := (s.on (·.goto .enter)).goto (.scanning tag)

/-- `get_offset_end`. -/
def offsetEnd (s : Parse) : Int := (s.scan.out.getLast?.map (·.stop)).getD (-1)

def isOther (tag : Tag) : Bool := tag.pat.tag = some (bytes "other")

/-- Move over the start of a tag, and record it when it is linked to `Tag`. -/
def markTag (s : Parse) (tag : Tag) (n : Nat) : Parse :=
  if tag.toId = groupTagId then
    { s with tagStart := s.scan.cur }.on fun c =>
      (c.bytes n).push tag.toId c.cur (c.cur + n : Nat)
  else { s with tagStart := s.scan.cur }.on (·.bytes n)

/-- The start of a tag has been found. -/
def openTag (s : Parse) (tag : Tag) (n : Nat) : Parse :=
  if isOther tag then (s.markTag tag n).goto (.other tag) else (s.markTag tag n).call (some tag)

def stepTag (e : ParseEnv) (s : Parse) (idx : Nat) : Parse :=
  match e.tags[idx]? with
  | none => (s.on (·.char e.text)).goto .head
  | some tag =>
      match tag.pat.start with
      | none => s.goto .fault
      | some syn =>
          match matchRegion e.text s.scan.pos syn none with
          | none => s.goto .fault
          | some ⟨none, _⟩ => s.goto (.tag (idx + 1))
          | some ⟨some n, _⟩ => if tag.pat.end = none then s.goto .fault else s.openTag tag n

/-- Whether the end of a tag stands here. -/
def atEnd (e : ParseEnv) (s : Parse) (tag : Tag) : Bool :=
  tag.pat.end.any (e.text.startsWith s.scan.pos)

/-- The end of a tag is recorded: the whole tag, or its end only when it is linked to
`Tag`. -/
def closeTag (s : Parse) (tag : Tag) : Parse :=
  let n := (tag.pat.end.getD []).length
  let start := if tag.toId = groupTagId then s.scan.cur else s.tagStart
  s.on fun c => (c.push tag.toId start (c.cur + n : Nat)).bytes n

def stepAfter (e : ParseEnv) (s : Parse) (tag : Tag) : Parse :=
  if e.text.byte s.scan.pos = 0 ∧ isOther tag ∧ s.offsetEnd ≠ (s.scan.cur : Int) - 1 then
    (s.on (·.push tag.toId s.tagStart s.scan.cur)).goto .head
  else if atEnd e s tag then (s.closeTag tag).goto .head
  else s.goto .head

def step (e : ParseEnv) (s : Parse) : Parse :=
  match s.pc with
  | .head => s.goto (if e.text.byte s.scan.pos = 0 then .done else .tag 0)
  | .tag idx => stepTag e s idx
  | .other tag =>
      if e.text.byte s.scan.pos = 0 || atEnd e s tag then s.goto (.after tag)
      else s.on (·.char e.text)
  | .scanning tag =>
      match s.scan.pc with
      | .stop => s.goto (tag.elim .done .after)
      | .fault => s.goto .fault
      | _ => s.on (Scan.step (e.scanEnv tag))
  | .after tag => stepAfter e s tag
  | .done => s
  | .fault => s

/-- The state before the first step. -/
def init (e : ParseEnv) : Parse :=
  let n := e.text.run isWhite 0
  let s : Parse := ⟨.head, ⟨.enter, n, n, 0, [], []⟩, 0⟩
  if e.tags = [] then s.call none
  else if e.tags.length ≤ maxTagNum then s
  else s.goto .fault

/-! ## What a step can do -/

/-- The moves of `parse_file`; those inside of `scan_syntax` are moves of the
scanner. -/
inductive Move (e : ParseEnv) (s : Parse) : Parse → Prop
  | halt : s.pc = .done ∨ s.pc = .fault → Move e s s
  | fault : Move e s (s.goto .fault)
  | finish : s.pc = .head → e.text.byte s.scan.pos = 0 → Move e s (s.goto .done)
  | look : s.pc = .head → e.text.byte s.scan.pos ≠ 0 → Move e s (s.goto (.tag 0))
  | char (idx : Nat) : s.pc = .tag idx → Move e s ((s.on (·.char e.text)).goto .head)
  | nextTag (idx : Nat) : s.pc = .tag idx → idx < e.tags.length →
      Move e s (s.goto (.tag (idx + 1)))
  | openTag (idx : Nat) (tag : Tag) (syn : Bytes) (n : Nat) (m : Option Bytes) :
      s.pc = .tag idx → e.tags[idx]? = some tag → tag.pat.start = some syn →
      matchRegion e.text s.scan.pos syn none = some ⟨some n, m⟩ → tag.pat.end ≠ none →
      Move e s (s.openTag tag n)
  | leaveOther (tag : Tag) : s.pc = .other tag →
      e.text.byte s.scan.pos = 0 ∨ atEnd e s tag = true → Move e s (s.goto (.after tag))
  | otherChar (tag : Tag) : s.pc = .other tag → e.text.byte s.scan.pos ≠ 0 →
      Move e s (s.on (·.char e.text))
  | leaveScan (tag : Option Tag) : s.pc = .scanning tag → s.scan.pc = .stop →
      Move e s (s.goto (tag.elim .done .after))
  | scan (tag : Option Tag) : s.pc = .scanning tag → s.scan.pc ≠ .stop → s.scan.pc ≠ .fault →
      Move e s (s.on (Scan.step (e.scanEnv tag)))
  | unended (tag : Tag) : s.pc = .after tag → e.text.byte s.scan.pos = 0 →
      Move e s ((s.on (·.push tag.toId s.tagStart s.scan.cur)).goto .head)
  | close (tag : Tag) : s.pc = .after tag → atEnd e s tag = true →
      Move e s ((s.closeTag tag).goto .head)
  | pass (tag : Tag) : s.pc = .after tag → atEnd e s tag = false → Move e s (s.goto .head)

variable {e : ParseEnv} {s : Parse}

theorem step_halted (h : s.pc = .done ∨ s.pc = .fault) : step e s = s := by
  unfold step
  rcases h with h | h <;> simp [h]

/-- The run has left its memory. -/
def Faulted (s : Parse) : Prop :=
  s.pc = .fault ∨ ∃ tag, s.pc = .scanning tag ∧ s.scan.pc = .fault

theorem faulted_step (h : s.Faulted) : (step e s).Faulted := by
  rcases h with h | ⟨tag, hpc, hf⟩
  · rw [step_halted (.inr h)]
    exact .inl h
  · refine .inl ?_
    simp [step, hpc, hf]

/-- A step inside of `scan_syntax`. -/
theorem step_scanning {tag : Option Tag} (hpc : s.pc = .scanning tag) (hstop : s.scan.pc ≠ .stop)
    (hfault : s.scan.pc ≠ .fault) : step e s = s.on (Scan.step (e.scanEnv tag)) := by
  unfold step
  rw [hpc]
  dsimp only
  split
  · next h => exact absurd h hstop
  · next h => exact absurd h hfault
  · rfl

theorem step_openTag {idx n : Nat} {tag : Tag} {syn : Bytes} {m : Option Bytes}
    (hpc : s.pc = .tag idx) (htag : e.tags[idx]? = some tag) (hsyn : tag.pat.start = some syn)
    (hm : matchRegion e.text s.scan.pos syn none = some ⟨some n, m⟩) (hend : tag.pat.end ≠ none) :
    step e s = s.openTag tag n := by
  simp [step, hpc, stepTag, htag, hsyn, hm, hend]

theorem step_closeTag {tag : Tag} (hpc : s.pc = .after tag) (h0 : e.text.byte s.scan.pos ≠ 0)
    (hend : atEnd e s tag = true) : step e s = (s.closeTag tag).goto .head := by
  simp [step, hpc, stepAfter, h0, hend]

@[simp] theorem markTag_pos (tag : Tag) (n : Nat) :
    (s.markTag tag n).scan.pos = s.scan.pos + n := by
  unfold markTag
  split <;> rfl

@[simp] theorem markTag_cur (tag : Tag) (n : Nat) :
    (s.markTag tag n).scan.cur = s.scan.cur + n := by
  unfold markTag
  split <;> rfl

@[simp] theorem markTag_tagStart (tag : Tag) (n : Nat) :
    (s.markTag tag n).tagStart = s.scan.cur := by
  unfold markTag
  split <;> rfl

@[simp] theorem openTag_pos (tag : Tag) (n : Nat) :
    (s.openTag tag n).scan.pos = s.scan.pos + n := by
  unfold openTag
  split <;> simp [call]

@[simp] theorem openTag_cur (tag : Tag) (n : Nat) :
    (s.openTag tag n).scan.cur = s.scan.cur + n := by
  unfold openTag
  split <;> exact markTag_cur tag n

@[simp] theorem openTag_tagStart (tag : Tag) (n : Nat) :
    (s.openTag tag n).tagStart = s.scan.cur := by
  unfold openTag
  split <;> simp [call]

theorem move_stepTag {idx : Nat} (hpc : s.pc = .tag idx) : Move e s (stepTag e s idx) := by
  unfold stepTag
  split
  · exact .char idx hpc
  · next tag htag =>
    split
    · exact .fault
    · next syn hsyn =>
      split
      · exact .fault
      · exact .nextTag idx hpc (List.getElem?_eq_some_iff.mp htag).1
      · next n m hm =>
        split
        · exact .fault
        · next hend => exact .openTag idx tag syn n m hpc htag hsyn hm hend

theorem move_stepAfter {tag : Tag} (hpc : s.pc = .after tag) : Move e s (stepAfter e s tag) := by
  unfold stepAfter
  split
  · next h => exact .unended tag hpc h.1
  · split
    · next h => exact .close tag hpc h
    · next h => exact .pass tag hpc (by simpa using h)

theorem move_step (e : ParseEnv) (s : Parse) : Move e s (step e s) := by
  unfold step
  split
  · next hpc =>
    split
    · next h => exact .finish hpc h
    · next h => exact .look hpc h
  · next idx hpc => exact move_stepTag hpc
  · next tag hpc =>
    split
    · next h => exact .leaveOther tag hpc (by simpa using h)
    · next h => exact .otherChar tag hpc (by simp_all)
  · next tag hpc =>
    split
    · next h => exact .leaveScan tag hpc h
    · exact .fault
    · next hstop hfault => exact .scan tag hpc hstop hfault
  · next tag hpc => exact move_stepAfter hpc
  · next hpc => exact .halt (.inl hpc)
  · next hpc => exact .halt (.inr hpc)

/-- The loop over the tags stands in front of a byte. -/
def Inside (e : ParseEnv) (s : Parse) : Prop :=
  ∀ idx, s.pc = .tag idx → e.text.byte s.scan.pos ≠ 0

theorem inside_of_not_tag (h : ∀ idx, s.pc ≠ .tag idx) : Inside e s :=
  fun idx hpc => absurd hpc (h idx)

theorem inside_init (e : ParseEnv) : Inside e (init e) := by
  refine inside_of_not_tag fun idx => ?_
  unfold init
  split
  · simp [call]
  · split <;> simp

theorem inside_step (h : Inside e s) : Inside e (step e s) := by
  generalize hu : step e s = u
  have hmove : Move e s u := hu ▸ move_step e s
  cases hmove with
  | halt _ => exact h
  | look _ h0 => exact fun _ _ => h0
  | nextTag idx hpc _ => exact fun _ _ => h idx hpc
  | openTag _ tag n _ _ _ _ _ _ =>
      refine inside_of_not_tag fun idx => ?_
      unfold openTag
      split <;> simp [call]
  | leaveScan tag _ _ =>
      refine inside_of_not_tag fun idx => ?_
      cases tag <;> simp
  | scan tag hpc _ _ => exact inside_of_not_tag (by simp [hpc])
  | otherChar tag hpc _ => exact inside_of_not_tag (by simp [hpc])
  | _ => exact inside_of_not_tag (by simp)

end Parse

end HapAndroid.Highlight
