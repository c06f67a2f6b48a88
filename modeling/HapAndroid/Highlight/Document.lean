import HapAndroid.Highlight.ReadSyntax
import HapAndroid.Highlight.TokenRuns

/-!
# What `parse_file` reads

Without tags a file is the tokens of one scan.  With tags it is a document: between the tags the
characters are passed over, and at the first tag whose start stands at a place its inside is
read, as tokens or, for a tag `other`, as plain text.  What is recorded at the end of a tag depends
on what was recorded before, so the records are a part of the document.

`parseFile_iff` says that `parse_file` returns exactly for the files that can be read so, with the
records of that reading.
-/

namespace HapAndroid.Highlight

open Machine

/-- The record of the start of a tag that is linked to `Tag`. -/
def Tag.opening (tag : Tag) (p : Place) (n : Nat) : List Item :=
  if tag.toId = groupTagId then [⟨tag.toId, p.cur, (p.cur + n : Nat)⟩] else []

namespace ParseEnv

variable (e : ParseEnv)

/-- The first of the tags whose start stands at a position, with the size of the start. -/
def findTag (pos : Nat) : List Tag → Option (Option (Tag × Nat))
  | [] => some none
  | tag :: tags =>
      match tag.pat.start with
      | none => none
      | some syn =>
          match matchRegion e.text pos syn none with
          | none => none
          | some ⟨none, _⟩ => findTag pos tags
          | some ⟨some n, _⟩ => if tag.pat.end = none then none else some (some (tag, n))

/-- The end of a tag stands at a position. -/
def tagEndsAt (tag : Tag) (pos : Nat) : Bool := tag.pat.end.any (e.text.startsWith pos)

/-- The plain text of a tag `other`. -/
inductive Passes (tag : Tag) : Place → Place → Prop
  | stop {p : Place} : e.text.byte p.pos = 0 ∨ e.tagEndsAt tag p.pos = true → Passes tag p p
  | char {p q : Place} : e.text.byte p.pos ≠ 0 → e.tagEndsAt tag p.pos = false →
      Passes tag (p.char e.text) q → Passes tag p q

/-- What stands between the start of a tag and its end. -/
def Inside (tag : Tag) (p : Place) (ks : List Token) (q : Place) : Prop :=
  if Parse.isOther tag then ks = [] ∧ e.Passes tag p q else Scans (e.scanEnv (some tag)) p ks q

/-- The records and the place behind a tag that starts at an offset and whose inside has been
read. -/
def closing (tag : Tag) (start : Nat) (out : List Item) (q : Place) : List Item × Place :=
  if e.text.byte q.pos = 0 ∧ Parse.isOther tag ∧
      (out.getLast?.map (·.stop)).getD (-1) ≠ (q.cur : Int) - 1 then
    (out ++ [⟨tag.toId, start, q.cur⟩], q)
  else if e.tagEndsAt tag q.pos then
    (out ++ [⟨tag.toId, (if tag.toId = groupTagId then q.cur else start : Nat),
      (q.cur + (tag.pat.end.getD []).length : Nat)⟩], q.bytes (tag.pat.end.getD []).length)
  else (out, q)

/-- A document from a place on, with the records before and after it. -/
inductive Document : Place → List Item → List Item → Prop
  | done {p : Place} {out : List Item} : e.text.byte p.pos = 0 → Document p out out
  | char {p : Place} {out out' : List Item} : e.text.byte p.pos ≠ 0 →
      e.findTag p.pos e.tags = some none → Document (p.char e.text) out out' →
      Document p out out'
  | tag {p q : Place} {out out' : List Item} {tag : Tag} {n : Nat} {ks : List Token} :
      e.text.byte p.pos ≠ 0 → e.findTag p.pos e.tags = some (some (tag, n)) →
      e.Inside tag (p.bytes n) ks q →
      Document (e.closing tag p.cur (out ++ tag.opening p n ++ records (p.cur + n) ks) q).2
        (e.closing tag p.cur (out ++ tag.opening p n ++ records (p.cur + n) ks) q).1 out' →
      Document p out out'

/-- The records of a file, from behind its first blanks on. -/
def Reads (out : List Item) : Prop :=
  let p : Place := ⟨e.text.run isWhite 0, e.text.run isWhite 0, []⟩
  if e.tags = [] then ∃ ks q, Scans (e.scanEnv none) p ks q ∧ out = records p.cur ks
  else e.tags.length ≤ maxTagNum ∧ e.Document p [] out

end ParseEnv

namespace Parse

/-- A state of `parse_file` at a place, with what has been recorded. -/
structure Stands (s : Parse) (pc : ParsePc) (p : Place) (out : List Item) : Prop where
  pc : s.pc = pc
  place : s.scan.place = p
  out : s.scan.out = out

variable {e : ParseEnv} {s u : Parse}

/-! ## From documents to runs -/

theorem openTag_goto (s : Parse) (pc : ParsePc) (tag : Tag) (n : Nat) :
    (s.goto pc).openTag tag n = s.openTag tag n := by
  unfold openTag markTag
  split <;> split <;> rfl

/-- The loop over the tags takes the first that applies. -/
theorem leads_tags {tags : List Tag} {idx : Nat} (htags : e.tags.drop idx = tags)
    (hpc : s.pc = .tag idx) : ∃ t, Leads (step e) s t ∧
      (e.findTag s.scan.pos tags).elim (t.pc = .fault) fun r =>
        t = r.elim ((s.on (·.char e.text)).goto .head) fun r => s.openTag r.1 r.2 := by
  induction tags generalizing idx s with
  | nil =>
      have hnone : e.tags[idx]? = none := List.getElem?_eq_none (List.drop_eq_nil_iff.mp htags)
      exact ⟨_, .of_step (by simp [step, hpc, stepTag, hnone]), rfl⟩
  | cons tag tags ih =>
      have htag : e.tags[idx]? = some tag := by
        rw [← List.head?_drop, htags, List.head?_cons]
      have hrest : e.tags.drop (idx + 1) = tags := by
        rw [← List.tail_drop, htags, List.tail_cons]
      rw [ParseEnv.findTag]
      split
      · next hsyn => exact ⟨s.goto .fault, .of_step (by simp [step, hpc, stepTag, htag, hsyn]), rfl⟩
      · next syn hsyn =>
        split
        · next hm =>
          exact ⟨s.goto .fault, .of_step (by simp [step, hpc, stepTag, htag, hsyn, hm]), rfl⟩
        · next m hm =>
          have hstep : step e s = s.goto (.tag (idx + 1)) := by
            simp [step, hpc, stepTag, htag, hsyn, hm]
          obtain ⟨t, ht, hafter⟩ := ih (s := s.goto (.tag (idx + 1))) hrest rfl
          simp only [openTag_goto] at hafter
          exact ⟨t, .head hstep ht.reaches, hafter⟩
        · next n m hm =>
          split
          · next hend =>
            exact ⟨s.goto .fault, .of_step (by simp [step, hpc, stepTag, htag, hsyn, hm, hend]), rfl⟩
          · next hend => exact ⟨_, .of_step (step_openTag hpc htag hsyn hm hend), rfl⟩

/-- From the head of the loop to a tag. -/
theorem leads_findTag (hpc : s.pc = .head) (h0 : e.text.byte s.scan.pos ≠ 0) :
    ∃ t, Leads (step e) s t ∧ (e.findTag s.scan.pos e.tags).elim (t.pc = .fault) fun r =>
      t = r.elim ((s.on (·.char e.text)).goto .head) fun r => s.openTag r.1 r.2 := by
  have hstep : step e s = s.goto (.tag 0) := by simp [step, hpc, h0]
  obtain ⟨t, ht, hafter⟩ := leads_tags (s := s.goto (.tag 0)) (List.drop_zero (l := e.tags)) rfl
  simp only [openTag_goto] at hafter
  exact ⟨t, .head hstep ht.reaches, hafter⟩

theorem openTag_stands (s : Parse) (tag : Tag) (n : Nat) :
    Stands (s.openTag tag n) (if isOther tag then .other tag else .scanning (some tag))
      (s.scan.place.bytes n) (s.scan.out ++ tag.opening s.scan.place n) := by
  unfold openTag markTag Tag.opening
  split <;> split <;> exact ⟨rfl, rfl, by simp [call]⟩

/-- The steps of a scan are steps of `parse_file`. -/
theorem reaches_scanning {tag : Option Tag} {c c' : Scan} (start : Nat)
    (h : Reaches (Scan.step (e.scanEnv tag)) c c') :
    Reaches (step e) ⟨.scanning tag, c, start⟩ ⟨.scanning tag, c', start⟩ := by
  obtain ⟨n, rfl⟩ := h
  induction n generalizing c with
  | zero => exact .refl ..
  | succ n ih =>
      by_cases hhalt : c.pc = .stop ∨ c.pc = .fault
      · rw [Function.iterate_fixed (Scan.step_halted hhalt)]
        exact .refl ..
      · obtain ⟨hstop, hfault⟩ := not_or.mp hhalt
        have hstep : step e ⟨.scanning tag, c, start⟩ =
            ⟨.scanning tag, Scan.step (e.scanEnv tag) c, start⟩ := step_scanning rfl hstop hfault
        exact Reaches.head (hstep ▸ ih)

theorem reaches_of_passes {tag : Tag} {p q : Place} (h : e.Passes tag p q) (hpc : s.pc = .other tag)
    (hp : s.scan.place = p) : ∃ t, Reaches (step e) s t ∧ Stands t (.after tag) q s.scan.out ∧
      t.tagStart = s.tagStart := by
  induction h generalizing s with
  | stop hend =>
      subst hp
      have hend : (e.text.byte s.scan.pos = 0 || atEnd e s tag) = true := by
        simpa using show e.text.byte s.scan.pos = 0 ∨ atEnd e s tag = true from hend
      have hstep : step e s = s.goto (.after tag) := by simp only [step, hpc, hend, if_true]
      exact ⟨_, (Leads.of_step hstep).reaches, ⟨rfl, rfl, rfl⟩, rfl⟩
  | char h0 hend _ ih =>
      subst hp
      have hend : atEnd e s tag = false := hend
      have hstep : step e s = s.on (·.char e.text) := by
        simp [step, hpc, show e.text.byte s.scan.pos ≠ 0 from h0, hend]
      obtain ⟨t, ht, hstands, hstart⟩ := ih (s := s.on (·.char e.text)) hpc rfl
      exact ⟨t, (Leads.head hstep ht).reaches, hstands, hstart⟩

/-- The inside of a tag is read to its end. -/
theorem reaches_of_inside {tag : Tag} {n : Nat} {ks : List Token} {q : Place}
    (h : e.Inside tag (s.scan.place.bytes n) ks q) :
    ∃ t, Reaches (step e) (s.openTag tag n) t ∧ t.tagStart = s.scan.cur ∧
      Stands t (.after tag) q
        (s.scan.out ++ tag.opening s.scan.place n ++ records (s.scan.cur + n) ks) := by
  obtain ⟨hpc, hplace, hout⟩ := openTag_stands s tag n
  have hstart := openTag_tagStart (s := s) tag n
  rw [ParseEnv.Inside] at h
  split at h
  · next hother =>
    obtain ⟨rfl, h⟩ := h
    rw [if_pos hother] at hpc
    obtain ⟨t, ht, hstands, hstart'⟩ := reaches_of_passes h hpc hplace
    rw [hout] at hstands
    exact ⟨t, ht, hstart'.trans hstart, by rwa [records, List.append_nil]⟩
  · next hother =>
    have hopen : ⟨.scanning (some tag), (s.openTag tag n).scan, s.scan.cur⟩ = s.openTag tag n := by
      rw [if_neg hother] at hpc
      rw [← hpc, ← hstart]
    have henter : (s.openTag tag n).scan.pc = .enter := by
      rw [openTag, if_neg hother]
      rfl
    obtain ⟨c, hc, hstop, hq, hrecs⟩ := Scan.reaches_of_scans henter (hplace ▸ h)
    have hleave : step e ⟨.scanning (some tag), c, s.scan.cur⟩ = ⟨.after tag, c, s.scan.cur⟩ := by
      simp [step, hstop, goto]
    have hrun := (reaches_scanning s.scan.cur hc).trans (Leads.of_step hleave).reaches
    have hcur : (s.openTag tag n).scan.cur = s.scan.cur + n := openTag_cur tag n
    rw [hout, hcur] at hrecs
    rw [hopen] at hrun
    exact ⟨_, hrun, rfl, rfl, hq, hrecs⟩

/-- Behind its inside a tag is recorded. -/
theorem step_after {tag : Tag} {q : Place} {out : List Item} (h : Stands s (.after tag) q out) :
    Stands (step e s) .head (e.closing tag s.tagStart out q).2
      (e.closing tag s.tagStart out q).1 := by
  obtain ⟨hpc, rfl, rfl⟩ := h
  have hstep : step e s = stepAfter e s tag := by simp [step, hpc]
  have hend : atEnd e s tag = e.tagEndsAt tag s.scan.pos := rfl
  rw [hstep, stepAfter, ParseEnv.closing, offsetEnd, hend]
  simp only [Scan.place_pos, Scan.place_cur]
  split
  · exact ⟨rfl, rfl, rfl⟩
  · split
    · exact ⟨rfl, rfl, rfl⟩
    · exact ⟨rfl, rfl, rfl⟩

/-- A document is read to its end. -/
theorem reaches_of_document {p : Place} {out out' : List Item} (h : e.Document p out out')
    (hs : Stands s .head p out) :
    ∃ t, Reaches (step e) s t ∧ t.pc = .done ∧ t.scan.out = out' := by
  induction h generalizing s with
  | done h0 =>
      obtain ⟨hpc, rfl, rfl⟩ := hs
      have hstep : step e s = s.goto .done := by
        simp [step, hpc, show e.text.byte s.scan.pos = 0 from h0]
      exact ⟨_, (Leads.of_step hstep).reaches, rfl, rfl⟩
  | char h0 hfind _ ih =>
      obtain ⟨hpc, rfl, rfl⟩ := hs
      obtain ⟨t, ht, hafter⟩ := leads_findTag hpc h0
      rw [show e.findTag s.scan.pos e.tags = _ from hfind] at hafter
      obtain rfl := hafter
      obtain ⟨u, hu, hdone⟩ := ih (s := (s.on (·.char e.text)).goto .head) ⟨rfl, rfl, rfl⟩
      exact ⟨u, ht.reaches.trans hu, hdone⟩
  | tag h0 hfind hinside _ ih =>
      obtain ⟨hpc, rfl, rfl⟩ := hs
      obtain ⟨t, ht, hafter⟩ := leads_findTag hpc h0
      rw [show e.findTag s.scan.pos e.tags = _ from hfind] at hafter
      obtain rfl := hafter
      obtain ⟨r, hr, hstart, hstands⟩ := reaches_of_inside hinside
      have hhead := step_after (e := e) hstands
      rw [hstart] at hhead
      obtain ⟨u, hu, hdone⟩ := ih hhead
      exact ⟨u, ht.reaches.trans (hr.trans (Leads.head rfl hu).reaches), hdone⟩

/-! ## From runs to documents -/

/-- A run that faults does not return. -/
theorem not_done_of_fault {t : Parse} {n : Nat} (ht : t.pc = .fault) (hn : (step e)^[n] t = u)
    (hu : u.pc = .done) : False := by
  rw [Function.iterate_fixed (step_halted (.inr ht))] at hn
  rw [← hn, ht] at hu
  cases hu

/-- Behind a state of a run that returns, the way to the end is shorter. -/
theorem exists_lt_of_leads {t : Parse} {n : Nat} (h : Leads (step e) s t) (hn : (step e)^[n] s = u)
    (hu : u.pc = .done) (ht : t.pc ≠ .done) : ∃ m < n, (step e)^[m] t = u :=
  h.exists_lt hn (step_halted (.inl hu)) fun htu => ht (htu ▸ hu)

theorem exists_passes {tag : Tag} {n : Nat} (hpc : s.pc = .other tag) (hn : (step e)^[n] s = u)
    (hu : u.pc = .done) : ∃ q, e.Passes tag s.scan.place q := by
  induction n using Nat.strongRecOn generalizing s with
  | _ n ih =>
      by_cases hstop : e.text.byte s.scan.pos = 0 ∨ atEnd e s tag = true
      · exact ⟨_, .stop hstop⟩
      · obtain ⟨h0, hend⟩ := not_or.mp hstop
        have hend : atEnd e s tag = false := Bool.eq_false_iff.mpr hend
        have hstep : step e s = s.on (·.char e.text) := by simp [step, hpc, h0, hend]
        obtain ⟨m, hm, hrun⟩ := exists_lt_of_leads (.of_step hstep) hn hu (by simp [hpc])
        obtain ⟨q, hq⟩ := ih m hm (s := s.on (·.char e.text)) hpc hrun
        exact ⟨q, .char h0 hend hq⟩

/-- A scan that `parse_file` comes out of has ended. -/
theorem exists_stop {tag : Option Tag} {c : Scan} {start n : Nat}
    (hn : (step e)^[n] ⟨.scanning tag, c, start⟩ = u) (hu : u.pc = .done) :
    ∃ c', Reaches (Scan.step (e.scanEnv tag)) c c' ∧ c'.pc = .stop := by
  induction n using Nat.strongRecOn generalizing c with
  | _ n ih =>
      by_cases hstop : c.pc = .stop
      · exact ⟨c, .refl .., hstop⟩
      by_cases hfault : c.pc = .fault
      · have hstep : step e ⟨.scanning tag, c, start⟩ = ⟨.fault, c, start⟩ := by
          simp [step, hfault, goto]
        obtain ⟨m, -, hrun⟩ := exists_lt_of_leads (.of_step hstep) hn hu (by simp)
        exact (not_done_of_fault rfl hrun hu).elim
      · have hstep : step e ⟨.scanning tag, c, start⟩ =
            ⟨.scanning tag, Scan.step (e.scanEnv tag) c, start⟩ := step_scanning rfl hstop hfault
        obtain ⟨m, hm, hrun⟩ := exists_lt_of_leads (.of_step hstep) hn hu (by simp)
        obtain ⟨c', hc', hpc⟩ := ih m hm hrun
        exact ⟨c', hc'.head, hpc⟩

theorem exists_inside {tag : Tag} {k n : Nat} (hn : (step e)^[n] (s.openTag tag k) = u)
    (hu : u.pc = .done) : ∃ ks q, e.Inside tag (s.scan.place.bytes k) ks q := by
  obtain ⟨hpc, hplace, -⟩ := openTag_stands s tag k
  by_cases hother : isOther tag = true
  · rw [if_pos hother] at hpc
    obtain ⟨q, hq⟩ := exists_passes hpc hn hu
    exact ⟨[], q, (if_pos hother).mpr ⟨rfl, hplace ▸ hq⟩⟩
  · have hopen : s.openTag tag k = (s.markTag tag k).call (some tag) := if_neg hother
    rw [hopen] at hn hplace
    obtain ⟨c, hc, hstop⟩ := exists_stop hn hu
    obtain ⟨ks, hks, -⟩ := Scan.exists_scans rfl hc hstop
    exact ⟨ks, c.place, (if_neg hother).mpr (hplace ▸ hks)⟩

/-- A file with tags that is parsed to its end has been read as a document. -/
theorem exists_document {n : Nat} (hpc : s.pc = .head) (hn : (step e)^[n] s = u)
    (hu : u.pc = .done) : ∃ out, e.Document s.scan.place s.scan.out out := by
  induction n using Nat.strongRecOn generalizing s with
  | _ n ih =>
      by_cases h0 : e.text.byte s.scan.pos = 0
      · exact ⟨_, .done h0⟩
      obtain ⟨t, ht, hafter⟩ := leads_findTag hpc h0
      rcases hfind : e.findTag s.scan.pos e.tags with _ | _ | ⟨tag, k⟩
      · rw [hfind] at hafter
        have hfault : t.pc = .fault := hafter
        obtain ⟨m, -, hrun⟩ := exists_lt_of_leads ht hn hu (by simp [hfault])
        exact (not_done_of_fault hfault hrun hu).elim
      · rw [hfind] at hafter
        obtain rfl := hafter
        obtain ⟨m, hm, hrun⟩ := exists_lt_of_leads ht hn hu (by simp)
        obtain ⟨out, hout⟩ := ih m hm rfl hrun
        exact ⟨out, .char h0 hfind hout⟩
      · rw [hfind] at hafter
        obtain rfl := hafter
        have hopen : (s.openTag tag k).pc ≠ .done := by
          rw [(openTag_stands s tag k).pc]
          split <;> simp
        obtain ⟨m, -, hrun⟩ := exists_lt_of_leads ht hn hu hopen
        obtain ⟨ks, q, hinside⟩ := exists_inside hrun hu
        obtain ⟨r, hr, hstart, hstands⟩ := reaches_of_inside hinside
        have hhead := step_after (e := e) hstands
        rw [hstart] at hhead
        have hlead : Leads (step e) s (step e r) := ht.trans hr.step
        obtain ⟨m, hm, hrun⟩ := exists_lt_of_leads hlead hn hu (by simp [hhead.pc])
        obtain ⟨out, hout⟩ := ih m hm hhead.pc hrun
        rw [hhead.place, hhead.out] at hout
        exact ⟨out, .tag h0 hfind hinside hout⟩

/-! ## The parser -/

/-- A file that can be read is parsed to its end. -/
theorem reaches_of_reads {out : List Item} (h : e.Reads out) :
    ∃ u, Reaches (step e) (init e) u ∧ u.pc = .done ∧ u.scan.out = out := by
  rw [ParseEnv.Reads] at h
  split at h
  · next htags =>
    obtain ⟨ks, q, hks, rfl⟩ := h
    obtain ⟨c, hc, hstop, -, hout⟩ := Scan.reaches_of_scans
      (s := ⟨.enter, e.text.run isWhite 0, e.text.run isWhite 0, 0, [], []⟩) rfl hks
    have hleave : step e ⟨.scanning none, c, 0⟩ = ⟨.done, c, 0⟩ := by simp [step, hstop, goto]
    rw [init, if_pos htags]
    exact ⟨_, (reaches_scanning 0 hc).trans (Leads.of_step hleave).reaches, rfl, hout⟩
  · next htags =>
    rw [init, if_neg htags, if_pos h.1]
    exact reaches_of_document h.2 ⟨rfl, rfl, rfl⟩

theorem exists_reads (hu : Reaches (step e) (init e) u) (hdone : u.pc = .done) :
    ∃ out, e.Reads out := by
  obtain ⟨n, hn⟩ := hu
  simp only [ParseEnv.Reads]
  rw [init] at hn
  split at hn
  · next htags =>
    obtain ⟨c, hc, hstop⟩ := exists_stop hn hdone
    obtain ⟨ks, hks, -⟩ := Scan.exists_scans rfl hc hstop
    exact ⟨_, (if_pos htags).mpr ⟨ks, c.place, hks, rfl⟩⟩
  · next htags =>
    split at hn
    · next hmax =>
      obtain ⟨out, hout⟩ := exists_document rfl hn hdone
      exact ⟨out, (if_neg htags).mpr ⟨hmax, hout⟩⟩
    · exact (not_done_of_fault rfl hn hdone).elim

/-- What has been recorded at the end of a file is what its reading gives. -/
theorem reads_of_reaches (hu : Reaches (step e) (init e) u) (hdone : u.pc = .done) :
    e.Reads u.scan.out := by
  obtain ⟨out, hout⟩ := exists_reads hu hdone
  obtain ⟨t, ht, hdone', rfl⟩ := reaches_of_reads hout
  have hend : t = u := ht.eq_of_fixed hu (step_halted (.inl hdone')) (step_halted (.inl hdone))
  exact hend ▸ hout

end Parse

theorem parseFile_eq_some {e : ParseEnv} {out : List Item} :
    (∃ steps, parseFile e steps = some out) ↔
      ∃ u, Reaches (Parse.step e) (Parse.init e) u ∧ u.pc = .done ∧ u.scan.out = out := by
  constructor
  · rintro ⟨steps, h⟩
    rw [parseFile] at h
    split at h
    · next hdone => exact ⟨_, ⟨steps, rfl⟩, hdone, Option.some.inj h⟩
    · cases h
  · rintro ⟨u, ⟨steps, rfl⟩, hdone, rfl⟩
    exact ⟨steps, if_pos hdone⟩

theorem reads_of_parseFile {e : ParseEnv} {steps : Nat} {out : List Item}
    (h : parseFile e steps = some out) : e.Reads out := by
  obtain ⟨u, hu, hdone, rfl⟩ := parseFile_eq_some.mp ⟨steps, h⟩
  exact Parse.reads_of_reaches hu hdone

theorem exists_parseFile {e : ParseEnv} {out : List Item} (h : e.Reads out) :
    ∃ steps, parseFile e steps = some out :=
  parseFile_eq_some.mpr (Parse.reaches_of_reads h)

/-- `parse_file` returns for the files that can be read, with the records of their reading. -/
theorem parseFile_iff (e : ParseEnv) (out : List Item) :
    (∃ steps, parseFile e steps = some out) ↔ e.Reads out := by
  constructor
  · rintro ⟨steps, h⟩
    exact reads_of_parseFile h
  · exact exists_parseFile

end HapAndroid.Highlight
