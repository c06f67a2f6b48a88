import HapAndroid.Highlight.Offsets

/-!
# Ranges a span can have

The Java side hands the recorded offsets to `setSpan`, which wants a start that is not
negative, an end that is not before it, and a text that is long enough.  Two things can
break this.  Bytes of a match that are not ASCII are counted one by one, so an offset may
be too large; and an `hg` attribute moves one end of a region by an amount that nobody
holds against the length of the region or of the text.

`ranged_of_fits` says that there is nothing else: where what is taken is ASCII and the
amounts fit, every record of a run is a range of the text, also those of the tags.
-/

namespace HapAndroid.Highlight

open ModifiedUtf8 Machine

/-- A range `setSpan` accepts in a text of some length. -/
def Item.InRange (i : Item) (length : Nat) : Prop :=
  0 ≤ i.start ∧ i.start ≤ i.stop ∧ i.stop ≤ length

/-! ## The shift of `hg` -/

/-- The end of a region that an `hg` attribute moves. -/
inductive HgEnd where
  | start
  | stop
deriving DecidableEq

/-- The end that is moved, and the amount. -/
def hgShift (hg : Option Bytes) : Option (HgEnd × Int) :=
  hg.bind fun h =>
    let off : Int := (h.getD 2 0).toNat - 48
    let d : Int := if h.getD 1 0 = '+'.toUInt8 then off else -off
    if h.getD 0 0 = 's'.toUInt8 then some (.start, d)
    else if h.getD 0 0 = 'e'.toUInt8 then some (.stop, d)
    else none

/-- The amount fits a region from `a` to `b` in a text of some length: the start stays in
the text and before the end, the end behind the start and in the text. -/
def HgFits (hg : Option Bytes) (a b length : Nat) : Prop :=
  match hgShift hg with
  | none => True
  | some (.start, d) => -a ≤ d ∧ d ≤ b - a
  | some (.stop, d) => (a : Int) - b ≤ d ∧ d ≤ length - b

/-- A region inside the text stays a range of it when the amount fits. -/
theorem HgFits.inRange {hg : Option Bytes} {a b length : Nat} (hfits : HgFits hg a b length)
    (hab : a ≤ b) (hb : b ≤ length) {os oe : Int} (h : Scan.hgAdjust hg a b = some (os, oe))
    (group : Nat) : Item.InRange ⟨group, os, oe⟩ length := by
  cases hg with
  | none =>
      cases h
      exact ⟨by simp, by simpa using hab, by simpa using hb⟩
  | some h' =>
      simp only [Scan.hgAdjust] at h
      simp only [HgFits, hgShift, Option.bind_some] at hfits
      by_cases hs : h'.getD 0 0 = 's'.toUInt8
      · simp only [hs, true_or, if_true] at h hfits
        split at h
        · cases h
        · cases h
          simp only [Item.InRange]
          omega
      · by_cases he : h'.getD 0 0 = 'e'.toUInt8
        · rw [if_neg hs, if_pos he] at hfits
          rw [if_pos (.inr he)] at h
          split at h
          · cases h
          · cases h
            simp only [Item.InRange]
            omega
        · rw [if_neg (by tauto)] at h
          cases h
          exact ⟨by simp, by simpa using hab, by simpa using hb⟩

/-! ## The scanner -/

/-- Every record is a range of the text. -/
def Ranged (length : Nat) (out : List Item) : Prop := ∀ i ∈ out, i.InRange length

theorem Ranged.concat {length : Nat} {out : List Item} {i : Item} (h : Ranged length out)
    (hi : i.InRange length) : Ranged length (out ++ [i]) := by
  intro j hj
  rcases List.mem_append.mp hj with hj | hj
  · exact h j hj
  · rw [List.mem_singleton.mp hj]
    exact hi

theorem inRange_of_le {a b length : Nat} (group : Nat) (hab : a ≤ b) (hb : b ≤ length) :
    Item.InRange ⟨group, a, b⟩ length :=
  ⟨Int.natCast_nonneg a, Int.ofNat_le.mpr hab, Int.ofNat_le.mpr hb⟩

namespace Scan

variable {us : List UInt16} {hgs : List (Option Bytes)} {before : UInt8} {e : ScanEnv} {s : Scan}

theorem Synced.start_le (h : s.Synced us hgs) : s.start ≤ s.cur := by
  obtain ⟨p, hp, hb⟩ := h.start
  exact hb.units_le h.here hp

/-- The amount of the `hg` attribute of a region fits when the region is closed. -/
def ClosesFitting (length : Nat) (e : ScanEnv) (s : Scan) : Prop :=
  ∀ idx pat n m m', s.pc = .region idx false → e.buf.patterns[idx]? = some pat →
    e.tryMatch s.pos m pat.end = some (some n, m') → HgFits pat.hg s.start (s.cur + n) length

/-- A step records ranges of the text when the match it takes is ASCII and a region it
closes fits. -/
theorem ranged_step (htext : e.text = javaText us before) (h : s.Synced us hgs)
    (hout : Ranged us.length s.out)
    (hascii : ∀ k n u, Takes e s k n u → e.text.Ascii s.pos n)
    (hfits : ClosesFitting us.length e s) : Ranged us.length (step e s).out := by
  have hle : s.pos ≤ e.text.length := htext ▸ h.here.le_length
  have hbound : ∀ n, s.pos + n ≤ e.text.length → e.text.Ascii s.pos n →
      s.cur + n ≤ us.length := by
    rw [htext]
    exact fun n hn ha => (h.here.ascii hn ha).1
  have hrecord : ∀ g n, s.pos + n ≤ e.text.length → e.text.Ascii s.pos n →
      Ranged us.length (s.out ++ [⟨g, (s.cur : Nat), (s.cur + n : Nat)⟩]) := fun g n hn ha =>
    hout.concat (inRange_of_le g (Nat.le_add_right _ _) (hbound n hn ha))
  have hregion : ∀ g, Ranged us.length (s.out ++ [⟨g, (s.start : Nat), (s.cur : Nat)⟩]) :=
    fun g => hout.concat (inRange_of_le g h.start_le h.here.1)
  generalize hu : step e s = u
  have hmove : Move e s u := hu ▸ move_step e s
  cases hmove with
  | fault _ _ hsame _ =>
      rw [hsame]
      exact hout
  | keyword n g _ hkey _ =>
      rw [(keywordAt_eq hkey).2]
      exact hrecord g _ (FileText.run_le hle) (FileText.ascii_run fun _ => isKeyword_ascii)
  | takes k n u ht =>
      have hn := ht.le hle
      have ha := hascii k n u ht
      cases ht with
      | item _ pat _ _ _ _ _ _ _ => exact hrecord pat.fromId n hn ha
      | close idx pat n m' m os oe hpc hpat _ _ hend hadj =>
          have hfit := hfits idx pat n m' m hpc hpat hend
          have hab : s.start ≤ s.cur + n := Nat.le_trans h.start_le (Nat.le_add_right _ _)
          exact hout.concat (hfit.inRange hab (hbound n hn ha) hadj pat.fromId)
      | start _ _ _ _ _ _ _ _ _ _ _ => exact hout
      | skip _ _ _ _ _ _ _ _ _ => exact hout
      | firstEnd _ _ _ _ _ _ _ _ _ _ => exact hout
  | unclosed _ _ pat _ _ _ => exact hregion pat.fromId
  | cut _ _ pat _ _ _ _ _ => exact hregion pat.fromId
  | _ => exact hout

end Scan

/-! ## The whole parse -/

namespace Parse

/-- What the next step takes is ASCII, and a region it closes has an `hg` attribute that
fits. -/
structure Fits (length : Nat) (e : ParseEnv) (s : Parse) : Prop where
  ascii : TakesAscii e s
  hg : ∀ tag, s.pc = .scanning tag → Scan.ClosesFitting length (e.scanEnv tag) s.scan

variable {us : List UInt16} {hgs : List (Option Bytes)} {before : UInt8} {e : ParseEnv} {s : Parse}

theorem Synced.tagStart_le (h : s.Synced us hgs) : s.tagStart ≤ s.scan.cur := by
  obtain ⟨p, hp, hb⟩ := h.tagStart
  exact hb.units_le h.scan.here hp

theorem ranged_openTag {n : Nat} (hout : Ranged us.length s.scan.out) (tag : Tag)
    (hn : s.scan.cur + n ≤ us.length) : Ranged us.length (s.openTag tag n).scan.out := by
  have hmark : Ranged us.length (s.markTag tag n).scan.out := by
    unfold markTag
    split
    · exact hout.concat (inRange_of_le tag.toId (Nat.le_add_right _ _) hn)
    · exact hout
  unfold openTag
  split
  · exact hmark
  · exact hmark

theorem ranged_closeTag {w : Bytes} (h : s.Synced us hgs) (hout : Ranged us.length s.scan.out)
    {tag : Tag} (hw : tag.pat.end = some w) (hn : s.scan.cur + w.length ≤ us.length) :
    Ranged us.length (s.closeTag tag).scan.out := by
  have hstart : (if tag.toId = groupTagId then s.scan.cur else s.tagStart) ≤
      s.scan.cur + w.length := by
    have := h.tagStart_le
    split <;> omega
  unfold closeTag
  rw [hw]
  exact hout.concat (inRange_of_le tag.toId hstart hn)

/-- A step that fits records ranges of the text. -/
theorem ranged_step (htext : e.text = javaText us before) (h : s.Synced us hgs)
    (hout : Ranged us.length s.scan.out) (hfits : Fits us.length e s) :
    Ranged us.length (step e s).scan.out := by
  have hle : s.scan.pos ≤ e.text.length := htext ▸ h.scan.here.le_length
  have hbound : ∀ n, s.scan.pos + n ≤ e.text.length → e.text.Ascii s.scan.pos n →
      s.scan.cur + n ≤ us.length := by
    rw [htext]
    exact fun n hn ha => (h.scan.here.ascii hn ha).1
  generalize hu : step e s = u
  have hmove : Move e s u := hu ▸ move_step e s
  cases hmove with
  | openTag idx tag syn n m hpc htag hsyn hm hend =>
      exact ranged_openTag hout tag (hbound n (matchRegion_le hm hle)
        (hfits.ascii.tagStart idx tag syn n m hpc htag hsyn hm hend))
  | scan tag hpc _ _ =>
      exact Scan.ranged_step (e := e.scanEnv tag) htext h.scan hout
        (fun k n u ht => hfits.ascii.pattern tag k n u hpc ht) (hfits.hg tag hpc)
  | unended tag _ _ => exact hout.concat (inRange_of_le tag.toId h.tagStart_le h.scan.here.1)
  | close tag hpc hend =>
      obtain ⟨w, hw, hstart⟩ := (Option.any_eq_true ..).mp hend
      exact ranged_closeTag h hout hw (hbound w.length (FileText.le_of_startsWith hstart hle)
        (hfits.ascii.tagEnd tag w hpc hw hstart))
  | leaveScan tag _ _ => exact hout
  | _ => exact hout

theorem out_step_faulted (h : s.Faulted) : (step e s).scan.out = s.scan.out := by
  rcases h with h | ⟨tag, hpc, hf⟩
  · rw [step_halted (.inr h)]
  · simp [step, hpc, hf]

/-- In a run whose steps fit, every recorded match is a range of the text. -/
theorem ranged_of_fits (us : List UInt16) (before : UInt8) (buf : Buf) (groups : List HlGroup)
    (hfits : ∀ s, Reaches (step (javaEnv us before buf groups))
      (init (javaEnv us before buf groups)) s →
      Fits us.length (javaEnv us before buf groups) s) :
    ∀ s, Reaches (step (javaEnv us before buf groups)) (init (javaEnv us before buf groups)) s →
      ∀ i ∈ s.scan.out, 0 ≤ i.start ∧ i.start ≤ i.stop ∧ i.stop ≤ us.length := by
  let I (s : Parse) : Prop := Inside (javaEnv us before buf groups) s ∧
    (s.Synced us (buf.patterns.map (·.hg)) ∨ s.Faulted) ∧ Ranged us.length s.scan.out
  have hinit : I (init (javaEnv us before buf groups)) := by
    refine ⟨inside_init _, .inl (synced_init us before buf groups), ?_⟩
    have hempty : (init (javaEnv us before buf groups)).scan.out = [] := by
      unfold init
      split
      · rfl
      · split <;> rfl
    rw [hempty]
    exact fun i hi => absurd hi List.not_mem_nil
  have hhgs : ∀ pat ∈ buf.patterns, pat.hg ∈ buf.patterns.map (·.hg) :=
    fun pat hp => List.mem_map_of_mem hp
  have hstep : ∀ s, Reaches (step (javaEnv us before buf groups))
      (init (javaEnv us before buf groups)) s → I s →
      I (step (javaEnv us before buf groups) s) := by
    rintro s hs ⟨hin, hsync | hf, hout⟩
    · exact ⟨inside_step hin, synced_step rfl hhgs hsync hin (hfits s hs).ascii,
        ranged_step rfl hsync hout (hfits s hs)⟩
    · exact ⟨inside_step hin, .inr (faulted_step hf), by rw [out_step_faulted hf]; exact hout⟩
  exact fun s hs => (invariant_along hinit hstep s hs).2.2

/-- In an ASCII text everything that is taken is ASCII. -/
theorem takesAscii_of_ascii (hascii : ∀ b ∈ e.text.bytes, b < 0x80) (s : Parse) :
    TakesAscii e s := by
  have hall : ∀ i n, e.text.Ascii i n := fun i n b hb =>
    hascii b (List.mem_of_mem_drop (List.mem_of_mem_take hb))
  refine ⟨?_, ?_, ?_⟩
  · exact fun _ _ n _ _ _ => hall _ n
  · exact fun _ _ _ n _ _ _ _ _ _ => hall _ n
  · exact fun _ w _ _ _ => hall _ w.length

/-- A file with a region and its `hg` attribute. -/
def regionFiles (hg : String) : Files := fun conf =>
  if conf = bytes "c" then
    some (bytes "syn region String start=\"a\" end=\"b\"" ++ bytes hg ++ bytes "\n")
  else none

def regionLoader (hg : String) : Loader :=
  (loadConf (regionFiles hg) 1 (bytes "c") .fresh .fresh).getD ⟨false, [], [], .fresh, .fresh⟩

/-- The text `ab`, with such a file. -/
def regionEnv (hg : String) : ParseEnv :=
  javaEnv [0x61, 0x62] 0 (regionLoader hg).buf (regionLoader hg).groups.items

/-- The start of the region moves to its second character. -/
def startEnv : ParseEnv := regionEnv " hg=\"s+1\""

theorem ranged_region :
    loadConf (regionFiles " hg=\"s+1\"") 1 (bytes "c") .fresh .fresh =
        some (regionLoader " hg=\"s+1\"") ∧
      (∀ s, Reaches (step startEnv) (init startEnv) s →
        ∀ i ∈ s.scan.out, 0 ≤ i.start ∧ i.start ≤ i.stop ∧ i.stop ≤ 2) ∧
      ⟨3, 1, 2⟩ ∈ ((step startEnv)^[4] (init startEnv)).scan.out := by
  have hrests : Rests (step startEnv) (init startEnv) ((step startEnv)^[6] (init startEnv)) 6 :=
    ⟨rfl, by decide +kernel, by decide +kernel⟩
  -- The region is entered behind its start.
  have hstates : ∀ n ≤ 6, ((step startEnv)^[n] (init startEnv)).scan.start = 0 ∧
      (1 ≤ ((step startEnv)^[n] (init startEnv)).scan.cur ∨
        ((step startEnv)^[n] (init startEnv)).scan.pc ∈ [.enter, .top, .item 0]) := by
    decide +kernel
  have hhg : ∀ pat ∈ startEnv.buf.patterns, hgShift pat.hg = some (.start, 1) := by decide +kernel
  refine ⟨by decide +kernel, ranged_of_fits [0x61, 0x62] 0 _ _ fun s hs => ⟨?_, ?_⟩,
    by decide +kernel⟩
  · exact takesAscii_of_ascii (e := startEnv) (by decide +kernel) s
  · intro tag _ idx pat n m m' hpc hpat _
    obtain ⟨k, hk, rfl⟩ := hrests.reaches_iff.mp hs
    obtain ⟨hstart, hcur | hmem⟩ := hstates k hk
    · rw [HgFits, hhg pat (List.mem_of_getElem? hpat), hstart]
      dsimp only
      omega
    · rw [hpc] at hmem
      simp at hmem

/-- The end of the region moves before its start. -/
theorem hg_not_ranged :
    loadConf (regionFiles " hg=\"e-9\"") 1 (bytes "c") .fresh .fresh =
        some (regionLoader " hg=\"e-9\"") ∧
      ¬∀ s, Reaches (step (regionEnv " hg=\"e-9\"")) (init (regionEnv " hg=\"e-9\"")) s →
        ∀ i ∈ s.scan.out, 0 ≤ i.start ∧ i.start ≤ i.stop ∧ i.stop ≤ 2 := by
  refine ⟨by decide +kernel, fun h => ?_⟩
  -- Four steps: enter, find no keyword, take the start, take the end.
  have hrange := h _ ⟨4, rfl⟩ ⟨3, 0, -7⟩ (by decide +kernel)
  exact absurd hrange.2.1 (by decide)

end Parse

end HapAndroid.Highlight
