import Mathlib.Data.List.Chain
import HapAndroid.Lib.Machine
import HapAndroid.Highlight.Scan

/-!
# Recorded matches are ordered

The six places that record a match use the shared `start_offset`.  Outside of a region
everything recorded ends at or before `cur_offset`; inside of one it ends at or before
`start_offset`, which does not change until the region is recorded.  Nothing is said of
an `hg` correction, which moves one end of a match freely.
-/

namespace HapAndroid.Highlight

open Machine

/-- The records follow each other, and the last ends at or before `bound`. -/
structure Ordered (out : List Item) (bound : Int) : Prop where
  span : ∀ i ∈ out, i.start ≤ i.stop
  chain : out.IsChain fun i j => i.stop ≤ j.start
  last : ∀ i ∈ out.getLast?, i.stop ≤ bound

theorem Ordered.nil (bound : Int) : Ordered [] bound := ⟨by simp, by simp, by simp⟩

theorem Ordered.mono {out : List Item} {b b' : Int} (h : Ordered out b) (hb : b ≤ b') :
    Ordered out b' :=
  ⟨h.span, h.chain, fun i hi => Int.le_trans (h.last i hi) hb⟩

/-- A record that starts where the others may end. -/
theorem Ordered.snoc {out : List Item} {start stop : Int} (g : Nat) (h : Ordered out start)
    (hle : start ≤ stop) : Ordered (out ++ [⟨g, start, stop⟩]) stop where
  span := by
    intro i hi
    rcases List.mem_append.mp hi with hi | hi
    · exact h.span i hi
    · rw [List.mem_singleton.mp hi]
      exact hle
  chain := List.isChain_append.mpr ⟨h.chain, by simp, by simpa using h.last⟩
  last := by simp

namespace Scan

variable {e : ScanEnv} {s t : Scan}

/-- Where the records may end: the start of the region that is being read, or here. -/
def bound (s : Scan) : Nat :=
  match s.pc with
  | .region _ _ => s.start
  | _ => s.cur

/-- The invariant. -/
structure Tidy (s : Scan) : Prop where
  ordered : Ordered s.out s.bound
  le_cur : s.bound ≤ s.cur

theorem bound_region {idx : Nat} {second : Bool} (h : s.pc = .region idx second) :
    s.bound = s.start := by
  rw [bound, h]

theorem bound_of_not_region (h : ∀ idx second, s.pc ≠ .region idx second) : s.bound = s.cur := by
  unfold bound
  split
  · next idx second hpc => exact absurd hpc (h idx second)
  · rfl

/-- Outside of a region the records end at or before the offset. -/
theorem tidy_of_cur (hpc : ∀ idx second, s.pc ≠ .region idx second) (h : Ordered s.out s.cur) :
    s.Tidy := by
  have hb := bound_of_not_region hpc
  exact ⟨hb ▸ h, Nat.le_of_eq hb⟩

theorem Tidy.ordered_cur (h : s.Tidy) : Ordered s.out s.cur :=
  h.ordered.mono (Int.ofNat_le.mpr h.le_cur)

theorem Tidy.region {idx : Nat} {second : Bool} (h : s.Tidy) (hpc : s.pc = .region idx second) :
    Ordered s.out s.start ∧ s.start ≤ s.cur := by
  obtain ⟨ho, hle⟩ := h
  rw [bound_region hpc] at ho hle
  exact ⟨ho, hle⟩

/-- Moving on inside a region. -/
theorem Tidy.move_region {u : Scan} {idx idx' : Nat} {second second' : Bool} (h : s.Tidy)
    (hpc : s.pc = .region idx second) (hu : u.pc = .region idx' second') (hout : u.out = s.out)
    (hstart : u.start = s.start) (hcur : s.cur ≤ u.cur) : u.Tidy := by
  obtain ⟨ho, hle⟩ := h.region hpc
  refine ⟨?_, ?_⟩
  · rw [bound_region hu, hout, hstart]
    exact ho
  · rw [bound_region hu, hstart]
    exact Nat.le_trans hle hcur

/-- Moving on outside of a region. -/
theorem Tidy.move {u : Scan} (h : s.Tidy) (hu : ∀ idx second, u.pc ≠ .region idx second)
    (hout : u.out = s.out) (hcur : s.cur ≤ u.cur) : u.Tidy :=
  tidy_of_cur hu (hout ▸ h.ordered_cur.mono (Int.ofNat_le.mpr hcur))

theorem Tidy.record (h : s.Tidy) (g n : Nat) : Ordered (s.record g n).out (s.record g n).cur :=
  h.ordered_cur.snoc g (Int.ofNat_le.mpr (Nat.le_add_right s.cur n))

theorem Tidy.cutRegion {idx : Nat} {second : Bool} {pat : SynPat} (h : s.Tidy)
    (hpc : s.pc = .region idx second) : Ordered (s.cutRegion pat).out s.cur :=
  (h.region hpc).1.snoc pat.fromId (Int.ofNat_le.mpr (h.region hpc).2)

theorem tidy_takes {k : Taker} {n : Nat} {u : Scan} (hhg : ∀ pat ∈ e.buf.patterns, pat.hg = none)
    (h : s.Tidy) (ht : Takes e s k n u) : u.Tidy := by
  cases ht with
  | item idx pat n m hpc _ _ _ _ =>
      have hs : (s.store m).Tidy := h.move (by simp [hpc]) rfl (by simp)
      exact tidy_of_cur (by simp) (hs.record pat.fromId n)
  | start idx pat n m' m _ _ _ _ _ _ =>
      -- The region starts here: the records end before its start.
      exact ⟨h.ordered_cur, Nat.le_add_right s.cur n⟩
  | skip idx second pat n m hpc _ _ _ => exact h.move_region hpc hpc rfl rfl (by simp)
  | firstEnd idx pat n m' m hpc _ _ _ _ =>
      exact h.move_region hpc rfl rfl rfl (by simp)
  | close idx pat n m' m os oe hpc hpat _ _ _ hadj =>
      rw [hhg pat (List.mem_of_getElem? hpat)] at hadj
      cases hadj
      obtain ⟨ho, hle⟩ := h.region hpc
      refine tidy_of_cur (by simp) (ho.snoc pat.fromId (Int.ofNat_le.mpr ?_))
      exact Nat.le_trans hle (Nat.le_add_right s.cur n)

theorem tidy_step (hhg : ∀ pat ∈ e.buf.patterns, pat.hg = none) (h : s.Tidy) :
    (step e s).Tidy ∨ (step e s).pc = .fault := by
  -- The step is replaced by its move; a fault needs nothing.
  generalize hu : step e s = u
  have hmove : Move e s u := hu ▸ move_step e s
  cases hmove with
  | fault _ hf _ _ => exact .inr hf
  | halt _ => exact .inl h
  | leave _ _ => exact .inl (h.move (by simp) rfl (by simp))
  | enter _ _ => exact .inl (h.move (by simp) rfl (by simp))
  | blank hpc _ => exact .inl (h.move (by simp [hpc]) rfl (by simp))
  | keyword n g hpc _ _ => exact .inl (tidy_of_cur (by simp [Scan.record, hpc]) (h.record g n))
  | loop n hpc _ => exact .inl (h.move (by simp [hpc]) rfl (by simp))
  | search _ _ => exact .inl (h.move (by simp only [goto_pc]; split <;> simp) rfl (by simp))
  | word _ _ _ => exact .inl (h.move (by simp) rfl (by simp))
  | noWord _ _ => exact .inl (h.move (by simp) rfl (by simp))
  | next _ _ _ _ _ _ => exact .inl (h.move (by simp) rfl (by simp))
  | takes k n u ht => exact .inl (tidy_takes hhg h ht)
  | unclosed idx second pat hpc _ _ => exact .inl (tidy_of_cur (by simp) (h.cutRegion hpc))
  | cut idx second pat m hpc _ _ _ =>
      have hs : (s.store m).Tidy := h.move_region hpc (u := s.store m) hpc rfl rfl (Nat.le_refl _)
      exact .inl (tidy_of_cur (by simp) (hs.cutRegion hpc))
  | regionChar idx second m hpc _ =>
      exact .inl (h.move_region hpc (u := (s.store m).char e.text) hpc rfl rfl (by simp))
  | advance _ _ => exact .inl (h.move (by simp) rfl (by simp))

/-- In every state of a run the records are ordered, unless the run has left its
memory. -/
theorem tidy_of_reaches (hhg : ∀ pat ∈ e.buf.patterns, pat.hg = none) (h : s.Tidy)
    (hrun : Reaches (step e) s t) : t.Tidy ∨ t.pc = .fault := by
  refine hrun.invariant (I := fun t => t.Tidy ∨ t.pc = .fault) ?_ (.inl h)
  rintro t (ht | hf)
  · exact tidy_step hhg ht
  · rw [step_halted (.inr hf)]
    exact .inr hf

/-- When `scan_syntax` returns, its records follow each other and end at or before the
offset it has reached.  Tags make no difference. -/
theorem scan_ordered (hhg : ∀ pat ∈ e.buf.patterns, pat.hg = none) (hpc : s.pc = .enter)
    (hout : s.out = []) (hrun : Reaches (step e) s t) (hstop : t.pc = .stop) :
    Ordered t.out t.cur := by
  have hs : s.Tidy := tidy_of_cur (by simp [hpc]) (hout ▸ Ordered.nil s.cur)
  rcases tidy_of_reaches hhg hs hrun with ht | hf
  · exact ht.ordered_cur
  · exact absurd (hstop.symm.trans hf) (by simp)

/-- The keyword `if` and comments from `//` to the end of the line. -/
def commentBuf : Buf :=
  ⟨[(Highlight.bytes "if", 7)], [],
    [⟨some (Highlight.bytes "//"), none, some (Highlight.bytes "$"), none, none, none, none, 8⟩]⟩

/-- A text that ends in a comment without a line end. -/
def commentEnv : ScanEnv := ⟨⟨Highlight.bytes "if //x", by decide +kernel, 0⟩, commentBuf, none⟩

def commentScan : Scan := ⟨.enter, 0, 0, 0, [], []⟩

theorem scan_ordered_comment :
    ((step commentEnv)^[11] commentScan).out = [⟨7, 0, 2⟩, ⟨8, 3, 6⟩] ∧
      Ordered ((step commentEnv)^[11] commentScan).out ((step commentEnv)^[11] commentScan).cur :=
  ⟨by decide +kernel, scan_ordered (by decide +kernel) rfl rfl ⟨11, rfl⟩ (by decide +kernel)⟩

end Scan

end HapAndroid.Highlight
