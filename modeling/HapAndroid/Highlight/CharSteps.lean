import HapAndroid.Lib.Machine
import HapAndroid.Highlight.Chars

/-!
# Stepping by characters (`mbyte.c`)

The functions of `mbyte.c` on a C string as it lies in memory, with anything behind its
zero byte.  What is behind makes no difference (`utfcPtr2len2_eq`): a continuation byte is
not zero, so the loop of `utf_ptr2len` ends there.

`advance_exact`: stepping by `utfc_ptr2len` from the start of a string stays in it and comes
to rest on its zero byte, in at most as many steps as it has bytes.  A string from Java is
stepped over unit by unit.
-/

namespace HapAndroid.Highlight

open Machine ModifiedUtf8

/-- `utf_ptr2len`, at a place in memory. -/
def utfPtr2lenAt (mem : Nat → UInt8) (p : Nat) : Nat :=
  if mem p = 0 then 0
  else
    let len := utf8lenTab (mem p)
    if (List.range (len - 1)).all fun j => isTrail (mem (p + 1 + j)) then len else 1

/-- `utfc_ptr2len2`. -/
def utfcPtr2len2 (mem : Nat → UInt8) (p : Nat) : Nat :=
  if mem p = 0 then 0
  else if mem p < 0x80 && mem (p + 1) < 0x80 then 1
  else
    let len := utfPtr2lenAt mem p
    if len = 1 ∧ 0x80 ≤ mem p then 1 else len

/-- A string in memory. -/
structure CString where
  /-- The bytes from the start of the string on. -/
  mem : Nat → UInt8
  /-- The place of the first zero byte. -/
  stop : Nat
  mem_stop : mem stop = 0
  mem_ne_zero : ∀ i < stop, mem i ≠ 0

namespace CString

variable (s : CString)

def bytes : Bytes := (List.range s.stop).map s.mem

/-- The step `p += utfc_ptr2len(p)`. -/
def advance (p : Nat) : Nat := p + utfcPtr2len2 s.mem p

/-! ## The string without its surroundings -/

theorem zero_notMem_bytes : (0 : UInt8) ∉ s.bytes := by
  intro h
  obtain ⟨i, hi, h0⟩ := List.mem_map.mp h
  exact s.mem_ne_zero i (List.mem_range.mp hi) h0

/-- The text that ends with the string. -/
def text : FileText := ⟨s.bytes, s.zero_notMem_bytes, 0⟩

@[simp] theorem length_text : s.text.length = s.stop := by
  simp [text, FileText.length, bytes]

theorem byte_text {i : Nat} (h : i ≤ s.stop) : s.text.byte i = s.mem i := by
  rcases Nat.lt_or_eq_of_le h with hlt | rfl
  · simp [FileText.byte, text, bytes, List.getD_eq_getElem?_getD, hlt]
  · rw [s.mem_stop]
    simp [FileText.byte, text, bytes, List.getD_eq_getElem?_getD]

end CString

/-- The loop of `utf_ptr2len` does the same on memory that is the same up to a zero byte. -/
theorem trail_congr {read read' : Nat → UInt8} {p n stop : Nat} (hp : p < stop)
    (h0 : read stop = 0) (hread : ∀ i ≤ stop, read i = read' i)
    (h : ∀ j < n, isTrail (read (p + 1 + j)) = true) :
    ∀ j < n, isTrail (read' (p + 1 + j)) = true := by
  have hlt := lt_of_trail hp h0 h
  intro j hj
  rw [← hread (p + 1 + j) (by omega)]
  exact h j hj

namespace CString

variable {s : CString} {p : Nat}

/-- What is behind the string makes no difference. -/
theorem utfPtr2lenAt_eq (hp : p ≤ s.stop) : utfPtr2lenAt s.mem p = utfPtr2len s.text p := by
  rw [utfPtr2lenAt, utfPtr2len, s.byte_text hp]
  split
  · rfl
  · next hne =>
    have hlt : p < s.stop := Nat.lt_of_le_of_ne hp fun h => hne (h ▸ s.mem_stop)
    have hstop : s.text.byte s.stop = 0 := (s.byte_text (Nat.le_refl _)).trans s.mem_stop
    have hiff : ((List.range (utf8lenTab (s.mem p) - 1)).all fun j =>
          isTrail (s.mem (p + 1 + j))) =
        (List.range (utf8lenTab (s.mem p) - 1)).all fun j => isTrail (s.text.byte (p + 1 + j)) := by
      rw [Bool.eq_iff_iff, List.all_eq_true, List.all_eq_true]
      simp only [List.mem_range]
      exact ⟨trail_congr hlt s.mem_stop fun i hi => (s.byte_text hi).symm,
        trail_congr hlt hstop fun i hi => s.byte_text hi⟩
    dsimp only
    rw [hiff]

theorem utfcPtr2len2_eq (hp : p ≤ s.stop) : utfcPtr2len2 s.mem p = utfcPtr2len s.text p := by
  rw [utfcPtr2len2, utfcPtr2len, s.byte_text hp]
  split
  · rfl
  · next hne =>
    have hlt : p < s.stop := Nat.lt_of_le_of_ne hp fun h => hne (h ▸ s.mem_stop)
    rw [s.byte_text hlt, utfPtr2lenAt_eq hp]
    split
    · rfl
    · -- The check for an illegal byte returns the length that it has found.
      dsimp only
      split
      · next h => exact h.1.symm
      · rfl

/-! ## The steps -/

theorem advance_eq (hp : p ≤ s.stop) : s.advance p = p + utfcPtr2len s.text p := by
  rw [advance, utfcPtr2len2_eq hp]

theorem advance_stop (s : CString) : s.advance s.stop = s.stop := by
  rw [advance, utfcPtr2len2, if_pos s.mem_stop, Nat.add_zero]

theorem byte_text_ne_zero (hp : p < s.stop) : s.text.byte p ≠ 0 := by
  rw [s.byte_text (Nat.le_of_lt hp)]
  exact s.mem_ne_zero p hp

theorem lt_advance (hp : p < s.stop) : p < s.advance p := by
  have hpos := utfcPtr2len_pos (byte_text_ne_zero hp)
  rw [advance_eq (Nat.le_of_lt hp)]
  omega

theorem advance_le (hp : p ≤ s.stop) : s.advance p ≤ s.stop := by
  rcases Nat.lt_or_eq_of_le hp with hlt | rfl
  · have hle := utfcPtr2len_le (byte_text_ne_zero hlt)
    rw [length_text] at hle
    rwa [advance_eq hp]
  · rw [advance_stop]

/-- The steps stay in the string. -/
theorem le_of_reaches {q : Nat} (hp : p ≤ s.stop) (h : Reaches s.advance p q) : q ≤ s.stop :=
  h.invariant (I := (· ≤ s.stop)) (fun _ => advance_le) hp

/-- They come to rest on the zero byte, each of them over a byte at least. -/
theorem exists_rests_stop (s : CString) : ∃ n ≤ s.stop, Rests s.advance 0 s.stop n := by
  have hfall : ∀ q, Reaches s.advance 0 q → s.advance q ≠ q →
      s.stop - s.advance q < s.stop - q := by
    intro q hq hmove
    have hle := le_of_reaches (Nat.zero_le _) hq
    have hlt : q < s.stop := Nat.lt_of_le_of_ne hle fun h => hmove (h ▸ s.advance_stop)
    have := lt_advance hlt
    omega
  obtain ⟨n, hn, q, hrest⟩ := exists_rests (fun q => s.stop - q) hfall
  have hle := le_of_reaches (Nat.zero_le _) ⟨n, hrest.reached⟩
  -- Before the zero byte a step moves.
  have hstop : q = s.stop := by
    by_contra hne
    exact absurd hrest.fixed (Nat.ne_of_gt (lt_advance (Nat.lt_of_le_of_ne hle hne)))
  exact ⟨n, hn, hstop ▸ hrest⟩

/-! ## Strings from Java -/

section
variable {us : List UInt16}

theorem stop_eq_length (h : s.bytes = encode us) : s.stop = (encode us).length := by
  rw [← h, bytes, List.length_map, List.length_range]

theorem text_eq_javaText (h : s.bytes = encode us) : s.text = javaText us 0 := by
  simp only [text, javaText, h]

/-- After `k` steps the first `k` units are behind. -/
theorem boundary_advance (h : s.bytes = encode us) {k : Nat} (hk : k ≤ us.length) :
    Boundary us (s.advance^[k] 0) k := by
  induction k with
  | zero => exact boundary_zero us
  | succ k ih =>
      have hb := ih (Nat.le_of_succ_le hk)
      have hlt : s.advance^[k] 0 < s.stop := stop_eq_length h ▸ hb.lt_encode hk
      have h0 := byte_text_ne_zero hlt
      rw [Function.iterate_succ_apply', advance_eq (Nat.le_of_lt hlt)]
      rw [text_eq_javaText h] at h0 ⊢
      exact utfcPtr2len_boundary hb h0

/-- The steps over a string from Java are as many as its units. -/
theorem rests_units (h : s.bytes = encode us) : Rests s.advance 0 s.stop us.length := by
  refine ⟨?_, s.advance_stop, fun k hk => ?_⟩
  · rw [(boundary_advance h (Nat.le_refl _)).2, List.take_length, stop_eq_length h]
  · have hlt := (boundary_advance h (Nat.le_of_lt hk)).lt_encode hk
    rw [← stop_eq_length h] at hlt
    rw [Function.iterate_succ_apply']
    exact Nat.ne_of_gt (lt_advance hlt)

/-- They visit the boundaries of its units. -/
theorem reaches_iff_boundary (h : s.bytes = encode us) {pos : Nat} :
    Reaches s.advance 0 pos ↔ ∃ k, Boundary us pos k := by
  rw [(rests_units h).reaches_iff]
  constructor
  · rintro ⟨k, hk, rfl⟩
    exact ⟨k, boundary_advance h hk⟩
  · rintro ⟨k, hk, rfl⟩
    exact ⟨k, hk, (boundary_advance h hk).2⟩

end

/-- Stepping from the start of a string stays in it and comes to rest on its zero byte, in at
most as many steps as it has bytes; over a string from Java it takes a step for each unit and
visits the boundaries of the units. -/
theorem advance_exact (s : CString) :
    (∀ pos, Reaches s.advance 0 pos → pos ≤ s.stop) ∧
    (∃ n ≤ s.bytes.length, Rests s.advance 0 s.stop n) ∧
    ∀ us, s.bytes = encode us →
      Rests s.advance 0 s.stop us.length ∧
      ∀ pos, Reaches s.advance 0 pos ↔ ∃ k, Boundary us pos k := by
  refine ⟨fun pos h => le_of_reaches (Nat.zero_le _) h, ?_, fun us h => ?_⟩
  · rw [bytes, List.length_map, List.length_range]
    exact s.exists_rests_stop
  · exact ⟨rests_units h, fun pos => reaches_iff_boundary h⟩

/-- A letter, the unit 0 in its two bytes and a pair of surrogates, with continuation bytes
behind the end. -/
def surrogateBytes (i : Nat) : UInt8 :=
  [0x41, 0xC0, 0x80, 0xED, 0xA0, 0xBD, 0xED, 0xB8, 0x80, 0x00].getD i 0xBF

theorem surrogateBytes_ne_zero : ∀ i < 9, surrogateBytes i ≠ 0 := by decide

def surrogateString : CString := ⟨surrogateBytes, 9, rfl, surrogateBytes_ne_zero⟩

theorem advance_exact_surrogates :
    surrogateString.bytes = encode [0x41, 0, 0xD83D, 0xDE00] ∧
    Rests surrogateString.advance 0 9 4 ∧ ¬ Reaches surrogateString.advance 0 2 := by
  have hbytes : surrogateString.bytes = encode [0x41, 0, 0xD83D, 0xDE00] := by decide
  obtain ⟨hrest, hiff⟩ := (advance_exact surrogateString).2.2 _ hbytes
  refine ⟨hbytes, hrest, fun h => ?_⟩
  -- No number of units takes two bytes.
  obtain ⟨k, hk, hpos⟩ := (hiff 2).mp h
  exact (show ∀ k ≤ 4, 2 ≠ (encode ([0x41, 0, 0xD83D, 0xDE00].take k)).length by decide) k hk hpos

end CString

end HapAndroid.Highlight
