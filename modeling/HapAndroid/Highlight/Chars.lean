import Mathlib.Data.List.TakeWhile
import HapAndroid.Lib.ModifiedUtf8
import HapAndroid.Highlight.Match

/-!
# Texts from Java

A Java string arrives as modified UTF-8.  At the boundary of a unit `utfc_ptr2len` is
the length of that unit (`utfcPtr2len_boundary`), so stepping by characters visits the
boundaries.  The character classes of the scanner are ASCII.
-/

namespace HapAndroid.Highlight

open ModifiedUtf8

/-- A Java string in memory. -/
def javaText (us : List UInt16) (before : UInt8) : FileText :=
  ⟨encode us, zero_notMem_encode us, before⟩

section
variable {t : FileText} {i n : Nat}

theorem FileText.byte_add (t : FileText) (i j : Nat) : t.byte (i + j) = (t.rest i).getD j 0 := by
  simp [FileText.byte, FileText.rest, List.getD_eq_getElem?_getD, List.getElem?_drop]

/-- The next `n` bytes are ASCII. -/
def FileText.Ascii (t : FileText) (i n : Nat) : Prop := ∀ b ∈ (t.rest i).take n, b < 0x80

theorem FileText.take_run (t : FileText) (p : UInt8 → Bool) (i : Nat) :
    (t.rest i).take (t.run p i) = (t.rest i).takeWhile p :=
  (List.prefix_iff_eq_take.mp (List.takeWhile_prefix p)).symm

/-- A run of an ASCII class is ASCII. -/
theorem FileText.ascii_run {p : UInt8 → Bool} (hp : ∀ b, p b = true → b < 0x80) :
    t.Ascii i (t.run p i) := by
  intro b hb
  rw [t.take_run] at hb
  exact hp b (List.mem_takeWhile_imp hb)

theorem FileText.ascii_one (h : t.byte i < 0x80) : t.Ascii i 1 := by
  rw [t.byte_eq_headD] at h
  intro b hb
  cases hr : t.rest i with
  | nil =>
      rw [hr] at hb
      simp at hb
  | cons c cs =>
      rw [hr] at hb h
      rw [List.mem_singleton.mp hb]
      exact h

/-- At the end of the text nothing follows. -/
theorem FileText.ascii_end (h : t.byte i = 0) : t.Ascii i n := by
  have hle : t.bytes.length ≤ i := Nat.le_of_not_lt fun hlt => FileText.byte_ne_zero hlt h
  intro b hb
  rw [FileText.rest, List.drop_eq_nil_of_le hle] at hb
  simp at hb

theorem isWhite_ascii {b : UInt8} (h : isWhite b = true) : b < 0x80 := by
  simp only [isWhite, Bool.or_eq_true, beq_iff_eq] at h
  rcases h with rfl | rfl <;> decide

theorem isBlank_ascii {b : UInt8} (h : isBlank b = true) : b < 0x80 := by
  simp only [isBlank, isBreak, Bool.or_eq_true, beq_iff_eq] at h
  rcases h with h | rfl | rfl
  · exact isWhite_ascii h
  · decide
  · decide

theorem isKeyword_ascii {b : UInt8} (h : isKeyword b = true) : b < 0x80 := by
  simp only [isKeyword, isAlpha, Bool.or_eq_true, Bool.and_eq_true, decide_eq_true_eq,
    beq_iff_eq] at h
  rcases h with ((⟨-, h⟩ | ⟨-, h⟩) | ⟨-, h⟩) | rfl
  · exact UInt8.lt_of_le_of_lt h (by decide)
  · exact UInt8.lt_of_le_of_lt h (by decide)
  · exact UInt8.lt_of_le_of_lt h (by decide)
  · decide

end

/-! ## Characters -/

theorem isTrail_of_trail {c : UInt8} (h : Trail c) : isTrail c = true :=
  forall_byte (P := fun c => 0x80 ≤ c → c < 0xC0 → isTrail c = true) (by decide +kernel) c h.1 h.2

theorem ne_zero_of_le {b m : UInt8} (h : m ≤ b) (hm : 0 < m) : b ≠ 0 := by
  rintro rfl
  exact absurd (UInt8.lt_of_lt_of_le hm h) (UInt8.lt_irrefl 0)

/-- The length of a character at the front of a unit. -/
theorem utfcPtr2len_form {t : FileText} {i : Nat} {unit more : Bytes} (h : Form unit)
    (hrest : t.rest i = unit ++ more) : utfcPtr2len t i = unit.length := by
  have hbyte : ∀ j, t.byte (i + j) = (unit ++ more).getD j 0 := fun j => hrest ▸ t.byte_add i j
  have hlt : ∀ {b m : UInt8}, m ≤ b → ¬ b < m := fun h => UInt8.not_lt.mpr h
  cases h with
  | one b hb hascii =>
      have h0 : t.byte i = b := hbyte 0
      have htab : utf8lenTab b = 1 := if_pos (UInt8.lt_trans hascii (by decide))
      rw [utfcPtr2len, utfPtr2len, h0, if_neg hb, if_neg hb, htab]
      split <;> simp
  | two b c hle hb hc =>
      have h0 : t.byte i = b := hbyte 0
      have h1 : t.byte (i + 1) = c := hbyte 1
      have hne : b ≠ 0 := ne_zero_of_le hle (by decide)
      have hb80 : ¬ b < 0x80 := fun h => hlt hle (UInt8.lt_trans h (by decide))
      have htab : utf8lenTab b = 2 := by rw [utf8lenTab, if_neg (hlt hle), if_pos hb]
      rw [utfcPtr2len, utfPtr2len, h0, if_neg hne, if_neg hne, htab]
      simp [hb80, h1, isTrail_of_trail hc]
  | three b c d hle hb hc hd =>
      have h0 : t.byte i = b := hbyte 0
      have h1 : t.byte (i + 1) = c := hbyte 1
      have h2 : t.byte (i + 1 + 1) = d := hbyte 2
      have hne : b ≠ 0 := ne_zero_of_le hle (by decide)
      have hC0 : ¬ b < 0xC0 := fun h => hlt hle (UInt8.lt_trans h (by decide))
      have hb80 : ¬ b < 0x80 := fun h => hC0 (UInt8.lt_trans h (by decide))
      have htab : utf8lenTab b = 3 := by
        rw [utf8lenTab, if_neg hC0, if_neg (hlt hle), if_pos hb]
      rw [utfcPtr2len, utfPtr2len, h0, if_neg hne, if_neg hne, htab]
      simp [List.range_succ, hb80, h1, h2, isTrail_of_trail hc, isTrail_of_trail hd]

section
variable {t : FileText} {i : Nat}

theorem utf8lenTab_pos (b : UInt8) : 0 < utf8lenTab b := by
  unfold utf8lenTab
  split_ifs <;> simp

/-- A character is one byte, or it has continuation bytes behind its first one. -/
theorem utfcPtr2len_cases (h : t.byte i ≠ 0) : utfcPtr2len t i = 1 ∨
    2 ≤ utfcPtr2len t i ∧ ∀ j < utfcPtr2len t i - 1, isTrail (t.byte (i + 1 + j)) = true := by
  rw [utfcPtr2len, if_neg h]
  split
  · exact .inl rfl
  · rw [utfPtr2len, if_neg h]
    dsimp only
    split
    · next htrail =>
      have hpos := utf8lenTab_pos (t.byte i)
      rcases Nat.lt_or_ge (utf8lenTab (t.byte i)) 2 with hlen | hlen
      · exact .inl (by omega)
      · exact .inr ⟨hlen, fun j hj => List.all_eq_true.mp htrail j (List.mem_range.mpr hj)⟩
    · exact .inl rfl

/-- A character has a byte. -/
theorem utfcPtr2len_pos (h : t.byte i ≠ 0) : 0 < utfcPtr2len t i := by
  rcases utfcPtr2len_cases h with hone | ⟨hlen, -⟩ <;> omega

/-- Continuation bytes do not reach over a zero byte. -/
theorem lt_of_trail {read : Nat → UInt8} {p n stop : Nat} (hp : p < stop) (h0 : read stop = 0)
    (h : ∀ j < n, isTrail (read (p + 1 + j)) = true) : p + n < stop := by
  by_contra hge
  have hlast := h (stop - (p + 1)) (by omega)
  rw [Nat.add_sub_cancel' hp, h0] at hlast
  cases hlast

/-- A character ends inside the text: its other bytes are not zero. -/
theorem utfcPtr2len_le (h : t.byte i ≠ 0) : i + utfcPtr2len t i ≤ t.length := by
  have hlt : i < t.length := FileText.lt_length h
  rcases utfcPtr2len_cases h with hone | ⟨hlen, htrail⟩
  · omega
  · have hend : t.byte t.length = 0 := List.getD_eq_default _ _ (Nat.le_refl _)
    have := lt_of_trail hlt hend htrail
    omega

/-- A run that starts is not empty. -/
theorem FileText.run_pos {p : UInt8 → Bool} (h : p (t.byte i) = true) (h0 : t.byte i ≠ 0) :
    0 < t.run p i := by
  rw [t.byte_eq_headD] at h h0
  unfold FileText.run
  cases hr : t.rest i with
  | nil => simp [hr] at h0
  | cons c cs =>
      have hc : p c = true := by rwa [hr] at h
      rw [List.takeWhile_cons_of_pos hc]
      exact Nat.succ_pos _

end

variable {us : List UInt16} {before : UInt8} {pos k : Nat}

/-- Stepping by a character leads from boundary to boundary. -/
theorem utfcPtr2len_boundary (h : Boundary us pos k) (h0 : (javaText us before).byte pos ≠ 0) :
    Boundary us (pos + utfcPtr2len (javaText us before) pos) (k + 1) := by
  have hk : k < us.length := h.lt_length (FileText.lt_length h0)
  have hrest : (javaText us before).rest pos = encodeUnit us[k] ++ encode (us.drop (k + 1)) :=
    h.drop_unit hk
  rw [utfcPtr2len_form (form_encodeUnit us[k]) hrest]
  exact h.succ hk

end HapAndroid.Highlight
