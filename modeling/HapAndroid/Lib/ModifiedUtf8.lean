import Mathlib.Data.List.Basic

/-!
# Modified UTF-8

The encoding in which a string of 16-bit units is handed to native code: every unit
takes one to three bytes on its own, a surrogate like any other, and the unit 0 takes
two, so that no byte is zero.

`Boundary us pos k` says that the first `k` units take `pos` bytes.  Two rules move a
boundary: by a unit (`Boundary.succ`), and by a number of bytes that are all ASCII
(`Boundary.ascii`).  The second has a converse (`Boundary.ascii_of_add`): bytes and units
advance by the same number over ASCII only.
-/

namespace ModifiedUtf8

/-- The bytes of a unit. -/
def encodeUnit (u : UInt16) : List UInt8 :=
  if 0 < u.toNat ∧ u.toNat < 0x80 then [.ofNat u.toNat]
  else if u.toNat < 0x800 then [.ofNat (0xC0 + u.toNat / 64), .ofNat (0x80 + u.toNat % 64)]
  else [.ofNat (0xE0 + u.toNat / 4096), .ofNat (0x80 + u.toNat / 64 % 64),
    .ofNat (0x80 + u.toNat % 64)]

def encode (us : List UInt16) : List UInt8 := us.flatMap encodeUnit

/-- A byte inside of a unit. -/
def Trail (b : UInt8) : Prop := 0x80 ≤ b ∧ b < 0xC0

/-- The three forms of a unit. -/
inductive Form : List UInt8 → Prop
  | one (b : UInt8) : b ≠ 0 → b < 0x80 → Form [b]
  | two (b c : UInt8) : 0xC0 ≤ b → b < 0xE0 → Trail c → Form [b, c]
  | three (b c d : UInt8) : 0xE0 ≤ b → b < 0xF0 → Trail c → Trail d → Form [b, c, d]

theorem toNat_ofNat_lt {n : Nat} (h : n < 256) : (UInt8.ofNat n).toNat = n := by
  rw [UInt8.toNat_ofNat']
  exact Nat.mod_eq_of_lt h

theorem trail_ofNat {n : Nat} (h : n < 64) : Trail (.ofNat (0x80 + n)) := by
  have hn := toNat_ofNat_lt (show 0x80 + n < 256 by omega)
  constructor
  · rw [UInt8.le_iff_toNat_le, hn]
    simp
  · rw [UInt8.lt_iff_toNat_lt, hn]
    simp
    omega

theorem form_encodeUnit (u : UInt16) : Form (encodeUnit u) := by
  have hu : u.toNat < 65536 := u.toNat_lt
  unfold encodeUnit
  split
  · next h =>
    have hn := toNat_ofNat_lt (show u.toNat < 256 by omega)
    refine .one _ ?_ ?_
    · intro h0
      rw [h0] at hn
      simp at hn
      omega
    · rw [UInt8.lt_iff_toNat_lt, hn]
      exact h.2
  · split
    · next h =>
      have hn := toNat_ofNat_lt (show 0xC0 + u.toNat / 64 < 256 by omega)
      refine .two _ _ ?_ ?_ (trail_ofNat (Nat.mod_lt _ (by simp)))
      · rw [UInt8.le_iff_toNat_le, hn]
        simp
      · rw [UInt8.lt_iff_toNat_lt, hn]
        simp
        omega
    · have hn := toNat_ofNat_lt (show 0xE0 + u.toNat / 4096 < 256 by omega)
      refine .three _ _ _ ?_ ?_ (trail_ofNat (Nat.mod_lt _ (by simp)))
        (trail_ofNat (Nat.mod_lt _ (by simp)))
      · rw [UInt8.le_iff_toNat_le, hn]
        simp
      · rw [UInt8.lt_iff_toNat_lt, hn]
        simp
        omega

theorem Form.length_pos {bs : List UInt8} (h : Form bs) : 0 < bs.length := by
  cases h <;> simp

/-- A unit has one byte when it starts with an ASCII byte. -/
theorem Form.length_eq_one {bs : List UInt8} (h : Form bs) (hb : bs.headD 0 < 0x80) :
    bs.length = 1 := by
  cases h with
  | one => rfl
  | two b c hle _ _ =>
      have hb : b < 0x80 := hb
      rw [UInt8.lt_iff_toNat_lt] at hb
      rw [UInt8.le_iff_toNat_le] at hle
      simp at hb hle
      omega
  | three b c d hle _ _ _ =>
      have hb : b < 0x80 := hb
      rw [UInt8.lt_iff_toNat_lt] at hb
      rw [UInt8.le_iff_toNat_le] at hle
      simp at hb hle
      omega

theorem Form.ascii {bs : List UInt8} (h : Form bs) (hlen : bs.length = 1) : ∀ b ∈ bs, b < 0x80 := by
  cases h with
  | one b _ hb => simpa using hb
  | two => simp at hlen
  | three => simp at hlen

theorem Trail.ne_zero {b : UInt8} (h : Trail b) : 0 ≠ b := by
  rintro rfl
  exact absurd h.1 (by decide)

theorem Form.zero_notMem {bs : List UInt8} (h : Form bs) : (0 : UInt8) ∉ bs := by
  have hlead : ∀ {b m : UInt8}, m ≤ b → 0 < m → 0 ≠ b := by
    rintro b m hle hm rfl
    exact absurd (UInt8.lt_of_lt_of_le hm hle) (UInt8.lt_irrefl 0)
  cases h with
  | one b hb _ => simpa using hb.symm
  | two b c hb _ hc => simp [hlead hb (by decide), hc.ne_zero]
  | three b c d hb _ hc hd => simp [hlead hb (by decide), hc.ne_zero, hd.ne_zero]

theorem zero_notMem_encode (us : List UInt16) : (0 : UInt8) ∉ encode us := by
  intro h
  obtain ⟨u, -, hu⟩ := List.mem_flatMap.mp h
  exact (form_encodeUnit u).zero_notMem hu

theorem encode_append (us vs : List UInt16) : encode (us ++ vs) = encode us ++ encode vs :=
  List.flatMap_append

/-! ## Boundaries -/

/-- The first `k` units take `pos` bytes. -/
def Boundary (us : List UInt16) (pos k : Nat) : Prop :=
  k ≤ us.length ∧ pos = (encode (us.take k)).length

variable {us : List UInt16} {pos k n : Nat}

theorem boundary_zero (us : List UInt16) : Boundary us 0 0 := ⟨Nat.zero_le _, by simp [encode]⟩

/-- What stands behind a boundary. -/
theorem Boundary.drop_eq (h : Boundary us pos k) : (encode us).drop pos = encode (us.drop k) := by
  have hsplit : encode us = encode (us.take k) ++ encode (us.drop k) := by
    rw [← encode_append, List.take_append_drop]
  rw [hsplit, h.2, List.drop_left]

theorem encode_cons (u : UInt16) (us : List UInt16) : encode (u :: us) = encodeUnit u ++ encode us :=
  rfl

theorem Boundary.le_length (h : Boundary us pos k) : pos ≤ (encode us).length := by
  have hsplit : encode us = encode (us.take k) ++ encode (us.drop k) := by
    rw [← encode_append, List.take_append_drop]
  rw [hsplit, List.length_append, h.2]
  exact Nat.le_add_right _ _

/-- Every unit takes a byte. -/
theorem length_le_encode (us : List UInt16) : us.length ≤ (encode us).length := by
  induction us with
  | nil => exact Nat.le_refl 0
  | cons u us ih =>
      have hpos := (form_encodeUnit u).length_pos
      rw [encode_cons, List.length_append, List.length_cons]
      omega

/-- Boundaries are in the order of their units. -/
theorem Boundary.units_le {pos' k' : Nat} (h : Boundary us pos k) (h' : Boundary us pos' k')
    (hle : pos ≤ pos') : k ≤ k' := by
  by_contra hlt
  -- Each unit between the two takes a byte.
  have hsplit := List.take_append_drop k' (us.take k)
  rw [List.take_take, Nat.min_eq_left (by omega)] at hsplit
  have hmore := length_le_encode ((us.take k).drop k')
  have hk := h.1
  rw [List.length_drop, List.length_take] at hmore
  rw [h.2, h'.2, ← hsplit, encode_append, List.length_append] at hle
  omega

/-- A boundary before the end of the text is in front of a unit. -/
theorem Boundary.lt_length (h : Boundary us pos k) (hpos : pos < (encode us).length) :
    k < us.length := by
  by_contra hk
  have hdrop := h.drop_eq
  rw [List.drop_eq_nil_of_le (Nat.le_of_not_lt hk)] at hdrop
  exact absurd (List.drop_eq_nil_iff.mp hdrop) (by omega)

/-- The unit behind a boundary. -/
theorem Boundary.drop_unit (h : Boundary us pos k) (hk : k < us.length) :
    (encode us).drop pos = encodeUnit us[k] ++ encode (us.drop (k + 1)) := by
  rw [h.drop_eq, List.drop_eq_getElem_cons hk, encode_cons]

/-- A boundary moves by a unit. -/
theorem Boundary.succ (h : Boundary us pos k) (hk : k < us.length) :
    Boundary us (pos + (encodeUnit us[k]).length) (k + 1) := by
  refine ⟨hk, ?_⟩
  rw [List.take_succ_eq_append_getElem hk, encode_append, List.length_append, h.2]
  simp [encode]

/-- In front of a unit there are bytes left. -/
theorem Boundary.lt_encode (h : Boundary us pos k) (hk : k < us.length) :
    pos < (encode us).length := by
  have hpos := (form_encodeUnit us[k]).length_pos
  have hle := (h.succ hk).le_length
  omega

/-- A boundary moves over ASCII bytes, one unit for each. -/
theorem Boundary.ascii (h : Boundary us pos k) (hn : pos + n ≤ (encode us).length)
    (hascii : ∀ b ∈ ((encode us).drop pos).take n, b < 0x80) : Boundary us (pos + n) (k + n) := by
  induction n generalizing pos k with
  | zero => exact h
  | succ n ih =>
      have hk : k < us.length := h.lt_length (by omega)
      have hunit := h.drop_unit hk
      obtain ⟨b, rest, hb⟩ := List.exists_cons_of_length_pos (form_encodeUnit us[k]).length_pos
      -- The first of the bytes starts a unit, so it is the unit.
      have hhead : (encodeUnit us[k]).headD 0 < 0x80 := by
        refine hascii _ ?_
        rw [hunit, hb]
        simp
      have hone := (form_encodeUnit us[k]).length_eq_one hhead
      have hsucc := hone ▸ h.succ hk
      have hih := ih hsucc (by omega) fun c hc => hascii c ?_
      · rwa [Nat.add_right_comm, Nat.add_right_comm k] at hih
      · rw [← List.drop_drop] at hc
        have hcons : ∀ l : List UInt8, c ∈ (l.drop 1).take n → c ∈ l.take (n + 1) := by
          intro l hl
          cases l with
          | nil => simp at hl
          | cons a l => exact List.mem_cons_of_mem _ hl
        exact hcons _ hc

/-- Units that take one byte each are ASCII. -/
theorem ascii_of_length_encode {us : List UInt16} (h : (encode us).length = us.length) :
    ∀ b ∈ encode us, b < 0x80 := by
  induction us with
  | nil => simp [encode]
  | cons u us ih =>
      have hpos := (form_encodeUnit u).length_pos
      have hle := length_le_encode us
      rw [encode_cons, List.length_append, List.length_cons] at h
      intro b hb
      rcases List.mem_append.mp hb with hb | hb
      · exact (form_encodeUnit u).ascii (by omega) b hb
      · exact ih (by omega) b hb

/-- Bytes and units advance by the same number over ASCII only. -/
theorem Boundary.ascii_of_add (h : Boundary us pos k) (hn : Boundary us (pos + n) (k + n)) :
    ∀ b ∈ ((encode us).drop pos).take n, b < 0x80 := by
  have hsplit : us.drop k = (us.drop k).take n ++ us.drop (k + n) := by
    rw [← List.drop_drop, List.take_append_drop]
  have hlen : (encode ((us.drop k).take n)).length = n := by
    have htake : us.take (k + n) = us.take k ++ (us.drop k).take n := List.take_add
    have hpos := hn.2
    rw [htake, encode_append, List.length_append, ← h.2] at hpos
    exact (Nat.add_left_cancel hpos).symm
  have hunits : ((us.drop k).take n).length = n := by
    have := hn.1
    rw [List.length_take, List.length_drop]
    omega
  rw [h.drop_eq, hsplit, encode_append, List.take_left' hlen]
  exact ascii_of_length_encode (hlen.trans hunits.symm)

end ModifiedUtf8
