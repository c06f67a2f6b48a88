import Mathlib.Data.List.Basic
import Mathlib.Data.List.GetD

/-!
# Bytes and texts of the highlighter

The character classes of `global.h` and `utils.c`, the text that is highlighted, and
the length of a character in it (`mbyte.c`).  A text is a C string: it has no zero
byte, and the byte that is read at its end is zero.  The byte in front of it belongs
to the heap and may be anything.
-/

namespace HapAndroid.Highlight

abbrev Bytes := List UInt8

/-- The bytes of an ASCII text. -/
def bytes (s : String) : Bytes := s.toList.map Char.toUInt8

/-- What is checked for every number of a byte holds of the bytes. -/
theorem forall_byte {P : UInt8 → Prop} (h : ∀ n : Fin 256, P (UInt8.ofNat n.val)) (b : UInt8) :
    P b := by
  have hb := h ⟨b.toNat, b.toNat_lt⟩
  rwa [UInt8.ofNat_toNat] at hb

/-! ## Character classes -/

def isWhite (c : UInt8) : Bool := c == 0x20 || c == 0x09

def isBreak (c : UInt8) : Bool := c == 0x0A || c == 0x0D

def isBlank (c : UInt8) : Bool := isWhite c || isBreak c

def isAlpha (c : UInt8) : Bool := (0x61 ≤ c && c ≤ 0x7A) || (0x41 ≤ c && c ≤ 0x5A)

def isKeyword (c : UInt8) : Bool := isAlpha c || (0x30 ≤ c && c ≤ 0x39) || c == 0x5F

def toLower (c : UInt8) : UInt8 := if 0x41 ≤ c && c ≤ 0x5A then c + 0x20 else c

def toUpper (c : UInt8) : UInt8 := if 0x61 ≤ c && c ≤ 0x7A then c - 0x20 else c

/-! ## Texts -/

/-- A text in memory. -/
structure FileText where
  bytes : Bytes
  noNul : (0 : UInt8) ∉ bytes
  /-- The byte in front of the text. -/
  before : UInt8

namespace FileText

variable (t : FileText)

/-- The byte at a position; zero at the end. -/
def byte (i : Nat) : UInt8 := t.bytes.getD i 0

/-- The byte in front of a position. -/
def prev (i : Nat) : UInt8 := if i = 0 then t.before else t.byte (i - 1)

/-- The bytes from a position. -/
def rest (i : Nat) : Bytes := t.bytes.drop i

/-- The number of bytes of a class from a position on. -/
def run (p : UInt8 → Bool) (i : Nat) : Nat := ((t.rest i).takeWhile p).length

/-- `strncmp(s, text, strlen(s)) == 0`. -/
def startsWith (i : Nat) (s : Bytes) : Bool := s.isPrefixOf (t.rest i)

def length : Nat := t.bytes.length

/-- A line starts at a position, as far as the byte in front of it shows. -/
def LineStart (pos : Nat) : Prop := t.prev pos = 0 ∨ t.prev pos = 0x0A

/-- A word ends in front of a position. -/
def WordEnd (pos : Nat) : Prop :=
  isKeyword (t.prev pos) = true ∧ isKeyword (t.byte pos) = false

instance (pos : Nat) : Decidable (t.LineStart pos) := inferInstanceAs (Decidable (_ ∨ _))

instance (pos : Nat) : Decidable (t.WordEnd pos) := inferInstanceAs (Decidable (_ ∧ _))

theorem byte_eq_headD (i : Nat) : t.byte i = (t.rest i).headD 0 := by
  rw [byte, rest, List.headD_eq_head?_getD, List.head?_drop, List.getD_eq_getElem?_getD]

variable {t} {i : Nat}

/-- A byte that is not zero is inside the text. -/
theorem lt_length (h : t.byte i ≠ 0) : i < t.length := by
  by_contra hle
  exact h (List.getD_eq_default _ _ (Nat.le_of_not_lt hle))

theorem byte_ne_zero (h : i < t.length) : t.byte i ≠ 0 := by
  intro h0
  rw [byte, List.getD_eq_getElem _ _ h] at h0
  exact t.noNul (h0 ▸ List.getElem_mem h)

theorem run_le {p : UInt8 → Bool} (h : i ≤ t.length) : i + t.run p i ≤ t.length := by
  have htake := (List.takeWhile_prefix p : _ <+: t.rest i).length_le
  rw [rest, List.length_drop] at htake
  unfold run rest length at *
  omega

theorem le_of_startsWith {s : Bytes} (h : t.startsWith i s = true) (hi : i ≤ t.length) :
    i + s.length ≤ t.length := by
  have hle := (List.isPrefixOf_iff_prefix.mp h).length_le
  rw [rest, List.length_drop] at hle
  unfold length at *
  omega

end FileText

/-! ## The length of a character -/

/-- `utf8len_tab`. -/
def utf8lenTab (b : UInt8) : Nat :=
  if b < 0xC0 then 1
  else if b < 0xE0 then 2
  else if b < 0xF0 then 3
  else if b < 0xF8 then 4
  else if b < 0xFC then 5
  else if b < 0xFE then 6
  else 1

def isTrail (b : UInt8) : Bool := b &&& 0xC0 == 0x80

def utfPtr2len (t : FileText) (i : Nat) : Nat :=
  if t.byte i = 0 then 0
  else
    let len := utf8lenTab (t.byte i)
    if (List.range (len - 1)).all fun j => isTrail (t.byte (i + 1 + j)) then len else 1

def utfcPtr2len (t : FileText) (i : Nat) : Nat :=
  if t.byte i = 0 then 0
  else if t.byte i < 0x80 && t.byte (i + 1) < 0x80 then 1
  else utfPtr2len t i

end HapAndroid.Highlight
