import Mathlib.Data.List.Basic

/-!
# UTF-8 with replacement

Encoding a text, and decoding bytes the way a library decoder does that never
fails: a byte at which no character can be read becomes the replacement
character.  `decode_encode` says that nothing is lost on the way from a text to
bytes and back, and `Valid.encode_decode` that bytes which are the encoding of
some text come back as they were.
-/

namespace Utf8

/-- The bytes of a text. -/
def encode (s : List Char) : List UInt8 := s.flatMap String.utf8EncodeChar

theorem encode_cons (c : Char) (s : List Char) :
    encode (c :: s) = String.utf8EncodeChar c ++ encode s := by
  simp [encode]

/-- The character encoded at the front of some bytes, if there is one. -/
def decodeChar? (bs : List UInt8) : Option Char := bs.toByteArray.utf8DecodeChar? 0

theorem decodeChar?_encodeChar (c : Char) (bs : List UInt8) :
    decodeChar? (String.utf8EncodeChar c ++ bs) = some c := by
  unfold decodeChar?
  rw [List.toByteArray_append]
  exact ByteArray.utf8DecodeChar?_utf8EncodeChar_append

/-- A character that is cut off is not read. -/
theorem decodeChar?_cut {c : Char} {bs rest : List UInt8}
    (henc : String.utf8EncodeChar c = bs ++ rest) (hrest : rest ≠ []) : decodeChar? bs = none := by
  cases hdec : decodeChar? bs with
  | none => rfl
  | some d =>
      have hlonger : decodeChar? (bs ++ rest) = some d := by
        unfold decodeChar?
        rw [List.toByteArray_append]
        exact ByteArray.utf8DecodeChar?_append_eq_some hdec _
      have hc : decodeChar? (bs ++ rest) = some c := by
        rw [← henc, ← List.append_nil (String.utf8EncodeChar c)]
        exact decodeChar?_encodeChar c []
      have hdc : d = c := Option.some.inj (hlonger.symm.trans hc)
      have hle : d.utf8Size ≤ bs.length := by
        have hsize := ByteArray.le_size_of_utf8DecodeChar?_eq_some hdec
        rwa [Nat.zero_add, List.size_toByteArray] at hsize
      have hlen := String.length_utf8EncodeChar c
      rw [henc, List.length_append, ← hdc] at hlen
      have hpos := List.length_pos_iff.mpr hrest
      omega

/-- Decode after `k` bytes that belong to the character before. -/
def decodeFrom : Nat → List UInt8 → List Char
  | _, [] => []
  | k + 1, _ :: bs => decodeFrom k bs
  | 0, b :: bs =>
      match decodeChar? (b :: bs) with
      | some c => c :: decodeFrom (c.utf8Size - 1) bs
      | none => '�' :: decodeFrom 0 bs

/-- The text of some bytes. -/
def decode (bs : List UInt8) : List Char := decodeFrom 0 bs

theorem decodeFrom_skip (cs bs : List UInt8) :
    decodeFrom cs.length (cs ++ bs) = decodeFrom 0 bs := by
  induction cs with
  | nil => rfl
  | cons c cs ih => simpa [decodeFrom] using ih

/-- Decoding undoes encoding. -/
theorem decode_encode (s : List Char) : decode (encode s) = s := by
  unfold decode
  induction s with
  | nil => rfl
  | cons c s ih =>
      have hc := decodeChar?_encodeChar c (encode s)
      have hlen := String.length_utf8EncodeChar c
      rw [encode_cons]
      cases henc : String.utf8EncodeChar c with
      | nil =>
          rw [henc, List.length_nil] at hlen
          exact absurd hlen.symm (Nat.ne_of_gt c.utf8Size_pos)
      | cons b bs =>
          rw [henc, List.cons_append] at hc
          have hbs : c.utf8Size - 1 = bs.length := by rw [← hlen, henc]; rfl
          rw [List.cons_append, decodeFrom, hc]
          simp only [hbs, decodeFrom_skip, ih]

/-- Bytes that are the encoding of some text. -/
def Valid (bs : List UInt8) : Prop := ∃ s, bs = encode s

theorem valid_encode (s : List Char) : Valid (encode s) := ⟨s, rfl⟩

theorem Valid.encode_decode {bs : List UInt8} (h : Valid bs) : encode (decode bs) = bs := by
  obtain ⟨s, rfl⟩ := h
  rw [decode_encode]

/-- A byte that starts no character is replaced. -/
example : decode [0x41, 0xFF, 0x42] = ['A', '�', 'B'] := by decide

end Utf8
