import HapAndroid.Tool.DesUtils

/-!
# What `hexStr2ByteArr` accepts

The two hexadecimal conversions are meant to undo each other: a text of an even number
of hexadecimal digits is read, and every other text is refused.  The bytes of the text
go to `Integer.parseInt` in pairs, and a pair is a number in three ways: two digits, a
sign and a digit, and one digit of another script that takes two bytes.

`isSome_hexStr2ByteArr` says that the texts made of such pieces are the ones that are
read, and `hexContract_iff` that the intended reading is missed exactly by those with a
piece of the last two kinds.
-/

namespace HapAndroid.DesUtils

/-! ## The texts that are meant, and those that are read -/

/-- An ASCII hexadecimal digit. -/
def isHexDigit (c : Char) : Bool :=
  let n := c.toNat
  (0x30 ≤ n && n ≤ 0x39) || (0x61 ≤ n && n ≤ 0x66) || (0x41 ≤ n && n ≤ 0x46)

def isSign (c : Char) : Bool := c = '+' || c = '-'

/-- A decimal digit of another script, of those that take two bytes. -/
def isTwoByteDigit (c : Char) : Bool :=
  let n := c.toNat
  (0x660 ≤ n && n ≤ 0x669) || (0x6F0 ≤ n && n ≤ 0x6F9) || (0x7C0 ≤ n && n ≤ 0x7C9)

/-- An even number of hexadecimal digits. -/
def HexText (s : Text) : Prop := s.length % 2 = 0 ∧ ∀ c ∈ s, isHexDigit c = true

/-- A row of pieces that are numbers: two characters of one byte, or one of two bytes. -/
def readable : Text → Bool
  | [] => true
  | [c] => isTwoByteDigit c
  | c :: d :: s =>
      if isTwoByteDigit c then readable (d :: s)
      else (isHexDigit c || isSign c) && isHexDigit d && readable s

/-- A readable text with a sign or with a digit of another script. -/
def Misread (s : Text) : Prop :=
  readable s = true ∧ ∃ c ∈ s, isSign c = true ∨ isTwoByteDigit c = true

/-- The texts of an even number of hexadecimal digits are read, and no others, and the
bytes read are those of the text in lower case. -/
def HexContract (s : Text) : Prop :=
  ((hexStr2ByteArr s).isSome = true ↔ HexText s) ∧
    ∀ out, hexStr2ByteArr s = some out → byteArr2HexStr out = s.map Char.toLower

/-! ## The kinds of characters -/

theorem utf8Size_eq_one {c : Char} : c.utf8Size = 1 ↔ c.toNat < 0x80 := by
  rw [Char.utf8Size_eq_one_iff, UInt32.le_iff_toNat_le]
  exact Nat.lt_succ_iff.symm

theorem utf8Size_eq_two {c : Char} : c.utf8Size = 2 ↔ 0x80 ≤ c.toNat ∧ c.toNat < 0x800 := by
  rw [Char.utf8Size_eq_two_iff, UInt32.lt_iff_toNat_lt, UInt32.le_iff_toNat_le]
  exact and_congr Nat.succ_le_iff.symm Nat.lt_succ_iff.symm

theorem isHexDigit_iff {c : Char} :
    isHexDigit c = true ↔ (0x30 ≤ c.toNat ∧ c.toNat ≤ 0x39) ∨
      (0x61 ≤ c.toNat ∧ c.toNat ≤ 0x66) ∨ (0x41 ≤ c.toNat ∧ c.toNat ≤ 0x46) := by
  simp [isHexDigit, or_assoc]

theorem isTwoByteDigit_iff {c : Char} :
    isTwoByteDigit c = true ↔ (0x660 ≤ c.toNat ∧ c.toNat ≤ 0x669) ∨
      (0x6F0 ≤ c.toNat ∧ c.toNat ≤ 0x6F9) ∨ (0x7C0 ≤ c.toNat ∧ c.toNat ≤ 0x7C9) := by
  simp [isTwoByteDigit, or_assoc]

theorem isSign_iff {c : Char} : isSign c = true ↔ c.toNat = 0x2B ∨ c.toNat = 0x2D := by
  simp only [isSign, Bool.or_eq_true, decide_eq_true_eq, ← Char.toNat_inj]
  rfl

theorem isHexDigit_or_isSign_eq_false {c : Char} (hc : c.utf8Size ≠ 1) :
    (isHexDigit c || isSign c) = false := by
  rw [ne_eq, utf8Size_eq_one] at hc
  rw [Bool.eq_false_iff, ne_eq, Bool.or_eq_true, isHexDigit_iff, isSign_iff]
  omega

theorem isHexDigit_eq_false {c : Char} (hc : c.utf8Size ≠ 1) : isHexDigit c = false :=
  (Bool.or_eq_false_iff.mp (isHexDigit_or_isSign_eq_false hc)).1

theorem utf8Size_hexDigit {c : Char} (hc : isHexDigit c = true) : c.utf8Size = 1 := by
  by_contra hne
  rw [isHexDigit_eq_false hne] at hc
  cases hc

theorem isTwoByteDigit_eq_false {c : Char} (hc : c.utf8Size ≠ 2) : isTwoByteDigit c = false := by
  rw [ne_eq, utf8Size_eq_two] at hc
  rw [Bool.eq_false_iff, ne_eq, isTwoByteDigit_iff]
  omega

theorem utf8Size_twoByteDigit {c : Char} (hc : isTwoByteDigit c = true) : c.utf8Size = 2 := by
  by_contra hne
  rw [isTwoByteDigit_eq_false hne] at hc
  cases hc

/-- The digits `Integer.parseInt` knows. -/
theorem isSome_digit16 (c : Char) :
    (digit16 c).isSome = (isHexDigit c || isTwoByteDigit c) := by
  rw [Bool.eq_iff_iff, Bool.or_eq_true, isHexDigit_iff, isTwoByteDigit_iff]
  simp only [digit16]
  grind

/-! ## One pair of bytes -/

theorem parseInt16_single (c : Char) : (parseInt16 [c]).isSome = (digit16 c).isSome := by
  by_cases hminus : c = '-'
  · subst hminus; rfl
  by_cases hplus : c = '+'
  · subst hplus; rfl
  rw [parseInt16, if_neg hminus, if_neg hplus]
  cases hdig : digit16 c <;> simp [digits16, hdig]

theorem parseInt16_pair (c d : Char) :
    (parseInt16 [c, d]).isSome = (((digit16 c).isSome || isSign c) && (digit16 d).isSome) := by
  by_cases hminus : c = '-'
  · subst hminus
    cases hdig : digit16 d <;> simp [parseInt16, digits16, hdig, isSign]
  by_cases hplus : c = '+'
  · subst hplus
    cases hdig : digit16 d <;> simp [parseInt16, digits16, hdig, isSign]
  rw [parseInt16, if_neg hminus, if_neg hplus]
  have hsign : isSign c = false := by simp [isSign, hminus, hplus]
  cases hc : digit16 c <;> cases hd : digit16 d <;> simp [digits16, hc, hd, hsign]

/-- The replacement character is no digit. -/
theorem parseInt16_replaced (s : Text) : parseInt16 ('�' :: s) = none := by
  rw [parseInt16, if_neg (by decide), if_neg (by decide), digits16]
  rfl

theorem isSome_hexPairs_cons (a b : UInt8) (rest : List UInt8) :
    (hexPairs (a :: b :: rest)).isSome =
      ((parseInt16 (Utf8.decode [a, b])).isSome && (hexPairs rest).isSome) := by
  rw [hexPairs]
  cases parseInt16 (Utf8.decode [a, b]) <;> simp

/-! ## The first character -/

theorem exists_encode_one {c : Char} (hc : c.utf8Size = 1) :
    ∃ a, String.utf8EncodeChar c = [a] :=
  List.length_eq_one_iff.mp (by rw [String.length_utf8EncodeChar, hc])

theorem exists_encode_cons (c : Char) : ∃ a rest, String.utf8EncodeChar c = a :: rest :=
  List.exists_cons_of_ne_nil (String.utf8EncodeChar_ne_nil)

/-- A character of two bytes is a pair of its own. -/
theorem isSome_hexStr2ByteArr_two {c : Char} (hc : c.utf8Size = 2) (s : Text) :
    (hexStr2ByteArr (c :: s)).isSome = (isTwoByteDigit c && (hexStr2ByteArr s).isSome) := by
  obtain ⟨a, b, hab⟩ : ∃ a b, String.utf8EncodeChar c = [a, b] :=
    List.length_eq_two.mp (by rw [String.length_utf8EncodeChar, hc])
  have hdecode : Utf8.decode [a, b] = [c] := by
    have h := Utf8.decode_encode [c]
    rwa [Utf8.encode_cons, hab] at h
  have hhex : isHexDigit c = false := isHexDigit_eq_false (by omega)
  rw [hexStr2ByteArr, Utf8.encode_cons, hab, List.cons_append, List.cons_append,
    List.nil_append, isSome_hexPairs_cons, hdecode, parseInt16_single, isSome_digit16, hhex,
    Bool.false_or, hexStr2ByteArr]

/-- A longer character is cut into bytes that are no digits. -/
theorem isSome_hexStr2ByteArr_long {c : Char} (hc : 2 < c.utf8Size) (s : Text) :
    (hexStr2ByteArr (c :: s)).isSome = false := by
  obtain ⟨a, b, d, rest, henc⟩ : ∃ a b d rest, String.utf8EncodeChar c = a :: b :: d :: rest := by
    have hlen := String.length_utf8EncodeChar c
    match henc : String.utf8EncodeChar c with
    | a :: b :: d :: rest => exact ⟨a, b, d, rest, rfl⟩
    | [] | [_] | [_, _] => simp [henc] at hlen; omega
  have hcut : Utf8.decodeChar? [a, b] = none :=
    @Utf8.decodeChar?_cut c [a, b] (d :: rest) henc (List.cons_ne_nil d rest)
  have hdecode : Utf8.decode [a, b] = '�' :: Utf8.decode [b] := by
    rw [Utf8.decode, Utf8.decodeFrom, hcut, Utf8.decode]
  rw [hexStr2ByteArr, Utf8.encode_cons, henc, List.cons_append, List.cons_append,
    isSome_hexPairs_cons, hdecode, parseInt16_replaced]
  rfl

/-- A character of one byte is read with the first byte of the next one. -/
theorem isSome_hexStr2ByteArr_one {c : Char} (hc : c.utf8Size = 1) (d : Char) (s : Text) :
    (hexStr2ByteArr (c :: d :: s)).isSome =
      ((isHexDigit c || isSign c) && isHexDigit d && (hexStr2ByteArr s).isSome) := by
  obtain ⟨a, ha⟩ := exists_encode_one hc
  obtain ⟨b, rest, hb⟩ := exists_encode_cons d
  have hencode : Utf8.encode (c :: d :: s) = a :: b :: (rest ++ Utf8.encode s) := by
    rw [Utf8.encode_cons, Utf8.encode_cons, ha, hb]
    rfl
  have htwo : isTwoByteDigit c = false := isTwoByteDigit_eq_false (by omega)
  rw [hexStr2ByteArr, hencode, isSome_hexPairs_cons]
  cases rest with
  | nil =>
      have hdone : d.utf8Size = 1 := by rw [← String.length_utf8EncodeChar, hb]; rfl
      have hdtwo : isTwoByteDigit d = false := isTwoByteDigit_eq_false (by omega)
      have hdecode : Utf8.decode [a, b] = [c, d] := by
        have h := Utf8.decode_encode [c, d]
        rwa [Utf8.encode_cons, Utf8.encode_cons, ha, hb] at h
      rw [hdecode, parseInt16_pair, isSome_digit16, isSome_digit16, htwo, hdtwo, Bool.or_false,
        Bool.or_false, List.nil_append, hexStr2ByteArr]
  | cons e rest =>
      -- The second character is cut after its first byte.
      have hd : isHexDigit d = false := by
        apply isHexDigit_eq_false
        rw [← String.length_utf8EncodeChar, hb]
        simp
      have hcut : Utf8.decodeChar? [b] = none :=
        @Utf8.decodeChar?_cut d [b] (e :: rest) hb (List.cons_ne_nil e rest)
      have hdecode : Utf8.decode [a, b] = [c, '�'] := by
        have hfirst : Utf8.decodeChar? [a, b] = some c := by
          have h := Utf8.decodeChar?_encodeChar c [b]
          rwa [ha] at h
        rw [Utf8.decode, Utf8.decodeFrom, hfirst]
        simp only [hc, Nat.sub_self]
        rw [Utf8.decodeFrom, hcut, Utf8.decodeFrom]
      rw [hdecode, parseInt16_pair, hd, show digit16 '�' = none from rfl]
      simp

theorem isSome_hexStr2ByteArr_single {c : Char} (hc : c.utf8Size = 1) :
    (hexStr2ByteArr [c]).isSome = false := by
  obtain ⟨a, ha⟩ := exists_encode_one hc
  rw [hexStr2ByteArr, Utf8.encode_cons, ha]
  rfl

/-- The texts that are read are the rows of pieces that are numbers. -/
theorem isSome_hexStr2ByteArr (s : Text) : (hexStr2ByteArr s).isSome = readable s := by
  have hsizes (c : Char) : c.utf8Size = 1 ∨ c.utf8Size = 2 ∨ 2 < c.utf8Size := by
    have := c.utf8Size_pos
    omega
  fun_induction readable s with
  | case1 => rfl
  | case2 c =>
      rcases hsizes c with hc | hc | hc
      · rw [isSome_hexStr2ByteArr_single hc, isTwoByteDigit_eq_false (by omega)]
      · rw [isSome_hexStr2ByteArr_two hc, show hexStr2ByteArr [] = some [] from rfl,
          Option.isSome_some, Bool.and_true]
      · rw [isSome_hexStr2ByteArr_long hc, isTwoByteDigit_eq_false (by omega)]
  | case3 c d s htwo ih =>
      rw [isSome_hexStr2ByteArr_two (utf8Size_twoByteDigit htwo), htwo, ih, Bool.true_and]
  | case4 c d s htwo ih =>
      rcases hsizes c with hc | hc | hc
      · rw [isSome_hexStr2ByteArr_one hc, ih]
      · rw [isSome_hexStr2ByteArr_two hc, Bool.eq_false_iff.mpr htwo,
          isHexDigit_or_isSign_eq_false (by omega)]
        simp
      · rw [isSome_hexStr2ByteArr_long hc, isHexDigit_or_isSign_eq_false (by omega)]
        simp

/-! ## The texts that are meant -/

theorem HexText.cons_cons {c d : Char} {s : Text} :
    HexText (c :: d :: s) ↔ isHexDigit c = true ∧ isHexDigit d = true ∧ HexText s := by
  simp only [HexText, List.length_cons, List.mem_cons, forall_eq_or_imp]
  have hmod : (s.length + 1 + 1) % 2 = s.length % 2 := by omega
  rw [hmod]
  tauto

theorem isTwoByteDigit_of_isHexDigit {c : Char} (hc : isHexDigit c = true) :
    isTwoByteDigit c = false := by
  rw [isHexDigit_iff] at hc
  rw [Bool.eq_false_iff, ne_eq, isTwoByteDigit_iff]
  omega

theorem not_isSign_of_isHexDigit {c : Char} (hc : isHexDigit c = true) : isSign c = false := by
  rw [isHexDigit_iff] at hc
  rw [Bool.eq_false_iff, ne_eq, isSign_iff]
  omega

/-- What is meant to be read is read. -/
theorem readable_of_hexText {s : Text} (hs : HexText s) : readable s = true := by
  fun_induction readable s with
  | case1 => rfl
  | case2 c => exact absurd hs.1 (by simp)
  | case3 c d s htwo ih =>
      have hc := (HexText.cons_cons.mp hs).1
      rw [isTwoByteDigit_of_isHexDigit hc] at htwo
      cases htwo
  | case4 c d s htwo ih =>
      obtain ⟨hc, hd, hrest⟩ := HexText.cons_cons.mp hs
      simp [hc, hd, ih hrest]

/-- A readable text with no sign and no digit of another script is one that is meant. -/
theorem hexText_of_readable {s : Text} (hs : readable s = true)
    (hplain : ∀ c ∈ s, ¬(isSign c = true ∨ isTwoByteDigit c = true)) : HexText s := by
  fun_induction readable s with
  | case1 => exact ⟨rfl, by simp⟩
  | case2 c => exact absurd (Or.inr hs) (hplain c List.mem_cons_self)
  | case3 c d s htwo ih => exact absurd (Or.inr htwo) (hplain c List.mem_cons_self)
  | case4 c d s htwo ih =>
      simp only [Bool.and_eq_true, Bool.or_eq_true] at hs
      obtain ⟨⟨hc, hd⟩, hrest⟩ := hs
      have hchex : isHexDigit c = true :=
        hc.resolve_right fun h => hplain c List.mem_cons_self (Or.inl h)
      have hshex := ih hrest fun e he =>
        hplain e (List.mem_cons_of_mem c (List.mem_cons_of_mem d he))
      exact HexText.cons_cons.mpr ⟨hchex, hd, hshex⟩

theorem misread_iff {s : Text} : Misread s ↔ readable s = true ∧ ¬HexText s := by
  constructor
  · rintro ⟨hs, c, hmem, hc⟩
    refine ⟨hs, fun hhex => ?_⟩
    have hdigit := hhex.2 c hmem
    rw [not_isSign_of_isHexDigit hdigit, isTwoByteDigit_of_isHexDigit hdigit] at hc
    simp at hc
  · rintro ⟨hs, hhex⟩
    refine ⟨hs, ?_⟩
    by_contra hno
    exact hhex (hexText_of_readable hs fun c hmem hc => hno ⟨c, hmem, hc⟩)

/-! ## The round trip -/

/-- A hexadecimal digit has a value below 16, and its lower case is the digit of it. -/
theorem digit16_of_isHexDigit {c : Char} (hc : isHexDigit c = true) :
    ∃ x : Fin 16, digit16 c = some x.val ∧ c.toLower = Nat.digitChar x.val := by
  have hall : ∀ n : Fin 128, isHexDigit (Char.ofNat n.val) = true → ∃ x : Fin 16,
      digit16 (Char.ofNat n.val) = some x.val ∧
        (Char.ofNat n.val).toLower = Nat.digitChar x.val := by
    decide +kernel
  have hlt : c.toNat < 128 := by
    rw [isHexDigit_iff] at hc
    omega
  have h := hall ⟨c.toNat, hlt⟩
  rw [Char.ofNat_toNat] at h
  exact h hc

theorem hexByte_toByte : ∀ x y : Fin 16,
    hexByte (toByte ((16 * x.val + y.val : Nat) : Int)) =
      [Nat.digitChar x.val, Nat.digitChar y.val] := by
  decide +kernel

theorem parseInt16_hex {c d : Char} {x y : Nat} (hc : isHexDigit c = true)
    (hx : digit16 c = some x) (hy : digit16 d = some y) :
    parseInt16 [c, d] = some ((16 * x + y : Nat) : Int) := by
  have hsign := not_isSign_of_isHexDigit hc
  simp only [isSign, Bool.or_eq_false_iff, decide_eq_false_iff_not] at hsign
  rw [parseInt16, if_neg hsign.2, if_neg hsign.1]
  simp [digits16, hx, hy]

/-- The text of the bytes that are read is the text in lower case. -/
theorem hexText_round_trip {s : Text} (hs : HexText s) {out : List UInt8}
    (hout : hexStr2ByteArr s = some out) : byteArr2HexStr out = s.map Char.toLower := by
  fun_induction readable s generalizing out with
  | case1 =>
      cases hout
      rfl
  | case2 c => exact absurd hs.1 (by simp)
  | case3 c d s htwo ih =>
      rw [isTwoByteDigit_of_isHexDigit (HexText.cons_cons.mp hs).1] at htwo
      cases htwo
  | case4 c d s htwo ih =>
      obtain ⟨hc, hd, hrest⟩ := HexText.cons_cons.mp hs
      obtain ⟨x, hx, hlowc⟩ := digit16_of_isHexDigit hc
      obtain ⟨y, hy, hlowd⟩ := digit16_of_isHexDigit hd
      obtain ⟨a, ha⟩ := exists_encode_one (utf8Size_hexDigit hc)
      obtain ⟨b, hb⟩ := exists_encode_one (utf8Size_hexDigit hd)
      have hab : Utf8.encode [c, d] = [a, b] := by
        rw [Utf8.encode_cons, Utf8.encode_cons, ha, hb]
        rfl
      have hdecode : Utf8.decode [a, b] = [c, d] := by rw [← hab, Utf8.decode_encode]
      have hencode : Utf8.encode (c :: d :: s) = a :: b :: Utf8.encode s := by
        show Utf8.encode ([c, d] ++ s) = _
        rw [encode_append, hab]
        rfl
      rw [hexStr2ByteArr, hencode, hexPairs, hdecode, parseInt16_hex hc hx hy,
        Option.bind_some, Option.map_eq_some_iff] at hout
      obtain ⟨rest, htail, rfl⟩ := hout
      rw [byteArr2HexStr, List.flatMap_cons, hexByte_toByte, ← byteArr2HexStr, ih hrest htail,
        List.map_cons, List.map_cons, hlowc, hlowd]
      rfl

/-- The intended reading is missed exactly by the texts with a signed digit or a digit of
another script. -/
theorem hexContract_iff (s : Text) : HexContract s ↔ ¬Misread s := by
  rw [misread_iff, HexContract, isSome_hexStr2ByteArr]
  constructor
  · rintro ⟨hread, -⟩ ⟨hs, hhex⟩
    exact hhex (hread.mp hs)
  · intro hno
    have hread : readable s = true → HexText s := fun hs => by
      by_contra hhex
      exact hno ⟨hs, hhex⟩
    refine ⟨⟨hread, readable_of_hexText⟩, fun out hout => ?_⟩
    have hs : readable s = true := by rw [← isSome_hexStr2ByteArr, hout]; rfl
    exact hexText_round_trip (hread hs) hout

/-- A signed digit is read. -/
theorem not_hexContract_signed : ¬HexContract "+1".toList := by
  rintro ⟨hread, -⟩
  have hhex := hread.mp (by decide +kernel)
  exact absurd (hhex.2 '+' (by decide)) (by decide)

end HapAndroid.DesUtils
