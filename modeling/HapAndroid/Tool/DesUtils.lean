import HapAndroid.Platform.Files

/-!
# `DesUtils` and `MHP`

`DesUtils` turns texts into hexadecimal texts through a DES cipher.  The cipher
is the one of the platform, a parameter here: encryption is total, and
decryption throws on bytes that are not a padded block sequence.  The two
hexadecimal conversions are those of the source.  `hexStr2ByteArr` looks at the
bytes of its argument two at a time, decodes the pair and hands it to
`Integer.parseInt`, so it also reads a signed digit and the digits of other
scripts that take two bytes.

`hexStr2ByteArr_byteArr2HexStr` is the round trip the source promises, and
`decrypt_encrypt` the round trip of texts it gives when the cipher has one.
-/

namespace HapAndroid

/-- The serialised form of a mode.  A field read from a file may be null. -/
structure MHP where
  name : Option Text
  get : Option Text
  post : Option Text
  connection : Option Text
deriving DecidableEq

/-- The DES cipher under a fixed key. -/
structure Cipher where
  encrypt : List UInt8 → List UInt8
  /-- `none` is an exception. -/
  decrypt : List UInt8 → Option (List UInt8)

/-- The cipher that changes nothing. -/
def Cipher.plain : Cipher := ⟨fun b => b, some⟩

namespace DesUtils

/-! ## Bytes to hexadecimal text -/

/-- The `int` a Java `byte` is widened to. -/
def toInt (b : UInt8) : Int := if b.toNat < 128 then b.toNat else b.toNat - 256

/-- The loop that makes a negative value positive.  One turn is enough from
`-128`. -/
def makePositive (n : Int) : Int := if n < 0 then n + 256 else n

/-- The two characters of a byte. -/
def hexByte (b : UInt8) : Text :=
  let intTmp := makePositive (toInt b)
  (if intTmp < 16 then ['0'] else []) ++ Nat.toDigits 16 intTmp.toNat

/-- The hexadecimal text of some bytes. -/
def byteArr2HexStr (arrB : List UInt8) : Text := arrB.flatMap hexByte

/-! ## Hexadecimal text to bytes -/

/-- `Character.digit(c, 16)` on the characters of one or two bytes.  The other
digits and the full-width letters take three. -/
def digit16 (c : Char) : Option Nat :=
  let n := c.toNat
  if 0x30 ≤ n ∧ n ≤ 0x39 then some (n - 0x30)
  else if 0x61 ≤ n ∧ n ≤ 0x66 then some (n - 0x61 + 10)
  else if 0x41 ≤ n ∧ n ≤ 0x46 then some (n - 0x41 + 10)
  else if 0x660 ≤ n ∧ n ≤ 0x669 then some (n - 0x660)
  else if 0x6F0 ≤ n ∧ n ≤ 0x6F9 then some (n - 0x6F0)
  else if 0x7C0 ≤ n ∧ n ≤ 0x7C9 then some (n - 0x7C0)
  else none

/-- The value of a nonempty row of digits. -/
def digits16 : Nat → Text → Option Nat
  | acc, [] => some acc
  | acc, c :: s => (digit16 c).bind fun d => digits16 (16 * acc + d) s

/-- `Integer.parseInt(s, 16)`, on texts too short to overflow. -/
def parseInt16 : Text → Option Int
  | [] => none
  | c :: s =>
      if c = '-' then (if s = [] then none else (digits16 0 s).map fun n => -(n : Int))
      else if c = '+' then (if s = [] then none else (digits16 0 s).map fun n => (n : Int))
      else (digits16 0 (c :: s)).map fun n => (n : Int)

/-- The cast `(byte) n`. -/
def toByte (n : Int) : UInt8 := UInt8.ofNat (n % 256).toNat

/-- Read the bytes of a text two at a time.  An odd byte at the end is an
exception, as is a pair that is no number. -/
def hexPairs : List UInt8 → Option (List UInt8)
  | [] => some []
  | [_] => none
  | a :: b :: rest =>
      (parseInt16 (Utf8.decode [a, b])).bind fun n => (hexPairs rest).map fun out => toByte n :: out

/-- The bytes a hexadecimal text stands for. -/
def hexStr2ByteArr (strIn : Text) : Option (List UInt8) := hexPairs (Utf8.encode strIn)

/-! ## Texts -/

/-- `encrypt(String)`. -/
def encrypt (des : Cipher) (strIn : Text) : Text :=
  byteArr2HexStr (des.encrypt (Utf8.encode strIn))

/-- `decrypt(String)`.  A null argument throws. -/
def decrypt (des : Cipher) (strIn : Option Text) : Option Text :=
  strIn.bind fun s => (hexStr2ByteArr s).bind fun arrB => (des.decrypt arrB).map Utf8.decode

/-! ## The round trips -/

/-- The two characters of a byte are two bytes, and parse to it. -/
theorem hexByte_spec : ∀ b : UInt8, ∃ x y, Utf8.encode (hexByte b) = [x, y] ∧
    (parseInt16 (Utf8.decode [x, y])).map toByte = some b := by
  have hall : ∀ n : Fin 256, ∃ x y, Utf8.encode (hexByte (UInt8.ofFin n)) = [x, y] ∧
      (parseInt16 (Utf8.decode [x, y])).map toByte = some (UInt8.ofFin n) := by
    intro n
    have hpair : ∀ n : Fin 256, (Utf8.encode (hexByte (UInt8.ofFin n))).length = 2 ∧
        (parseInt16 (Utf8.decode (Utf8.encode (hexByte (UInt8.ofFin n))))).map toByte =
          some (UInt8.ofFin n) := by decide +kernel
    obtain ⟨hlen, hparse⟩ := hpair n
    obtain ⟨x, y, henc⟩ := List.length_eq_two.mp hlen
    exact ⟨x, y, henc, henc ▸ hparse⟩
  intro b
  simpa using hall b.toFin

theorem encode_append (s t : Text) : Utf8.encode (s ++ t) = Utf8.encode s ++ Utf8.encode t := by
  simp [Utf8.encode]

/-- Reading back the hexadecimal text of some bytes. -/
theorem hexStr2ByteArr_byteArr2HexStr (arrB : List UInt8) :
    hexStr2ByteArr (byteArr2HexStr arrB) = some arrB := by
  induction arrB with
  | nil => rfl
  | cons b arrB ih =>
      obtain ⟨x, y, henc, hparse⟩ := hexByte_spec b
      obtain ⟨n, hn, hb⟩ := Option.map_eq_some_iff.mp hparse
      rw [hexStr2ByteArr] at ih
      rw [hexStr2ByteArr, byteArr2HexStr, List.flatMap_cons, encode_append, henc,
        List.cons_append, List.cons_append, List.nil_append, hexPairs, hn, Option.bind_some,
        ← byteArr2HexStr, ih, Option.map_some, hb]

/-- With a cipher that has a round trip, texts have one. -/
theorem decrypt_encrypt {des : Cipher} (hdes : ∀ b, des.decrypt (des.encrypt b) = some b)
    (s : Text) : decrypt des (some (encrypt des s)) = some s := by
  rw [decrypt, encrypt, Option.bind_some, hexStr2ByteArr_byteArr2HexStr, Option.bind_some, hdes,
    Option.map_some, Utf8.decode_encode]

end DesUtils

end HapAndroid
