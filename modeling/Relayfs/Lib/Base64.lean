/-
  File:      Relayfs/Lib/Base64.lean
  Subject:   BASE64 with the standard alphabet and padding: three bytes are four characters, a rest
             of one or two bytes is padded with `=`.

  The decoder is the strict one: it wants the padding, and zeros in the bits that no byte uses.

  * `encode`, `decode` -- bytes to text and back;
  * `decode_encode` -- the round trip;
  * `utf8ByteSize_encode` -- four characters of one byte for three bytes.
-/
import Mathlib.Data.List.Nodup
import Mathlib.Data.String.Basic

namespace Relayfs.Lib.Base64

/-- The characters for the values 0 to 63. -/
def alphabet : List Char :=
  "ABCDEFGHIJKLMNOPQRSTUVWXYZabcdefghijklmnopqrstuvwxyz0123456789+/".toList

/-- The character for a value. -/
def char (n : Nat) : Char := alphabet.getD n 'A'

/-- The value of a character. -/
def digit (c : Char) : Option Nat := alphabet.findIdx? (· = c)

theorem alphabet_eq : alphabet =
    ['A', 'B', 'C', 'D', 'E', 'F', 'G', 'H', 'I', 'J', 'K', 'L', 'M', 'N', 'O', 'P', 'Q', 'R', 'S',
      'T', 'U', 'V', 'W', 'X', 'Y', 'Z', 'a', 'b', 'c', 'd', 'e', 'f', 'g', 'h', 'i', 'j', 'k',
      'l', 'm', 'n', 'o', 'p', 'q', 'r', 's', 't', 'u', 'v', 'w', 'x', 'y', 'z', '0', '1', '2',
      '3', '4', '5', '6', '7', '8', '9', '+', '/'] :=
  String.toList_ofList

theorem length_alphabet : alphabet.length = 64 := by
  rw [alphabet_eq]
  rfl

/-- The value of a character of the alphabet, read off its code: the letters and the digits stand
    in three runs. -/
def valueOfCode (code : Nat) : Nat :=
  if 97 ≤ code then code - 71
  else if 65 ≤ code then code - 65
  else if 48 ≤ code then code + 4
  else if code = 43 then 62 else 63

theorem map_valueOfCode : alphabet.map (fun c => valueOfCode c.toNat) = List.range 64 := by
  rw [alphabet_eq]
  rfl

/-- No character stands for two values: the codes tell them apart. -/
theorem nodup_alphabet : alphabet.Nodup :=
  List.Nodup.of_map (fun c => valueOfCode c.toNat) (map_valueOfCode ▸ List.nodup_range)

theorem char_eq_getElem {n : Nat} (h : n < alphabet.length) : char n = alphabet[n] := by
  rw [char, List.getD_eq_getElem?_getD, List.getElem?_eq_getElem h, Option.getD_some]

theorem char_mem {n : Nat} (h : n < 64) : char n ∈ alphabet := by
  rw [char_eq_getElem (length_alphabet ▸ h)]
  exact List.getElem_mem _

theorem digit_char {n : Nat} (h : n < 64) : digit (char n) = some n := by
  have hn : n < alphabet.length := length_alphabet ▸ h
  rw [char_eq_getElem hn, digit, List.findIdx?_eq_some_iff_getElem]
  refine ⟨hn, by simp, ?_⟩
  intro j hj
  have hne : alphabet[j] ≠ alphabet[n] := by
    rw [Ne, nodup_alphabet.getElem_inj_iff]
    omega
  simpa using hne

theorem pad_notMem : '=' ∉ alphabet := by
  rw [alphabet_eq]
  simp

theorem char_ne_pad {n : Nat} (h : n < 64) : char n ≠ '=' := by
  intro heq
  exact pad_notMem (heq ▸ char_mem h)

/-- The characters of a list of bytes. -/
def encodeChars : List UInt8 → List Char
  | [] => []
  | [a] => [char (a.toNat / 4), char (a.toNat % 4 * 16), '=', '=']
  | [a, b] =>
      [char (a.toNat / 4), char (a.toNat % 4 * 16 + b.toNat / 16), char (b.toNat % 16 * 4), '=']
  | a :: b :: c :: rest =>
      char (a.toNat / 4) :: char (a.toNat % 4 * 16 + b.toNat / 16) ::
        char (b.toNat % 16 * 4 + c.toNat / 64) :: char (c.toNat % 64) :: encodeChars rest

/-- The last group of characters, without its final `=`. -/
def decodeLast (a b c : Char) : Option (List UInt8) :=
  if c = '=' then do
    let x ← digit a
    let y ← digit b
    if y % 16 = 0 then some [.ofNat (x * 4 + y / 16)] else none
  else do
    let x ← digit a
    let y ← digit b
    let z ← digit c
    if z % 4 = 0 then some [.ofNat (x * 4 + y / 16), .ofNat (y % 16 * 16 + z / 4)] else none

/-- The bytes of a list of characters. -/
def decodeChars : List Char → Option (List UInt8)
  | [] => some []
  | a :: b :: c :: d :: rest =>
      if d = '=' ∧ rest = [] then decodeLast a b c
      else do
        let x ← digit a
        let y ← digit b
        let z ← digit c
        let w ← digit d
        let tail ← decodeChars rest
        return .ofNat (x * 4 + y / 16) :: .ofNat (y % 16 * 16 + z / 4) ::
          .ofNat (z % 4 * 64 + w) :: tail
  | _ => none

def encode (bytes : List UInt8) : String := String.ofList (encodeChars bytes)

def decode (text : String) : Option (List UInt8) := decodeChars text.toList

theorem ofNat_eq {n : Nat} {a : UInt8} (h : n = a.toNat) : UInt8.ofNat n = a := by
  rw [h, UInt8.ofNat_toNat]

theorem decodeChars_encodeChars (bytes : List UInt8) :
    decodeChars (encodeChars bytes) = some bytes := by
  induction bytes using encodeChars.induct with
  | case1 => rfl
  | case2 a =>
    have ha := a.toNat_lt
    rw [encodeChars, decodeChars, if_pos ⟨rfl, rfl⟩, decodeLast, if_pos rfl,
      digit_char (by omega), digit_char (by omega)]
    simp only [Option.bind_eq_bind, Option.bind_some]
    rw [if_pos (by omega), ofNat_eq (a := a) (by omega)]
  | case3 a b =>
    have ha := a.toNat_lt
    have hb := b.toNat_lt
    rw [encodeChars, decodeChars, if_pos ⟨rfl, rfl⟩, decodeLast,
      if_neg (char_ne_pad (by omega)), digit_char (by omega), digit_char (by omega),
      digit_char (by omega)]
    simp only [Option.bind_eq_bind, Option.bind_some]
    rw [if_pos (by omega), ofNat_eq (a := a) (by omega), ofNat_eq (a := b) (by omega)]
  | case4 a b c rest ih =>
    have ha := a.toNat_lt
    have hb := b.toNat_lt
    have hc := c.toNat_lt
    rw [encodeChars, decodeChars, if_neg fun h => char_ne_pad (by omega) h.1,
      digit_char (by omega), digit_char (by omega), digit_char (by omega), digit_char (by omega),
      ih]
    simp only [Option.bind_eq_bind, Option.bind_some, Option.pure_def]
    rw [ofNat_eq (a := a) (by omega), ofNat_eq (a := b) (by omega), ofNat_eq (a := c) (by omega)]

/-- **The round trip.** -/
@[simp] theorem decode_encode (bytes : List UInt8) : decode (encode bytes) = some bytes := by
  rw [decode, encode, String.toList_ofList, decodeChars_encodeChars]

/-! ## The length of the text -/

theorem map_utf8Size_alphabet : alphabet.map Char.utf8Size = List.replicate 64 1 := by
  rw [alphabet_eq]
  rfl

theorem utf8Size_char {n : Nat} (h : n < 64) : (char n).utf8Size = 1 :=
  List.eq_of_mem_replicate (map_utf8Size_alphabet ▸ List.mem_map_of_mem (char_mem h))

/-- Every character of an encoding is one byte in UTF-8. -/
theorem utf8Len_encodeChars (bytes : List UInt8) :
    String.utf8Len (encodeChars bytes) = (bytes.length + 2) / 3 * 4 := by
  have hpad : '='.utf8Size = 1 := rfl
  induction bytes using encodeChars.induct with
  | case1 => rfl
  | case2 a =>
    have ha := a.toNat_lt
    rw [encodeChars]
    simp only [String.utf8Len_cons, String.utf8Len_nil, hpad]
    rw [utf8Size_char (by omega), utf8Size_char (by omega)]
    simp
  | case3 a b =>
    have ha := a.toNat_lt
    have hb := b.toNat_lt
    rw [encodeChars]
    simp only [String.utf8Len_cons, String.utf8Len_nil, hpad]
    rw [utf8Size_char (by omega), utf8Size_char (by omega), utf8Size_char (by omega)]
    simp
  | case4 a b c rest ih =>
    have ha := a.toNat_lt
    have hb := b.toNat_lt
    have hc := c.toNat_lt
    have hlen : (a :: b :: c :: rest).length = rest.length + 3 := rfl
    rw [encodeChars, hlen]
    simp only [String.utf8Len_cons]
    rw [ih, utf8Size_char (by omega), utf8Size_char (by omega), utf8Size_char (by omega),
      utf8Size_char (by omega)]
    omega

/-- **The size of an encoding.** -/
theorem utf8ByteSize_encode (bytes : List UInt8) :
    (encode bytes).utf8ByteSize = (bytes.length + 2) / 3 * 4 := by
  rw [encode, String.utf8ByteSize_ofList, utf8Len_encodeChars]

end Relayfs.Lib.Base64
