/-
  File:      Relayfs/Lib/FormUrl.lean
  Subject:   FORM-URLENCODED TEXTS, as the URL standard reads them, and what may be written for a
             text.

  * `percentDecode`, `formDecode`, `formParse` -- the reader: pieces between `&`, each split at its
    first `=`, a `+` for a space, an escape for a byte, anything else as it stands;
  * `urlQuery` -- the query of a URL;
  * `FormEncodes` -- the writer, byte by byte, with any choice it has;
  * `UrlWrites` -- a text as a client sends it in a URL: what a URL may not have is escaped;
  * `formDecode_eq_self_iff` -- a text reads as itself exactly when it has no `+` and no escape;
  * `formParse_one_iff` -- a name and a text read as one pair with that text exactly when the text
    has no separator either.
-/
import Mathlib.Data.List.Infix
import Mathlib.Data.List.TakeWhile
import Relayfs.Lib.Utf8

namespace Relayfs.Lib

/-! ## 1. The reader -/

/-- The value of a hexadecimal digit, by its code. -/
def hexValue (n : Nat) : Option Nat :=
  if 48 ≤ n ∧ n ≤ 57 then some (n - 48)
  else if 65 ≤ n ∧ n ≤ 70 then some (n - 55)
  else if 97 ≤ n ∧ n ≤ 102 then some (n - 87)
  else none

/-- Percent-decoding: a `%` that begins no escape stays. -/
def percentDecode : List UInt8 → List UInt8
  | 37 :: h1 :: h2 :: rest =>
      match hexValue h1.toNat, hexValue h2.toNat with
      | some n1, some n2 => UInt8.ofNat (n1 * 16 + n2) :: percentDecode rest
      | _, _ => 37 :: percentDecode (h1 :: h2 :: rest)
  | b :: rest => b :: percentDecode rest
  | [] => []

theorem percentDecode_percent_cons (h1 h2 : UInt8) (rest : List UInt8) :
    percentDecode (37 :: h1 :: h2 :: rest) =
      match hexValue h1.toNat, hexValue h2.toNat with
      | some n1, some n2 => UInt8.ofNat (n1 * 16 + n2) :: percentDecode rest
      | _, _ => 37 :: percentDecode (h1 :: h2 :: rest) := rfl

/-- A `+` stands for a space. -/
def plusToSpace (chars : List Char) : List Char := chars.map fun c => if c = '+' then ' ' else c

/-- A name or a value of a pair. -/
def formDecode (chars : List Char) : String :=
  fromUtf8Lossy (percentDecode ((plusToSpace chars).flatMap String.utf8EncodeChar))

/-- A piece between two separators. -/
def formPair (piece : List Char) : String × String :=
  (formDecode (piece.takeWhile (· ≠ '=')), formDecode ((piece.dropWhile (· ≠ '=')).drop 1))

/-- **The pairs of a text.** Empty pieces are none. -/
def formParse (text : String) : List (String × String) :=
  ((text.toList.splitOn '&').filter (· ≠ [])).map formPair

theorem formParse_ofList (chars : List Char) :
    formParse (String.ofList chars) = ((chars.splitOn '&').filter (· ≠ [])).map formPair := by
  rw [formParse, String.toList_ofList]

/-- The query of a URL: from the first `?` to the fragment. -/
def urlQuery (url : String) : Option String :=
  match (url.toList.takeWhile (· ≠ '#')).dropWhile (· ≠ '?') with
  | _ :: query => some (String.ofList query)
  | [] => none

theorem urlQuery_ofList (chars : List Char) :
    urlQuery (String.ofList chars) =
      match (chars.takeWhile (· ≠ '#')).dropWhile (· ≠ '?') with
      | _ :: query => some (String.ofList query)
      | [] => none := by
  rw [urlQuery, String.toList_ofList]

example : formParse "a=1+2&&b=%41%4&c" = [("a", "1 2"), ("b", "A%4"), ("c", "")] :=
  (formParse_ofList _).trans rfl

/-! ## 2. The writer -/

/-- The code of a hexadecimal digit for a number, in either case. -/
def HexFor (d n : Nat) : Prop :=
  (n < 10 ∧ d = 48 + n) ∨ (10 ≤ n ∧ n < 16 ∧ (d = 55 + n ∨ d = 87 + n))

instance (d n : Nat) : Decidable (HexFor d n) := inferInstanceAs (Decidable (_ ∨ _))

/-- **What may be written for bytes**: a byte as it stands, if it is none of `%`, `+`, `&` and `#`;
    an escape of it; a `+` for a space. -/
inductive FormEncodes : List UInt8 → List UInt8 → Prop where
  | nil : FormEncodes [] []
  | literal {b : UInt8} {t e : List UInt8} (hb : b ≠ 37 ∧ b ≠ 43 ∧ b ≠ 38 ∧ b ≠ 35)
      (h : FormEncodes t e) : FormEncodes (b :: t) (b :: e)
  | escape {b d1 d2 : UInt8} {t e : List UInt8} (h1 : HexFor d1.toNat (b.toNat / 16))
      (h2 : HexFor d2.toNat (b.toNat % 16)) (h : FormEncodes t e) :
      FormEncodes (b :: t) (37 :: d1 :: d2 :: e)
  | space {t e : List UInt8} (h : FormEncodes t e) : FormEncodes (32 :: t) (43 :: e)

theorem HexFor.ne_separator {d : UInt8} {n : Nat} (h : HexFor d.toNat n) : d ≠ 38 := by
  intro heq
  subst heq
  have h38 : UInt8.toNat 38 = 38 := rfl
  rw [h38] at h
  rcases h with ⟨hn, h⟩ | ⟨hlo, hhi, h⟩
  · omega
  · omega

/-- What is written has no separator of pairs. -/
theorem FormEncodes.no_separator {t e : List UInt8} (h : FormEncodes t e) : 38 ∉ e := by
  induction h with
  | nil => exact List.not_mem_nil
  | literal hb _ ih => exact List.not_mem_cons_of_ne_of_not_mem hb.2.2.1.symm ih
  | escape h1 h2 _ ih =>
    refine List.not_mem_cons_of_ne_of_not_mem (by decide) ?_
    refine List.not_mem_cons_of_ne_of_not_mem h1.ne_separator.symm ?_
    exact List.not_mem_cons_of_ne_of_not_mem h2.ne_separator.symm ih
  | space _ ih => exact List.not_mem_cons_of_ne_of_not_mem (by decide) ih

/-- The ASCII characters that a URL does not take as they are, or that a client may escape. -/
def urlEscaped (c : Char) : Bool := c ∈ " \"<>'[\\]^`\x7b|\x7d".toList

theorem urlEscaped_ascii {c : Char} (h : urlEscaped c = true) : c.toNat < 0x80 := by
  have hall : ∀ c ∈ " \"<>'[\\]^`\x7b|\x7d".toList, c.toNat < 0x80 := by simp
  exact hall c (of_decide_eq_true h)

/-- **A text of a URL as a client sends it**: each character as it stands, or its escape. -/
inductive UrlWrites : List Char → List Char → Prop where
  | nil : UrlWrites [] []
  | keep {c : Char} {t e : List Char} (h : UrlWrites t e) : UrlWrites (c :: t) (c :: e)
  | escape {c d1 d2 : Char} {t e : List Char} (hc : urlEscaped c = true)
      (h1 : HexFor d1.toNat (c.toNat / 16)) (h2 : HexFor d2.toNat (c.toNat % 16))
      (h : UrlWrites t e) : UrlWrites (c :: t) ('%' :: d1 :: d2 :: e)

theorem UrlWrites.refl : ∀ chars : List Char, UrlWrites chars chars
  | [] => .nil
  | _ :: chars => .keep (UrlWrites.refl chars)

/-- What is never escaped is sent as it is. -/
theorem UrlWrites.plain_front {front t sent : List Char}
    (hfront : ∀ c ∈ front, urlEscaped c = false) (h : UrlWrites (front ++ t) sent) :
    ∃ e, sent = front ++ e ∧ UrlWrites t e := by
  induction front generalizing sent with
  | nil => exact ⟨sent, rfl, h⟩
  | cons c front ih =>
    rw [List.forall_mem_cons] at hfront
    cases h with
    | keep h =>
      obtain ⟨e, rfl, he⟩ := ih hfront.2 h
      exact ⟨e, rfl, he⟩
    | escape hc =>
      rw [hfront.1] at hc
      cases hc

/-! ## 3. Characters and escapes -/

/-- A character below 128 is its byte. -/
theorem encodeChar_ascii {c : Char} (h : c.toNat < 0x80) :
    String.utf8EncodeChar c = [UInt8.ofNat c.toNat] := by
  rw [String.utf8EncodeChar, if_pos (show c.val.toNat ≤ 0x7F from Nat.le_of_lt_succ h)]
  rfl

/-- The bytes of any other are 128 and above. -/
theorem encodeChar_high {c : Char} (h : 0x80 ≤ c.toNat) {b : UInt8}
    (hb : b ∈ String.utf8EncodeChar c) : 0x80 ≤ b.toNat := by
  have hval : c.val.toNat = c.toNat := rfl
  rw [String.utf8EncodeChar, hval, if_neg (by omega)] at hb
  split at hb
  · simp only [List.mem_cons, List.not_mem_nil, or_false] at hb
    rcases hb with rfl | rfl <;> rw [toNat_ofNat (by omega)] <;> omega
  split at hb
  · simp only [List.mem_cons, List.not_mem_nil, or_false] at hb
    rcases hb with rfl | rfl | rfl <;> rw [toNat_ofNat (by omega)] <;> omega
  · simp only [List.mem_cons, List.not_mem_nil, or_false] at hb
    rcases hb with rfl | rfl | rfl | rfl <;> rw [toNat_ofNat (by omega)] <;> omega

theorem HexFor.lt {d n : Nat} (h : HexFor d n) : d < 0x80 := by
  rcases h with ⟨hn, h⟩ | ⟨hlo, hhi, h⟩ <;> omega

/-- A byte of a character that is none of the four is none of the four. -/
theorem FormEncodes.literals {c : Char} (hc : c ≠ '%' ∧ c ≠ '+' ∧ c ≠ '&' ∧ c ≠ '#')
    {t e : List UInt8} (h : FormEncodes t e) :
    FormEncodes (String.utf8EncodeChar c ++ t) (String.utf8EncodeChar c ++ e) := by
  by_cases hlow : c.toNat < 0x80
  · rw [encodeChar_ascii hlow]
    have hne : ∀ d : Char, d.toNat < 0x80 → c ≠ d →
        UInt8.ofNat c.toNat ≠ UInt8.ofNat d.toNat := by
      intro d hd hcd heq
      have hnat := congrArg UInt8.toNat heq
      rw [toNat_ofNat (by omega), toNat_ofNat (by omega)] at hnat
      exact hcd (Char.toNat_inj.mp hnat)
    exact .literal ⟨hne '%' (by decide) hc.1, hne '+' (by decide) hc.2.1,
      hne '&' (by decide) hc.2.2.1, hne '#' (by decide) hc.2.2.2⟩ h
  · have hhigh : ∀ b ∈ String.utf8EncodeChar c, 0x80 ≤ b.toNat := fun b hb =>
      encodeChar_high (Nat.not_lt.mp hlow) hb
    generalize String.utf8EncodeChar c = bytes at hhigh
    induction bytes with
    | nil => exact h
    | cons b bytes ih =>
      rw [List.forall_mem_cons] at hhigh
      have hne : ∀ d : UInt8, d.toNat < 0x80 → b ≠ d := by
        intro d hd heq'
        subst heq'
        omega
      exact .literal ⟨hne 37 (by decide), hne 43 (by decide), hne 38 (by decide),
        hne 35 (by decide)⟩ (ih hhigh.2)

/-- **What a client sends for a text with none of the four characters is an encoding of it.** -/
theorem UrlWrites.encodes {t e : List Char}
    (ht : ∀ c ∈ t, c ≠ '%' ∧ c ≠ '+' ∧ c ≠ '&' ∧ c ≠ '#') (h : UrlWrites t e) :
    FormEncodes (t.flatMap String.utf8EncodeChar) (e.flatMap String.utf8EncodeChar) := by
  induction h with
  | nil => exact .nil
  | keep _ ih =>
    rw [List.forall_mem_cons] at ht
    exact .literals ht.1 (ih ht.2)
  | @escape c d1 d2 t e hc h1 h2 _ ih =>
    rw [List.forall_mem_cons] at ht
    have hlow := urlEscaped_ascii hc
    have hpercent : String.utf8EncodeChar '%' = [37] := rfl
    simp only [List.flatMap_cons, hpercent, encodeChar_ascii hlow, encodeChar_ascii h1.lt,
      encodeChar_ascii h2.lt, List.singleton_append]
    refine .escape ?_ ?_ (ih ht.2)
    · rw [toNat_ofNat (by have := h1.lt; omega), toNat_ofNat (by omega)]
      exact h1
    · rw [toNat_ofNat (by have := h2.lt; omega), toNat_ofNat (by omega)]
      exact h2

theorem hexValue_lt {n v : Nat} (h : hexValue n = some v) : n < 0x80 := by
  unfold hexValue at h
  split_ifs at h <;> omega

theorem hexValue_high {n : Nat} (h : 0x80 ≤ n) : hexValue n = none := by
  cases hv : hexValue n with
  | none => rfl
  | some v => exact absurd (hexValue_lt hv) (Nat.not_lt.mpr h)

/-- Two hexadecimal digits in front. -/
def StartsHex (chars : List Char) : Prop :=
  ∃ c1 c2 back n1 n2, chars = c1 :: c2 :: back ∧ hexValue c1.toNat = some n1 ∧
    hexValue c2.toNat = some n2

/-- **An escape**: two hexadecimal digits after a `%`. -/
def HasEscape (chars : List Char) : Prop :=
  ∃ front back, chars = front ++ '%' :: back ∧ StartsHex back

theorem HasEscape.percent_mem {chars : List Char} (h : HasEscape chars) : '%' ∈ chars := by
  obtain ⟨front, back, rfl, -⟩ := h
  exact List.mem_append_right _ List.mem_cons_self

/-- What is decoded of characters: each escape a byte, every other character itself. -/
def percentUnits : List Char → List Utf8Unit
  | '%' :: c1 :: c2 :: rest =>
      match hexValue c1.toNat, hexValue c2.toNat with
      | some n1, some n2 => Sum.inr (UInt8.ofNat (n1 * 16 + n2)) :: percentUnits rest
      | _, _ => Sum.inl '%' :: percentUnits (c1 :: c2 :: rest)
  | c :: rest => Sum.inl c :: percentUnits rest
  | [] => []

theorem percentUnits_percent_cons (c1 c2 : Char) (rest : List Char) :
    percentUnits ('%' :: c1 :: c2 :: rest) =
      match hexValue c1.toNat, hexValue c2.toNat with
      | some n1, some n2 => Sum.inr (UInt8.ofNat (n1 * 16 + n2)) :: percentUnits rest
      | _, _ => Sum.inl '%' :: percentUnits (c1 :: c2 :: rest) := rfl

section Decode

variable {b h1 h2 : UInt8} {n1 n2 : Nat} {rest : List UInt8}

theorem percentDecode_of_ne (hb : b ≠ 37) (rest : List UInt8) :
    percentDecode (b :: rest) = b :: percentDecode rest := by
  rw [percentDecode.eq_def]
  split
  · rename_i heq
    exact absurd (List.cons.inj heq).1 hb
  · rename_i heq
    obtain ⟨rfl, rfl⟩ := List.cons.inj heq
    rfl
  · rename_i heq
    cases heq

theorem percentDecode_escape (hv1 : hexValue h1.toNat = some n1) (hv2 : hexValue h2.toNat = some n2) :
    percentDecode (37 :: h1 :: h2 :: rest)
      = UInt8.ofNat (n1 * 16 + n2) :: percentDecode rest := by
  rw [percentDecode_percent_cons, hv1, hv2]

/-- A `%` that begins no escape. -/
theorem percentDecode_percent
    (h : ∀ h1 h2 back, rest = h1 :: h2 :: back →
      hexValue h1.toNat = none ∨ hexValue h2.toNat = none) :
    percentDecode (37 :: rest) = 37 :: percentDecode rest := by
  match rest with
  | [] => rfl
  | [b] => rfl
  | h1 :: h2 :: back =>
    rw [percentDecode_percent_cons]
    rcases h h1 h2 back rfl with hnone | hnone
    · rw [hnone]
    · rw [hnone]
      cases hexValue h1.toNat <;> rfl

end Decode

/-- A character is a hexadecimal digit where its first byte is one. -/
theorem hexValue_first (c : Char) : ∃ b rest, String.utf8EncodeChar c = b :: rest ∧
    hexValue b.toNat = hexValue c.toNat ∧ ((hexValue c.toNat).isSome → rest = []) := by
  by_cases hc : c.toNat < 0x80
  · refine ⟨_, [], encodeChar_ascii hc, ?_, fun _ => rfl⟩
    rw [toNat_ofNat (by omega)]
  · obtain ⟨b, rest, hb, -⟩ := encodeChar_first c
    have hhigh : 0x80 ≤ b.toNat :=
      encodeChar_high (Nat.not_lt.mp hc) (by rw [hb]; exact List.mem_cons_self)
    refine ⟨b, rest, hb, ?_, fun h => ?_⟩
    · rw [hexValue_high hhigh, hexValue_high (Nat.not_lt.mp hc)]
    · rw [hexValue_high (Nat.not_lt.mp hc)] at h
      cases h

/-- The bytes of characters that do not begin with two hexadecimal digits do not either. -/
theorem no_escape_bytes {chars : List Char} (h : ¬ StartsHex chars) (h1 h2 : UInt8)
    (back : List UInt8) (heq : chars.flatMap String.utf8EncodeChar = h1 :: h2 :: back) :
    hexValue h1.toNat = none ∨ hexValue h2.toNat = none := by
  cases chars with
  | nil => cases heq
  | cons c1 rest =>
    obtain ⟨b1, rest1, hb1, hv1, hone⟩ := hexValue_first c1
    rw [List.flatMap_cons, hb1, List.cons_append] at heq
    obtain ⟨rfl, hsecond⟩ := List.cons.inj heq
    cases hc1 : hexValue c1.toNat with
    | none => exact .inl (hv1.trans hc1)
    | some n1 =>
      -- the second byte is the first of the next character
      rw [hone (by rw [hc1]; rfl), List.nil_append] at hsecond
      cases rest with
      | nil => cases hsecond
      | cons c2 rest =>
        obtain ⟨b2, rest2, hb2, hv2, -⟩ := hexValue_first c2
        rw [List.flatMap_cons, hb2, List.cons_append] at hsecond
        obtain ⟨rfl, -⟩ := List.cons.inj hsecond
        cases hc2 : hexValue c2.toNat with
        | none => exact .inr (hv2.trans hc2)
        | some n2 => exact absurd ⟨c1, c2, rest, n1, n2, rfl, hc1, hc2⟩ h

/-- A character that is no `%` passes. -/
theorem percentDecode_char {c : Char} (hc : c ≠ '%') (rest : List UInt8) :
    percentDecode (String.utf8EncodeChar c ++ rest)
      = String.utf8EncodeChar c ++ percentDecode rest := by
  have hbytes : ∀ b ∈ String.utf8EncodeChar c, b ≠ 37 := by
    by_cases hlow : c.toNat < 0x80
    · rw [encodeChar_ascii hlow, List.forall_mem_singleton]
      intro h
      have h37 : c.toNat = 37 := by
        rw [← toNat_ofNat (show c.toNat < 256 by omega), h]
        rfl
      exact hc (Char.toNat_inj.mp h37)
    · intro b hb
      have hhigh := encodeChar_high (Nat.not_lt.mp hlow) hb
      intro heq
      subst heq
      exact absurd hhigh (by decide)
  generalize String.utf8EncodeChar c = bytes at hbytes
  induction bytes with
  | nil => rfl
  | cons b bytes ih =>
    rw [List.forall_mem_cons] at hbytes
    rw [List.cons_append, percentDecode_of_ne hbytes.1, ih hbytes.2, List.cons_append]

/-- A character that begins no escape is itself. -/
theorem percentUnits_cons {c : Char} {rest : List Char} (h : ¬ (c = '%' ∧ StartsHex rest)) :
    percentUnits (c :: rest) = Sum.inl c :: percentUnits rest := by
  rw [percentUnits.eq_def]
  split
  · rename_i c1 c2 back heq
    obtain ⟨rfl, rfl⟩ := List.cons.inj heq
    cases hv1 : hexValue c1.toNat with
    | none => rfl
    | some n1 =>
      cases hv2 : hexValue c2.toNat with
      | none => rfl
      | some n2 => exact absurd ⟨rfl, c1, c2, back, n1, n2, rfl, hv1, hv2⟩ h
  · rename_i heq
    obtain ⟨rfl, rfl⟩ := List.cons.inj heq
    rfl
  · rename_i heq
    cases heq

/-- **What is decoded of characters.** -/
theorem percentDecode_units (chars : List Char) :
    percentDecode (chars.flatMap String.utf8EncodeChar)
      = (percentUnits chars).flatMap Utf8Unit.bytes := by
  match chars with
  | [] => rfl
  | c :: rest =>
    have hpercent : String.utf8EncodeChar '%' = [37] := rfl
    by_cases h : c = '%' ∧ StartsHex rest
    · obtain ⟨rfl, c1, c2, back, n1, n2, rfl, hv1, hv2⟩ := h
      obtain ⟨b1, rest1, hb1, hval1, hone1⟩ := hexValue_first c1
      obtain ⟨b2, rest2, hb2, hval2, hone2⟩ := hexValue_first c2
      obtain rfl := hone1 (by rw [hv1]; rfl)
      obtain rfl := hone2 (by rw [hv2]; rfl)
      rw [percentUnits_percent_cons, hv1, hv2]
      simp only [List.flatMap_cons, hpercent, hb1, hb2, List.singleton_append, Utf8Unit.bytes]
      rw [percentDecode_escape (hval1.trans hv1) (hval2.trans hv2), percentDecode_units back]
    · rw [percentUnits_cons h, List.flatMap_cons, List.flatMap_cons, Utf8Unit.bytes,
        ← percentDecode_units rest]
      by_cases hc : c = '%'
      · subst hc
        rw [hpercent, List.singleton_append, List.singleton_append,
          percentDecode_percent (no_escape_bytes fun hstarts => h ⟨rfl, hstarts⟩)]
      · exact percentDecode_char hc _
termination_by chars.length

/-! ## 4. What reads as itself -/

theorem not_hasEscape_nil : ¬ HasEscape [] := by
  intro h
  obtain ⟨front, back, heq, -⟩ := h
  cases front <;> cases heq

theorem hasEscape_cons {c : Char} {rest : List Char} :
    HasEscape (c :: rest) ↔ (c = '%' ∧ StartsHex rest) ∨ HasEscape rest := by
  constructor
  · intro h
    obtain ⟨front, back, heq, hback⟩ := h
    cases front with
    | nil =>
      obtain ⟨rfl, rfl⟩ := List.cons.inj heq
      exact .inl ⟨rfl, hback⟩
    | cons c' front =>
      obtain ⟨rfl, rfl⟩ := List.cons.inj heq
      exact .inr ⟨front, back, rfl, hback⟩
  · intro h
    obtain ⟨rfl, hback⟩ | ⟨front, back, rfl, hback⟩ := h
    · exact ⟨[], rest, rfl, hback⟩
    · exact ⟨c :: front, back, rfl, hback⟩

/-- Without an escape every character is itself. -/
theorem percentUnits_plain {chars : List Char} (h : ¬ HasEscape chars) :
    percentUnits chars = chars.map Sum.inl := by
  induction chars with
  | nil => rfl
  | cons c rest ih =>
    rw [hasEscape_cons, not_or] at h
    rw [percentUnits_cons h.1, ih h.2, List.map_cons]

theorem length_percentUnits_le (chars : List Char) :
    (percentUnits chars).length ≤ chars.length := by
  match chars with
  | [] => exact Nat.le_refl _
  | c :: rest =>
    by_cases h : c = '%' ∧ StartsHex rest
    · obtain ⟨rfl, c1, c2, back, n1, n2, rfl, hv1, hv2⟩ := h
      have ih := length_percentUnits_le back
      rw [percentUnits_percent_cons, hv1, hv2]
      simp only [List.length_cons]
      omega
    · have ih := length_percentUnits_le rest
      rw [percentUnits_cons h, List.length_cons, List.length_cons]
      omega
termination_by chars.length

/-- An escape is shorter than it was. -/
theorem length_percentUnits_lt {chars : List Char} (h : HasEscape chars) :
    (percentUnits chars).length < chars.length := by
  induction chars with
  | nil => exact absurd h not_hasEscape_nil
  | cons c rest ih =>
    by_cases hc : c = '%' ∧ StartsHex rest
    · obtain ⟨rfl, c1, c2, back, n1, n2, rfl, hv1, hv2⟩ := hc
      have hle := length_percentUnits_le back
      rw [percentUnits_percent_cons, hv1, hv2]
      simp only [List.length_cons]
      omega
    · have hrest := ih ((hasEscape_cons.mp h).resolve_left hc)
      rw [percentUnits_cons hc, List.length_cons, List.length_cons]
      omega

theorem plusToSpace_eq_self_iff {chars : List Char} : plusToSpace chars = chars ↔ '+' ∉ chars := by
  induction chars with
  | nil => simp [plusToSpace]
  | cons c chars ih =>
    rw [plusToSpace, List.map_cons, ← plusToSpace, List.cons.injEq, ih, List.mem_cons, not_or]
    refine and_congr_left fun _ => ?_
    by_cases hc : c = '+'
    · subst hc
      exact iff_of_false (by decide) (by simp)
    · rw [if_neg hc]
      exact iff_of_true rfl (Ne.symm hc)

/-- A decoded text has at most one character for each that was read. -/
theorem length_formDecode_le (chars : List Char) :
    (formDecode chars).toList.length ≤ (percentUnits (plusToSpace chars)).length := by
  have h := length_utf8Chars_le (percentUnits (plusToSpace chars)) none (by simp)
  rw [formDecode, percentDecode_units, fromUtf8Lossy, String.toList_ofList]
  simpa using h

theorem formDecode_plain {chars : List Char} (h : ¬ HasEscape (plusToSpace chars)) :
    formDecode chars = String.ofList (plusToSpace chars) := by
  have hbytes : (plusToSpace chars).flatMap String.utf8EncodeChar
      = utf8Bytes (String.ofList (plusToSpace chars)) := by
    rw [utf8Bytes, String.toList_ofList]
  have hunits : percentDecode ((plusToSpace chars).flatMap String.utf8EncodeChar)
      = (plusToSpace chars).flatMap String.utf8EncodeChar := by
    rw [percentDecode_units, percentUnits_plain h, List.flatMap_map]
    rfl
  rw [formDecode, hunits, hbytes, fromUtf8Lossy_utf8Bytes]

/-- **A text reads as itself exactly when it has no `+` and no escape.** -/
theorem formDecode_eq_self_iff {chars : List Char} :
    formDecode chars = String.ofList chars ↔ '+' ∉ chars ∧ ¬ HasEscape chars := by
  constructor
  · intro h
    have hlen := length_formDecode_le chars
    have hplus : (plusToSpace chars).length = chars.length := List.length_map _
    rw [h, String.toList_ofList] at hlen
    -- an escape would make it shorter
    have hno : ¬ HasEscape (plusToSpace chars) := fun hescape => by
      have hlt := length_percentUnits_lt hescape
      omega
    rw [formDecode_plain hno] at h
    have hself : plusToSpace chars = chars := String.ofList_injective h
    rw [hself] at hno
    exact ⟨plusToSpace_eq_self_iff.mp hself, hno⟩
  · intro h'
    obtain ⟨hplus, hno⟩ := h'
    have hself := plusToSpace_eq_self_iff.mpr hplus
    rw [formDecode_plain (by rwa [hself]), hself]

theorem formDecode_toList {s : String} (hplus : '+' ∉ s.toList) (hpercent : '%' ∉ s.toList) :
    formDecode s.toList = s := by
  rw [formDecode_eq_self_iff.mpr ⟨hplus, fun h => hpercent h.percent_mem⟩, String.ofList_toList]

/-! ## 5. Pairs -/

/-- The pairs of two texts with a separator between them. -/
theorem formParse_append (a b : List Char) :
    formParse (String.ofList (a ++ '&' :: b))
      = formParse (String.ofList a) ++ formParse (String.ofList b) := by
  simp only [formParse, String.toList_ofList, List.splitOn_append_cons_self, List.filter_append,
    List.map_append]

/-- What is before the first separator is the first piece. -/
theorem splitOn_first {α : Type} [DecidableEq α] (sep : α) (l : List α) :
    ∃ rest, l.splitOn sep = l.takeWhile (· ≠ sep) :: rest ∧ (sep ∉ l → rest = []) := by
  induction l with
  | nil => exact ⟨[], rfl, fun _ => rfl⟩
  | cons c l ih =>
    obtain ⟨rest, hsplit, hone⟩ := ih
    rw [List.splitOn_cons_eq_if_modifyHead, hsplit]
    by_cases hc : c = sep
    · subst hc
      exact ⟨l.takeWhile (· ≠ c) :: rest, by simp, fun h => absurd List.mem_cons_self h⟩
    · exact ⟨rest, by simp [hc], fun h => hone fun hmem => h (List.mem_cons_of_mem _ hmem)⟩

/-- A piece is shorter than the whole by the separators at least. -/
theorem length_piece {α : Type} [DecidableEq α] {sep : α} {l p : List α}
    (hp : p ∈ l.splitOn sep) : p.length + l.count sep ≤ l.length := by
  induction l generalizing p with
  | nil =>
    rw [List.splitOn_nil, List.mem_singleton] at hp
    subst hp
    exact Nat.le_refl _
  | cons c l ih =>
    rw [List.splitOn_cons_eq_if_modifyHead] at hp
    by_cases hc : c = sep
    · subst hc
      rw [if_pos (by simp)] at hp
      rw [List.count_cons_self, List.length_cons]
      rcases List.mem_cons.mp hp with rfl | hp
      · have hle := List.count_le_length (a := c) (l := l)
        rw [List.length_nil]
        omega
      · have hle := ih hp
        omega
    · rw [if_neg (by simpa using hc)] at hp
      rw [List.count_cons_of_ne (by simpa using hc), List.length_cons]
      obtain ⟨first, rest, hsplit⟩ := List.exists_cons_of_ne_nil (List.splitOn_ne_nil sep l)
      rw [hsplit, List.modifyHead_cons] at hp
      rcases List.mem_cons.mp hp with rfl | hp
      · have hle := ih (p := first) (by rw [hsplit]; exact List.mem_cons_self)
        rw [List.length_cons]
        omega
      · have hle := ih (p := p) (by rw [hsplit]; exact List.mem_cons_of_mem _ hp)
        omega

/-- A piece is a part of the whole. -/
theorem piece_sublist {α : Type} [DecidableEq α] {sep : α} {l p : List α}
    (hp : p ∈ l.splitOn sep) : p.Sublist l := by
  induction l generalizing p with
  | nil =>
    rw [List.splitOn_nil, List.mem_singleton] at hp
    exact hp ▸ .refl _
  | cons c l ih =>
    rw [List.splitOn_cons_eq_if_modifyHead] at hp
    split at hp
    · rcases List.mem_cons.mp hp with rfl | hp
      · exact List.nil_sublist _
      · exact (ih hp).cons c
    · obtain ⟨first, rest, hsplit⟩ := List.exists_cons_of_ne_nil (List.splitOn_ne_nil sep l)
      rw [hsplit, List.modifyHead_cons] at hp
      rcases List.mem_cons.mp hp with rfl | hp
      · exact (ih (by rw [hsplit]; exact List.mem_cons_self)).cons_cons c
      · exact (ih (by rw [hsplit]; exact List.mem_cons_of_mem _ hp)).cons c

/-- A piece with a name. -/
theorem formPair_named {name chars : List Char} (hname : '=' ∉ name) :
    formPair (name ++ '=' :: chars) = (formDecode name, formDecode chars) := by
  have hall : ∀ c ∈ name, (decide (c ≠ '=')) = true := fun c hc =>
    decide_eq_true fun h => hname (h ▸ hc)
  rw [formPair, List.takeWhile_append_of_pos hall, List.dropWhile_append_of_pos hall]
  simp

/-- The pairs of a text that begins with a name: the first has what is before the next
    separator. -/
theorem formParse_named {name chars : List Char} (hand : '&' ∉ name) (heq : '=' ∉ name) :
    ∃ rest, formParse (String.ofList (name ++ '=' :: chars))
        = (formDecode name, formDecode (chars.takeWhile (· ≠ '&'))) :: rest ∧
      ('&' ∉ chars → rest = []) := by
  obtain ⟨pieces, hsplit, hone⟩ := splitOn_first '&' (name ++ '=' :: chars)
  have hall : ∀ c ∈ name, (decide (c ≠ '&')) = true := fun c hc =>
    decide_eq_true fun h => hand (h ▸ hc)
  rw [List.takeWhile_append_of_pos hall, List.takeWhile_cons_of_pos (by decide)] at hsplit
  refine ⟨(pieces.filter (· ≠ [])).map formPair, ?_, fun hchars => ?_⟩
  · rw [formParse, String.toList_ofList, hsplit, List.filter_cons_of_pos (by simp), List.map_cons,
      formPair_named heq]
  · rw [hone (by simp [hand, hchars])]
    rfl

/-- **A name and the front of a text read as one pair with the whole text exactly when the front is
    all of it, and it has no separator, no `+` and no escape.** -/
theorem formParse_one_iff {name chars front : List Char} (hand : '&' ∉ name) (heq : '=' ∉ name)
    (hfront : front <+: chars) :
    formParse (String.ofList (name ++ '=' :: front)) = [(formDecode name, String.ofList chars)] ↔
      front = chars ∧ '&' ∉ chars ∧ '+' ∉ chars ∧ ¬ HasEscape chars := by
  obtain ⟨rest, hparse, hone⟩ := @formParse_named name front hand heq
  rw [hparse]
  constructor
  · intro h
    have hvalue : formDecode (front.takeWhile (· ≠ '&')) = String.ofList chars :=
      (Prod.mk.inj (List.cons.inj h).1).2
    -- the value is no shorter than what it was read from
    have hlen := length_formDecode_le (front.takeWhile (· ≠ '&'))
    have hle := length_percentUnits_le (plusToSpace (front.takeWhile (· ≠ '&')))
    rw [hvalue, String.toList_ofList] at hlen
    rw [plusToSpace, List.length_map] at hle
    rw [plusToSpace] at hlen
    have hpre : front.takeWhile (· ≠ '&') <+: front := List.takeWhile_prefix _
    have hall : front.takeWhile (· ≠ '&') = chars :=
      (hpre.trans hfront).eq_of_length_le (hlen.trans hle)
    have hsame : front = chars := by
      refine hfront.eq_of_length_le ?_
      rw [← hall]
      exact hpre.length_le
    rw [hall] at hvalue
    refine ⟨hsame, fun hmem => ?_, formDecode_eq_self_iff.mp hvalue⟩
    rw [← hall] at hmem
    simpa using List.mem_takeWhile_imp hmem
  · intro h'
    obtain ⟨rfl, hno, hplain⟩ := h'
    have hwhole : front.takeWhile (· ≠ '&') = front :=
      List.takeWhile_eq_self_iff.mpr fun c hc => decide_eq_true fun h => hno (h ▸ hc)
    rw [hone hno, hwhole, formDecode_eq_self_iff.mpr hplain]

end Relayfs.Lib
