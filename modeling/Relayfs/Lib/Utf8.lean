/-
  File:      Relayfs/Lib/Utf8.lean
  Subject:   UTF-8, as `String::from_utf8_lossy` reads it.

  The decoder is an automaton: it has read the head of a character and knows how many bytes are to
  come and which ones may come next, or it is between two characters. A byte that does not fit
  ends the broken head, which becomes one replacement character, and is read again on its own.

  * `utf8Bytes` -- the bytes of a text;
  * `fromUtf8Lossy`, `fromUtf8` -- the text of any bytes, and of those that are one;
  * `fromUtf8Lossy_utf8Bytes` -- the bytes of a text read as the text;
  * `length_utf8Chars_le` -- where whole characters and single bytes stand mixed, each reads as at
    most one character.
-/
import Mathlib.Data.List.Basic

namespace Relayfs.Lib

/-- The bytes of a text. -/
def utf8Bytes (s : String) : List UInt8 := s.toList.flatMap String.utf8EncodeChar

theorem utf8Bytes_ofList (chars : List Char) :
    utf8Bytes (String.ofList chars) = chars.flatMap String.utf8EncodeChar := by
  rw [utf8Bytes, String.toList_ofList]

/-- U+FFFD. -/
def replacementChar : Char := Char.ofNat 0xFFFD

/-- The head of a character has been read: the bytes to come after the next one, the range of the
    next one, and the bits so far. -/
structure Utf8Head where
  need : Nat
  lo : Nat
  hi : Nat
  bits : Nat

/-- A first byte: a character of its own, the head of one, or neither. -/
def utf8Start (b : Nat) : List Char × Option Utf8Head :=
  if b < 0x80 then ([Char.ofNat b], none)
  else if 0xC2 ≤ b ∧ b ≤ 0xDF then ([], some ⟨0, 0x80, 0xBF, b - 0xC0⟩)
  else if b = 0xE0 then ([], some ⟨1, 0xA0, 0xBF, 0⟩)
  else if b = 0xED then ([], some ⟨1, 0x80, 0x9F, 0xD⟩)
  else if 0xE1 ≤ b ∧ b ≤ 0xEF then ([], some ⟨1, 0x80, 0xBF, b - 0xE0⟩)
  else if b = 0xF0 then ([], some ⟨2, 0x90, 0xBF, 0⟩)
  else if 0xF1 ≤ b ∧ b ≤ 0xF3 then ([], some ⟨2, 0x80, 0xBF, b - 0xF0⟩)
  else if b = 0xF4 then ([], some ⟨2, 0x80, 0x8F, 4⟩)
  else ([replacementChar], none)

/-- The next byte: the characters it completes, and the head it leaves. -/
def utf8Step : Option Utf8Head → Nat → List Char × Option Utf8Head
  | none, b => utf8Start b
  | some head, b =>
      if head.lo ≤ b ∧ b ≤ head.hi then
        let bits := head.bits * 64 + (b - 0x80)
        match head.need with
        | 0 => ([Char.ofNat bits], none)
        | need + 1 => ([], some ⟨need, 0x80, 0xBF, bits⟩)
      else
        let (out, next) := utf8Start b
        (replacementChar :: out, next)

/-- The characters of the bytes, after the head that has been read. -/
def utf8Chars : Option Utf8Head → List UInt8 → List Char
  | none, [] => []
  | some _, [] => [replacementChar]
  | head, b :: rest =>
      let (out, next) := utf8Step head b.toNat
      out ++ utf8Chars next rest

/-- `String::from_utf8_lossy`. -/
def fromUtf8Lossy (bytes : List UInt8) : String := String.ofList (utf8Chars none bytes)

/-- `str::from_utf8`: bytes are a text where they are the bytes of what they read as. -/
def fromUtf8 (bytes : List UInt8) : Option String :=
  if utf8Bytes (fromUtf8Lossy bytes) = bytes then some (fromUtf8Lossy bytes) else none

/-! ## The bytes of a text -/

/-- A byte number is the number. -/
theorem toNat_ofNat {n : Nat} (h : n < 256) : (UInt8.ofNat n).toNat = n := by
  rw [UInt8.toNat_ofNat']
  exact Nat.mod_eq_of_lt h

section Start

variable {b : Nat}

theorem utf8Start_two (h : 0xC2 ≤ b ∧ b ≤ 0xDF) :
    utf8Start b = ([], some ⟨0, 0x80, 0xBF, b - 0xC0⟩) := by
  rw [utf8Start, if_neg (by omega), if_pos h]

theorem utf8Start_three (h : 0xE0 ≤ b ∧ b ≤ 0xEF) :
    utf8Start b = ([], some ⟨1, if b = 0xE0 then 0xA0 else 0x80, if b = 0xED then 0x9F else 0xBF,
      b - 0xE0⟩) := by
  rw [utf8Start, if_neg (by omega), if_neg (by omega)]
  split
  · subst b
    rfl
  · split
    · subst b
      rfl
    · rw [if_pos (by omega)]

theorem utf8Start_four (h : 0xF0 ≤ b ∧ b ≤ 0xF4) :
    utf8Start b = ([], some ⟨2, if b = 0xF0 then 0x90 else 0x80, if b = 0xF4 then 0x8F else 0xBF,
      b - 0xF0⟩) := by
  rw [utf8Start, if_neg (by omega), if_neg (by omega), if_neg (by omega), if_neg (by omega),
    if_neg (by omega)]
  split
  · subst b
    rfl
  · split
    · rw [if_neg (by omega)]
    · obtain rfl : b = 0xF4 := by omega
      rfl

end Start

section Chars

variable {b : UInt8} {rest : List UInt8} {head : Utf8Head}

theorem utf8Chars_cons (head : Option Utf8Head) (b : UInt8) (rest : List UInt8) :
    utf8Chars head (b :: rest)
      = (utf8Step head b.toNat).1 ++ utf8Chars (utf8Step head b.toNat).2 rest := by
  cases head <;> rfl

theorem utf8Step_fits {n : Nat} (h : head.lo ≤ n ∧ n ≤ head.hi) :
    utf8Step (some head) n =
      match head.need with
      | 0 => ([Char.ofNat (head.bits * 64 + (n - 0x80))], none)
      | need + 1 => ([], some ⟨need, 0x80, 0xBF, head.bits * 64 + (n - 0x80)⟩) := if_pos h

theorem utf8Step_broken {n : Nat} (h : ¬ (head.lo ≤ n ∧ n ≤ head.hi)) :
    utf8Step (some head) n = (replacementChar :: (utf8Start n).1, (utf8Start n).2) := if_neg h

/-- A byte that is a character. -/
theorem utf8Chars_one {c : Char} (h : utf8Start b.toNat = ([c], none)) :
    utf8Chars none (b :: rest) = c :: utf8Chars none rest := by
  rw [utf8Chars_cons, utf8Step, h]
  rfl

/-- The first byte of a character of several. -/
theorem utf8Chars_first (h : utf8Start b.toNat = ([], some head)) :
    utf8Chars none (b :: rest) = utf8Chars (some head) rest := by
  rw [utf8Chars_cons, utf8Step, h]
  rfl

/-- The last one. -/
theorem utf8Chars_last (hneed : head.need = 0) (hb : head.lo ≤ b.toNat ∧ b.toNat ≤ head.hi) :
    utf8Chars (some head) (b :: rest)
      = Char.ofNat (head.bits * 64 + (b.toNat - 0x80)) :: utf8Chars none rest := by
  rw [utf8Chars_cons, utf8Step_fits hb, hneed]
  rfl

/-- One between them. -/
theorem utf8Chars_next {n : Nat} (hneed : head.need = n + 1)
    (hb : head.lo ≤ b.toNat ∧ b.toNat ≤ head.hi) :
    utf8Chars (some head) (b :: rest)
      = utf8Chars (some ⟨n, 0x80, 0xBF, head.bits * 64 + (b.toNat - 0x80)⟩) rest := by
  rw [utf8Chars_cons, utf8Step_fits hb, hneed]
  rfl

/-- A byte that does not fit: the head is given up. -/
theorem utf8Chars_broken (hb : ¬ (head.lo ≤ b.toNat ∧ b.toNat ≤ head.hi)) :
    utf8Chars (some head) (b :: rest) = replacementChar :: utf8Chars none (b :: rest) := by
  rw [utf8Chars_cons, utf8Chars_cons, utf8Step_broken hb]
  rfl

end Chars

section Encoded

variable {x y z w n : Nat} {head : Utf8Head}

/-- The number of a continuation byte. -/
theorem toNat_continuation (hy : y < 64) : (UInt8.ofNat (y + 0x80)).toNat = 0x80 + y := by
  rw [toNat_ofNat (by omega), Nat.add_comm]

theorem utf8Chars_last_ofNat (hneed : head.need = 0) (hy : y < 64) (hlo : head.lo ≤ 0x80 + y)
    (hhi : 0x80 + y ≤ head.hi) (rest : List UInt8) :
    utf8Chars (some head) (UInt8.ofNat (y + 0x80) :: rest)
      = Char.ofNat (head.bits * 64 + y) :: utf8Chars none rest := by
  have hb := toNat_continuation hy
  rw [utf8Chars_last hneed (by rw [hb]; exact ⟨hlo, hhi⟩), hb, Nat.add_sub_cancel_left]

theorem utf8Chars_next_ofNat (hneed : head.need = n + 1) (hy : y < 64) (hlo : head.lo ≤ 0x80 + y)
    (hhi : 0x80 + y ≤ head.hi) (rest : List UInt8) :
    utf8Chars (some head) (UInt8.ofNat (y + 0x80) :: rest)
      = utf8Chars (some ⟨n, 0x80, 0xBF, head.bits * 64 + y⟩) rest := by
  have hb := toNat_continuation hy
  rw [utf8Chars_next hneed (by rw [hb]; exact ⟨hlo, hhi⟩), hb, Nat.add_sub_cancel_left]

/-- The last byte of a character, behind one that was not the first. -/
theorem utf8Chars_end (hy : y < 64) (bits : Nat) (rest : List UInt8) :
    utf8Chars (some ⟨0, 0x80, 0xBF, bits⟩) (UInt8.ofNat (y + 0x80) :: rest)
      = Char.ofNat (bits * 64 + y) :: utf8Chars none rest :=
  utf8Chars_last_ofNat rfl hy (Nat.le_add_right _ _) (Nat.add_le_add_left (Nat.le_of_lt_succ hy) _)
    rest

theorem utf8Chars_two (hx : 2 ≤ x) (hx' : x < 32) (hy : y < 64) (rest : List UInt8) :
    utf8Chars none (UInt8.ofNat (x + 0xC0) :: UInt8.ofNat (y + 0x80) :: rest)
      = Char.ofNat (x * 64 + y) :: utf8Chars none rest := by
  have hb : (UInt8.ofNat (x + 0xC0)).toNat = x + 0xC0 := toNat_ofNat (by omega)
  rw [utf8Chars_first (utf8Start_two (by rw [hb]; omega)), hb, Nat.add_sub_cancel,
    utf8Chars_end hy]

theorem utf8Chars_three (hx : x < 16) (hy : y < 64) (hz : z < 64) (hlow : x = 0 → 32 ≤ y)
    (hhigh : x = 13 → y < 32) (rest : List UInt8) :
    utf8Chars none (UInt8.ofNat (x + 0xE0) :: UInt8.ofNat (y + 0x80) :: UInt8.ofNat (z + 0x80)
      :: rest) = Char.ofNat ((x * 64 + y) * 64 + z) :: utf8Chars none rest := by
  have hb : (UInt8.ofNat (x + 0xE0)).toNat = x + 0xE0 := toNat_ofNat (by omega)
  rw [utf8Chars_first (utf8Start_three (by rw [hb]; omega)), hb, Nat.add_sub_cancel,
    utf8Chars_next_ofNat rfl hy ?_ ?_, utf8Chars_end hz]
  · dsimp only
    split <;> omega
  · dsimp only
    split <;> omega

theorem utf8Chars_four (hx : x < 5) (hy : y < 64) (hz : z < 64) (hw : w < 64)
    (hlow : x = 0 → 16 ≤ y) (hhigh : x = 4 → y < 16) (rest : List UInt8) :
    utf8Chars none (UInt8.ofNat (x + 0xF0) :: UInt8.ofNat (y + 0x80) :: UInt8.ofNat (z + 0x80)
      :: UInt8.ofNat (w + 0x80) :: rest)
      = Char.ofNat (((x * 64 + y) * 64 + z) * 64 + w) :: utf8Chars none rest := by
  have hb : (UInt8.ofNat (x + 0xF0)).toNat = x + 0xF0 := toNat_ofNat (by omega)
  rw [utf8Chars_first (utf8Start_four (by rw [hb]; omega)), hb, Nat.add_sub_cancel,
    utf8Chars_next_ofNat rfl hy ?_ ?_, utf8Chars_next_ofNat rfl hz (Nat.le_add_right _ _)
      (Nat.add_le_add_left (Nat.le_of_lt_succ hz) _), utf8Chars_end hw]
  · dsimp only
    split <;> omega
  · dsimp only
    split <;> omega

end Encoded

/-- **The bytes of a character read as the character.** -/
theorem utf8Chars_encodeChar (c : Char) (rest : List UInt8) :
    utf8Chars none (String.utf8EncodeChar c ++ rest) = c :: utf8Chars none rest := by
  have hv : c.toNat < 0xD800 ∨ (0xDFFF < c.toNat ∧ c.toNat < 0x110000) := c.valid
  have hc : Char.ofNat c.toNat = c := Char.ofNat_toNat c
  have hval : c.val.toNat = c.toNat := rfl
  rw [String.utf8EncodeChar, hval]
  generalize c.toNat = v at hv hc
  rw [← hc]
  have hlast : v % 0x40 < 64 := Nat.mod_lt _ (by decide)
  have hmid : v / 64 % 0x40 < 64 := Nat.mod_lt _ (by decide)
  have hmid' : v / 4096 % 0x40 < 64 := Nat.mod_lt _ (by decide)
  split_ifs with h1 h2 h3
  · have hv' : v < 0x80 := Nat.lt_succ_of_le h1
    refine utf8Chars_one ?_
    rw [toNat_ofNat (by omega), utf8Start, if_pos hv']
  · refine (utf8Chars_two ?_ ?_ hlast rest).trans ?_
    · omega
    · exact Nat.mod_lt _ (by decide)
    · have hsum : v / 64 % 0x20 * 64 + v % 0x40 = v := by omega
      rw [hsum]
  · refine (utf8Chars_three ?_ hmid hlast ?_ ?_ rest).trans ?_
    · exact Nat.mod_lt _ (by decide)
    · omega
    · omega
    · have hsum : (v / 4096 % 0x10 * 64 + v / 64 % 0x40) * 64 + v % 0x40 = v := by omega
      rw [hsum]
  · refine (utf8Chars_four ?_ hmid' hmid hlast ?_ ?_ rest).trans ?_
    · omega
    · omega
    · omega
    · have hsum : ((v / 262144 % 0x08 * 64 + v / 4096 % 0x40) * 64 + v / 64 % 0x40) * 64 + v % 0x40
          = v := by omega
      rw [hsum]

theorem utf8Chars_encode (chars : List Char) (rest : List UInt8) :
    utf8Chars none (chars.flatMap String.utf8EncodeChar ++ rest) = chars ++ utf8Chars none rest := by
  induction chars with
  | nil => rfl
  | cons c chars ih =>
    rw [List.flatMap_cons, List.append_assoc, utf8Chars_encodeChar, ih, List.cons_append]

/-- **The bytes of a text read as the text.** -/
@[simp] theorem fromUtf8Lossy_utf8Bytes (s : String) : fromUtf8Lossy (utf8Bytes s) = s := by
  have h := utf8Chars_encode s.toList []
  rw [List.append_nil] at h
  have hnil : utf8Chars none [] = [] := rfl
  rw [fromUtf8Lossy, utf8Bytes, h, hnil, List.append_nil, String.ofList_toList]

theorem fromUtf8_utf8Bytes (s : String) : fromUtf8 (utf8Bytes s) = some s := by
  rw [fromUtf8, fromUtf8Lossy_utf8Bytes, if_pos rfl]

/-! ## How many characters there are -/

/-- A head waits for a continuation byte. -/
def Utf8Head.Waits (head : Utf8Head) : Prop := 0x80 ≤ head.lo ∧ head.hi ≤ 0xBF

/-- The first byte of a character is no continuation byte. -/
theorem encodeChar_first (c : Char) : ∃ b rest, String.utf8EncodeChar c = b :: rest ∧
    (b.toNat < 0x80 ∨ 0xC0 ≤ b.toNat) := by
  have hv : c.toNat < 0xD800 ∨ (0xDFFF < c.toNat ∧ c.toNat < 0x110000) := c.valid
  have hval : c.val.toNat = c.toNat := rfl
  rw [String.utf8EncodeChar, hval]
  generalize c.toNat = v at hv
  split
  · exact ⟨_, _, rfl, by rw [toNat_ofNat (by omega)]; omega⟩
  split
  · exact ⟨_, _, rfl, by rw [toNat_ofNat (by omega)]; omega⟩
  split
  · exact ⟨_, _, rfl, by rw [toNat_ofNat (by omega)]; omega⟩
  · exact ⟨_, _, rfl, by rw [toNat_ofNat (by omega)]; omega⟩

/-- A whole character, or a byte. -/
abbrev Utf8Unit := Char ⊕ UInt8

def Utf8Unit.bytes : Utf8Unit → List UInt8
  | .inl c => String.utf8EncodeChar c
  | .inr b => [b]

/-- A first byte is a character, or the head of one. -/
theorem length_utf8Start (b : Nat) :
    ((∃ c, utf8Start b = ([c], none)) ∨ ∃ head, utf8Start b = ([], some head) ∧ head.Waits) := by
  unfold utf8Start Utf8Head.Waits
  repeat' split
  all_goals first
    | exact .inl ⟨_, rfl⟩
    | exact .inr ⟨_, rfl, Nat.le_of_ble_eq_true rfl, Nat.le_of_ble_eq_true rfl⟩

/-- **Each unit reads as at most one character**, and a head that is left as one more. -/
theorem length_utf8Chars_le : ∀ (units : List Utf8Unit) (head : Option Utf8Head),
    (∀ h ∈ head, h.Waits) →
    (utf8Chars head (units.flatMap Utf8Unit.bytes)).length ≤ units.length + head.toList.length
  | [], none, _ => Nat.le_refl _
  | [], some _, _ => Nat.le_refl _
  | .inl c :: units, none, _ => by
      have ih := length_utf8Chars_le units none (by simp)
      rw [List.flatMap_cons, Utf8Unit.bytes, utf8Chars_encodeChar, List.length_cons,
        List.length_cons]
      omega
  | .inl c :: units, some head, hwaits => by
      -- the character ends the head
      have ih := length_utf8Chars_le units none (by simp)
      obtain ⟨b, rest, hb, hfirst⟩ := encodeChar_first c
      have hw : head.Waits := hwaits head rfl
      have hout : ¬ (head.lo ≤ b.toNat ∧ b.toNat ≤ head.hi) := by
        obtain ⟨hlo, hhi⟩ := hw
        omega
      have hbroken := @utf8Chars_broken _ (rest ++ units.flatMap Utf8Unit.bytes) _ hout
      rw [List.flatMap_cons, Utf8Unit.bytes, hb, List.cons_append, hbroken, ← List.cons_append,
        ← hb, utf8Chars_encodeChar, List.length_cons, List.length_cons, List.length_cons]
      simp only [Option.toList_some, Option.toList_none, List.length_nil, List.length_singleton]
        at ih ⊢
      omega
  | .inr b :: units, none, _ => by
      rw [List.flatMap_cons, Utf8Unit.bytes, List.singleton_append, List.length_cons]
      rcases length_utf8Start b.toNat with ⟨c, hc⟩ | ⟨head, hhead, hw⟩
      · have ih := length_utf8Chars_le units none (by simp)
        rw [utf8Chars_one hc, List.length_cons]
        omega
      · have ih := length_utf8Chars_le units (some head) (by simpa using hw)
        rw [utf8Chars_first hhead]
        simp only [Option.toList_some, Option.toList_none, List.length_nil, List.length_singleton]
          at ih ⊢
        omega
  | .inr b :: units, some head, hwaits => by
      rw [List.flatMap_cons, Utf8Unit.bytes, List.singleton_append, List.length_cons]
      simp only [Option.toList_some, List.length_singleton]
      by_cases hb : head.lo ≤ b.toNat ∧ b.toNat ≤ head.hi
      · cases hneed : head.need with
        | zero =>
          have ih := length_utf8Chars_le units none (by simp)
          rw [utf8Chars_last hneed hb, List.length_cons]
          simp only [Option.toList_none, List.length_nil] at ih
          omega
        | succ n =>
          have ih := length_utf8Chars_le units
            (some ⟨n, 0x80, 0xBF, head.bits * 64 + (b.toNat - 0x80)⟩)
            (by simp [Utf8Head.Waits])
          rw [utf8Chars_next hneed hb]
          simp only [Option.toList_some, List.length_singleton] at ih
          omega
      · rw [utf8Chars_broken hb, List.length_cons]
        rcases length_utf8Start b.toNat with ⟨c, hc⟩ | ⟨next, hnext, hw⟩
        · have ih := length_utf8Chars_le units none (by simp)
          rw [utf8Chars_one hc, List.length_cons]
          simp only [Option.toList_none, List.length_nil] at ih
          omega
        · have ih := length_utf8Chars_le units (some next) (by simpa using hw)
          rw [utf8Chars_first hnext]
          simp only [Option.toList_some, List.length_singleton] at ih
          omega

/-- A lone continuation byte, a head cut short by another character, and one at the end. -/
example : utf8Chars none [0x80, 0xE2, 0x82, 0x41, 0xF0] =
    [replacementChar, replacementChar, 'A', replacementChar] := by decide

end Relayfs.Lib
