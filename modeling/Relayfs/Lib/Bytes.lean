/-
  File:      Relayfs/Lib/Bytes.lean
  Subject:   THE CONTENT OF A FILE: a list of bytes, zero past its end.

  * `byteAt` -- the byte at an offset;
  * `writeAt` -- a positioned write; a write past the end leaves a hole of zeros;
  * `resize` -- the length set: cut, or extended with zeros.
-/
import Mathlib.Data.List.GetD

namespace Relayfs.Lib

/-- The byte of a file at an offset: zero past the end. -/
def byteAt (file : List UInt8) (i : Nat) : UInt8 := file.getD i 0

theorem byteAt_of_le {file : List UInt8} {i : Nat} (h : file.length ≤ i) : byteAt file i = 0 :=
  List.getD_eq_default _ _ h

theorem byteAt_append (a b : List UInt8) (i : Nat) :
    byteAt (a ++ b) i = if i < a.length then byteAt a i else byteAt b (i - a.length) := by
  unfold byteAt
  split
  · rename_i h
    exact List.getD_append _ _ _ _ h
  · rename_i h
    exact List.getD_append_right _ _ _ _ (Nat.not_lt.mp h)

theorem byteAt_take (a : List UInt8) (n i : Nat) :
    byteAt (a.take n) i = if i < n then byteAt a i else 0 := by
  unfold byteAt
  simp only [List.getD_eq_getElem?_getD, List.getElem?_take]
  split <;> rfl

theorem byteAt_drop (a : List UInt8) (n i : Nat) : byteAt (a.drop n) i = byteAt a (n + i) := by
  simp [byteAt, List.getD_eq_getElem?_getD, List.getElem?_drop]

/-- Files with the same bytes are the same. -/
theorem eq_of_byteAt {a b : List UInt8} (hlen : a.length = b.length)
    (h : ∀ i < a.length, byteAt a i = byteAt b i) : a = b := by
  refine List.ext_getElem hlen fun i ha hb => ?_
  have hi := h i ha
  rwa [byteAt, byteAt, List.getD_eq_getElem _ _ ha, List.getD_eq_getElem _ _ hb] at hi

theorem byteAt_zeros (n i : Nat) : byteAt (List.replicate n 0) i = 0 := by
  simp only [byteAt, List.getD_eq_getElem?_getD, List.getElem?_replicate]
  split <;> rfl

/-- `set_len`. -/
def resize (file : List UInt8) (n : Nat) : List UInt8 :=
  file.take n ++ List.replicate (n - file.length) 0

@[simp] theorem length_resize (file : List UInt8) (n : Nat) : (resize file n).length = n := by
  simp only [resize, List.length_append, List.length_take, List.length_replicate]
  omega

theorem byteAt_resize (file : List UInt8) (n i : Nat) :
    byteAt (resize file n) i = if i < n then byteAt file i else 0 := by
  rw [resize, byteAt_append, byteAt_take, byteAt_zeros, List.length_take]
  split
  · rfl
  · split
    · exact (byteAt_of_le (by omega)).symm
    · rfl

/-- The length set to what it is. -/
@[simp] theorem resize_length (file : List UInt8) : resize file file.length = file := by
  rw [resize, List.take_length, Nat.sub_self, List.replicate_zero, List.append_nil]

/-- A seek to `offset` and a `write_all`. Nothing is written of no data. -/
def writeAt (file : List UInt8) (offset : Nat) (data : List UInt8) : List UInt8 :=
  if data = [] then file
  else resize file offset ++ (data ++ file.drop (offset + data.length))

@[simp] theorem writeAt_nil (file : List UInt8) (offset : Nat) : writeAt file offset [] = file :=
  if_pos rfl

theorem length_writeAt (file : List UInt8) (offset : Nat) {data : List UInt8} (h : data ≠ []) :
    (writeAt file offset data).length = max file.length (offset + data.length) := by
  rw [writeAt, if_neg h]
  simp only [List.length_append, length_resize, List.length_drop]
  omega

/-- A write at the end appends. -/
theorem writeAt_end (file data : List UInt8) : writeAt file file.length data = file ++ data := by
  by_cases h : data = []
  · rw [h, writeAt_nil, List.append_nil]
  · have hdrop : file.drop (file.length + data.length) = [] :=
      List.drop_eq_nil_of_le (Nat.le_add_right _ _)
    rw [writeAt, if_neg h, resize_length, hdrop, List.append_nil]

theorem le_length_writeAt (file : List UInt8) (offset : Nat) (data : List UInt8) :
    file.length ≤ (writeAt file offset data).length := by
  by_cases h : data = []
  · exact Nat.le_of_eq (by rw [h, writeAt_nil])
  · rw [length_writeAt _ _ h]
    exact Nat.le_max_left _ _

theorem byteAt_writeAt (file : List UInt8) (offset : Nat) (data : List UInt8) (i : Nat) :
    byteAt (writeAt file offset data) i =
      if offset ≤ i ∧ i < offset + data.length then byteAt data (i - offset)
      else byteAt file i := by
  by_cases h : data = []
  · subst h
    rw [writeAt_nil, if_neg]
    intro hc
    simp only [List.length_nil] at hc
    omega
  · rw [writeAt, if_neg h, byteAt_append, length_resize]
    split
    · rename_i hi
      rw [byteAt_resize, if_pos hi, if_neg (by omega)]
    · rename_i hi
      rw [byteAt_append]
      split
      · rename_i hd
        rw [if_pos (by omega)]
      · rename_i hd
        rw [if_neg (by omega), byteAt_drop]
        congr 1
        omega

end Relayfs.Lib
