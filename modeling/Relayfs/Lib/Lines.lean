/-
  File:      Relayfs/Lib/Lines.lean
  Subject:   LINES OF BYTES, as a reader takes them off one at a time.

  * `rawLines` -- the lines of bytes, each with its newline; the last one may have none;
  * `firstLine`, `afterLine` -- what a reader takes next and what it leaves;
  * `lineText` -- the text of a line: broken UTF-8 replaced, the end of the line gone;
  * `rawLines_of_mem`, `rawLines_of_last` -- taking a line off, and the last one;
  * `Interleaves` -- two lists mixed, each in its order;
  * `count_join_lines` -- how many newlines are in texts that end in one.
-/
import Mathlib.Data.List.Count
import Mathlib.Data.List.TakeWhile
import Relayfs.Lib.Utf8

namespace Relayfs.Lib

/-! ## 1. Lines -/

/-- The lines of bytes. -/
def rawLines : List UInt8 → List (List UInt8)
  | [] => []
  | b :: rest =>
      if b = 10 then [10] :: rawLines rest
      else match rawLines rest with
        | [] => [[b]]
        | line :: lines => (b :: line) :: lines

theorem rawLines_cons (b : UInt8) (rest : List UInt8) :
    rawLines (b :: rest) =
      if b = 10 then [10] :: rawLines rest
      else match rawLines rest with
        | [] => [[b]]
        | line :: lines => (b :: line) :: lines := rfl

/-- The bytes up to a newline, with it. -/
def firstLine (bytes : List UInt8) : List UInt8 :=
  bytes.takeWhile (· ≠ 10) ++ (bytes.dropWhile (· ≠ 10)).take 1

/-- What is behind it. -/
def afterLine (bytes : List UInt8) : List UInt8 := (bytes.dropWhile (· ≠ 10)).drop 1

/-- The end of a line is dropped: a newline, and a carriage return in front of it. -/
def stripEol (text : String) : String :=
  match text.toList.reverse with
  | '\n' :: '\r' :: rest => String.ofList rest.reverse
  | '\n' :: rest => String.ofList rest.reverse
  | _ => text

/-- **The text of a line.** -/
def lineText (line : List UInt8) : String := stripEol (fromUtf8Lossy line)

section Lines

variable {l rest bytes : List UInt8}

theorem rawLines_newline (h : 10 ∉ l) :
    rawLines (l ++ 10 :: rest) = (l ++ [10]) :: rawLines rest := by
  induction l with
  | nil => rw [List.nil_append, rawLines_cons, if_pos rfl, List.nil_append]
  | cons b l ih =>
    rw [List.mem_cons, not_or] at h
    rw [List.cons_append, rawLines_cons, if_neg (Ne.symm h.1), ih h.2]
    rfl

theorem rawLines_no_newline (h : 10 ∉ l) (hne : l ≠ []) : rawLines l = [l] := by
  induction l with
  | nil => exact absurd rfl hne
  | cons b l ih =>
    rw [List.mem_cons, not_or] at h
    rw [rawLines_cons, if_neg (Ne.symm h.1)]
    cases l with
    | nil => rfl
    | cons c l => rw [ih h.2 (List.cons_ne_nil c l)]

theorem takeWhile_no_newline : 10 ∉ bytes.takeWhile (· ≠ 10) := by
  intro hmem
  simpa using List.mem_takeWhile_imp hmem

/-- A reader that has a newline takes off the line before it. -/
theorem split_at_newline (h : 10 ∈ bytes) :
    ∃ l, 10 ∉ l ∧ firstLine bytes = l ++ [10] ∧ bytes = l ++ 10 :: afterLine bytes := by
  have hall := List.takeWhile_append_dropWhile (p := (· ≠ 10)) (l := bytes)
  cases hdrop : bytes.dropWhile (· ≠ 10) with
  | nil =>
    have hnone := List.dropWhile_eq_nil_iff.mp hdrop 10 h
    simp at hnone
  | cons c behind =>
    have hc : c = 10 := by
      have hnot := List.head?_dropWhile_not (· ≠ 10) bytes
      rw [hdrop] at hnot
      simpa using hnot
    subst hc
    refine ⟨bytes.takeWhile (· ≠ 10), takeWhile_no_newline, ?_, ?_⟩
    · rw [firstLine, hdrop]
      rfl
    · rw [afterLine, hdrop]
      exact hall.symm.trans (by rw [hdrop]; rfl)

theorem rawLines_of_mem (h : 10 ∈ bytes) :
    rawLines (bytes ++ rest) = firstLine bytes :: rawLines (afterLine bytes ++ rest) := by
  obtain ⟨l, hl, hfirst, hbytes⟩ := split_at_newline h
  rw [hfirst, ← rawLines_newline hl]
  conv_lhs => rw [hbytes]
  rw [List.append_assoc]
  rfl

/-- At the end it takes all there is. -/
theorem rawLines_of_last (h : 10 ∉ bytes) (hne : bytes ≠ []) :
    rawLines bytes = [firstLine bytes] ∧ afterLine bytes = [] := by
  have hall : ∀ b ∈ bytes, (decide (b ≠ 10)) = true := fun b hb =>
    decide_eq_true fun heq => h (heq ▸ hb)
  have htake : bytes.takeWhile (· ≠ 10) = bytes := List.takeWhile_eq_self_iff.mpr hall
  have hdrop : bytes.dropWhile (· ≠ 10) = [] := List.dropWhile_eq_nil_iff.mpr hall
  refine ⟨?_, ?_⟩
  · rw [rawLines_no_newline h hne, firstLine, htake, hdrop]
    simp
  · rw [afterLine, hdrop]
    rfl

/-- A line has a newline at its end only. -/
theorem line_shape {line : List UInt8} (h : line ∈ rawLines bytes) :
    10 ∉ line ∨ ∃ l, 10 ∉ l ∧ line = l ++ [10] := by
  induction bytes generalizing line with
  | nil => exact absurd h List.not_mem_nil
  | cons b bytes ih =>
    rw [rawLines_cons] at h
    by_cases hb : b = 10
    · rw [if_pos hb] at h
      rcases List.mem_cons.mp h with rfl | h
      · exact .inr ⟨[], List.not_mem_nil, rfl⟩
      · exact ih h
    · rw [if_neg hb] at h
      cases hrest : rawLines bytes with
      | nil =>
        simp only [hrest] at h
        rw [List.mem_singleton.mp h]
        exact .inl fun hmem => hb (List.mem_singleton.mp hmem).symm
      | cons first lines =>
        simp only [hrest] at h
        rcases List.mem_cons.mp h with rfl | h
        · rcases ih (hrest ▸ List.mem_cons_self) with hno | ⟨l, hl, rfl⟩
          · exact .inl (List.not_mem_cons_of_ne_of_not_mem (Ne.symm hb) hno)
          · exact .inr ⟨b :: l, List.not_mem_cons_of_ne_of_not_mem (Ne.symm hb) hl, rfl⟩
        · exact ih (hrest ▸ List.mem_cons_of_mem _ h)

end Lines

/-! ## 2. Their texts -/

/-- What is read of the head of a character leads to no character below 128. -/
structure Utf8Head.High (head : Utf8Head) : Prop where
  range : 0x80 ≤ head.lo
  more : 1 ≤ head.bits * 64 + (head.lo - 0x80)
  last : head.need = 0 → 11 ≤ head.bits * 64 + (head.lo - 0x80)

theorem utf8Start_high {b : Nat} {out : List Char} {head : Utf8Head}
    (h : utf8Start b = (out, some head)) : head.High := by
  unfold utf8Start at h
  split_ifs at h <;> cases h <;> refine ⟨?_, ?_, ?_⟩ <;> dsimp only <;> omega

theorem ofNat_ne_newline {n : Nat} (h : n ≠ 10) : '\n' ≠ Char.ofNat n := by
  intro heq
  have hnat := congrArg Char.toNat heq
  have hten : Char.toNat '\n' = 10 := rfl
  rw [hten] at hnat
  by_cases hvalid : n.isValidChar
  · have hself : (Char.ofNat n).toNat = n := by
      rw [Char.ofNat, dif_pos hvalid]
      rfl
    exact h (hself ▸ hnat.symm)
  · rw [Char.ofNat, dif_neg hvalid] at hnat
    cases hnat

theorem newline_notMem_utf8Start {b : Nat} (hb : b ≠ 10) : '\n' ∉ (utf8Start b).1 := by
  have hone : '\n' ∉ [Char.ofNat b] := fun hmem =>
    ofNat_ne_newline hb (List.mem_singleton.mp hmem)
  have hbroken : '\n' ∉ [replacementChar] := by decide
  unfold utf8Start
  split_ifs
  · exact hone
  all_goals first | exact List.not_mem_nil | exact hbroken

/-- The characters that a byte completes are no newlines. -/
theorem newline_notMem_utf8Step {head : Option Utf8Head} {b : Nat} (hhead : ∀ h ∈ head, h.High)
    (hb : b ≠ 10) : '\n' ∉ (utf8Step head b).1 := by
  cases head with
  | none => exact newline_notMem_utf8Start hb
  | some head =>
    have hhigh := hhead head rfl
    by_cases hrange : head.lo ≤ b ∧ b ≤ head.hi
    · rw [utf8Step_fits hrange]
      cases hneed : head.need with
      | zero =>
        have hlast := hhigh.last hneed
        have hlo := hhigh.range
        intro hmem
        refine ofNat_ne_newline ?_ (List.mem_singleton.mp hmem)
        omega
      | succ need => exact List.not_mem_nil
    · rw [utf8Step_broken hrange]
      exact List.not_mem_cons_of_ne_of_not_mem (by decide) (newline_notMem_utf8Start hb)

theorem utf8Step_high {head : Option Utf8Head} {b : Nat} (hhead : ∀ h ∈ head, h.High) :
    ∀ h ∈ (utf8Step head b).2, h.High := by
  have hstart : ∀ h ∈ (utf8Start b).2, h.High := fun h hh => by
    have hpair : utf8Start b = ((utf8Start b).1, some h) := by rw [← Option.mem_def.mp hh]
    exact utf8Start_high hpair
  cases head with
  | none => exact hstart
  | some head =>
    have hhigh := hhead head rfl
    have hlo := hhigh.range
    have hmore := hhigh.more
    by_cases hrange : head.lo ≤ b ∧ b ≤ head.hi
    · rw [utf8Step_fits hrange]
      cases hneed : head.need with
      | zero =>
        intro h hh
        cases hh
      | succ need =>
        intro h hh
        cases hh
        refine ⟨Nat.le_refl _, ?_, fun _ => ?_⟩
        · dsimp only
          omega
        · dsimp only
          omega
    · rw [utf8Step_broken hrange]
      exact hstart

/-- Bytes without a newline have no newline in their text. -/
theorem newline_notMem_utf8Chars {l : List UInt8} (h : 10 ∉ l) (head : Option Utf8Head)
    (hhead : ∀ h ∈ head, h.High) : '\n' ∉ utf8Chars head l := by
  induction l generalizing head with
  | nil =>
    cases head with
    | none => exact List.not_mem_nil
    | some head => exact (by decide : '\n' ∉ [replacementChar])
  | cons b l ih =>
    rw [List.mem_cons, not_or] at h
    have hb : b.toNat ≠ 10 := fun heq => h.1 (UInt8.toNat_inj.mp heq).symm
    rw [utf8Chars_cons, List.mem_append, not_or]
    exact ⟨newline_notMem_utf8Step hhead hb, ih h.2 _ (utf8Step_high hhead)⟩

/-- A newline ends any text. -/
theorem utf8Chars_newline (l : List UInt8) (head : Option Utf8Head)
    (hhead : ∀ h ∈ head, h.High) : utf8Chars head (l ++ [10]) = utf8Chars head l ++ ['\n'] := by
  induction l generalizing head with
  | nil =>
    cases head with
    | none => rfl
    | some head =>
      have hlo := (hhead head rfl).range
      have hten : UInt8.toNat 10 = 10 := rfl
      have hout : ¬ (head.lo ≤ UInt8.toNat 10 ∧ UInt8.toNat 10 ≤ head.hi) := by
        rw [hten]
        omega
      rw [List.nil_append, utf8Chars_broken hout]
      rfl
  | cons b l ih =>
    rw [List.cons_append, utf8Chars_cons, utf8Chars_cons, ih _ (utf8Step_high hhead),
      List.append_assoc]

theorem stripEol_newline {chars : List Char} (h : '\n' ∉ chars) :
    '\n' ∉ (stripEol (String.ofList (chars ++ ['\n']))).toList := by
  have hreverse : (String.ofList (chars ++ ['\n'])).toList.reverse = '\n' :: chars.reverse := by
    simp
  rw [stripEol, hreverse]
  split
  · rename_i rest heq
    rw [List.cons.injEq] at heq
    rw [String.toList_ofList, List.mem_reverse]
    exact fun hmem => h (List.mem_reverse.mp (heq.2 ▸ List.mem_cons_of_mem _ hmem))
  · rename_i rest _ heq
    rw [List.cons.injEq] at heq
    rw [String.toList_ofList, List.mem_reverse, ← heq.2, List.mem_reverse]
    exact h
  · rename_i hno
    exact absurd rfl (hno chars.reverse)

theorem stripEol_plain {text : String} (h : '\n' ∉ text.toList) : stripEol text = text := by
  have hreverse : '\n' ∉ text.toList.reverse := fun hmem => h (List.mem_reverse.mp hmem)
  unfold stripEol
  split
  · rename_i heq
    exact absurd (heq ▸ List.mem_cons_self) hreverse
  · rename_i heq
    exact absurd (heq ▸ List.mem_cons_self) hreverse
  · rfl

/-- **The text of a line has no newline.** -/
theorem newline_notMem_lineText {bytes line : List UInt8} (h : line ∈ rawLines bytes) :
    '\n' ∉ (lineText line).toList := by
  have hnone : ∀ h ∈ (none : Option Utf8Head), h.High := fun _ hh => by cases hh
  rcases line_shape h with hno | ⟨l, hl, rfl⟩
  · have hchars : '\n' ∉ (fromUtf8Lossy line).toList := by
      rw [fromUtf8Lossy, String.toList_ofList]
      exact newline_notMem_utf8Chars hno none hnone
    rw [lineText, stripEol_plain hchars]
    exact hchars
  · rw [lineText, fromUtf8Lossy, utf8Chars_newline l none hnone]
    exact stripEol_newline (newline_notMem_utf8Chars hl none hnone)

/-! ## 3. Lists mixed -/

/-- **A list that is two lists mixed**, each in its order. -/
inductive Interleaves {α : Type} : List α → List α → List α → Prop where
  | nil : Interleaves [] [] []
  | left {a : α} {l r all : List α} (h : Interleaves l r all) : Interleaves (a :: l) r (a :: all)
  | right {a : α} {l r all : List α} (h : Interleaves l r all) : Interleaves l (a :: r) (a :: all)

section Interleaves

variable {α β : Type} {l r all : List α}

theorem Interleaves.length (h : Interleaves l r all) : all.length = l.length + r.length := by
  induction h with
  | nil => rfl
  | left _ ih =>
    rw [List.length_cons, List.length_cons, ih]
    omega
  | right _ ih =>
    rw [List.length_cons, List.length_cons, ih]
    omega

theorem Interleaves.mem (h : Interleaves l r all) {a : α} (ha : a ∈ all) : a ∈ l ∨ a ∈ r := by
  induction h with
  | nil => exact .inl ha
  | left _ ih =>
    rcases List.mem_cons.mp ha with rfl | ha
    · exact .inl List.mem_cons_self
    · exact (ih ha).imp_left (List.mem_cons_of_mem _)
  | right _ ih =>
    rcases List.mem_cons.mp ha with rfl | ha
    · exact .inr List.mem_cons_self
    · exact (ih ha).imp_right (List.mem_cons_of_mem _)

/-- A list is mixed of its elements of one kind and those of the other. -/
theorem interleaves_filter (p q : α → Bool) (f : α → β) (hpq : ∀ a, q a = !p a) (all : List α) :
    Interleaves ((all.filter p).map f) ((all.filter q).map f) (all.map f) := by
  induction all with
  | nil => exact .nil
  | cons a all ih =>
    cases hp : p a with
    | true =>
      rw [List.filter_cons_of_pos hp, List.filter_cons_of_neg (by simp [hpq, hp])]
      exact .left ih
    | false =>
      rw [List.filter_cons_of_neg (by simp [hp]), List.filter_cons_of_pos (by simp [hpq, hp])]
      exact .right ih

/-- **Texts that end in their only newline**: there are as many newlines as texts. -/
theorem count_join_lines {texts : List String} (h : ∀ text ∈ texts, text.toList.count '\n' = 1) :
    (String.join texts).toList.count '\n' = texts.length := by
  induction texts with
  | nil => rfl
  | cons text texts ih =>
    rw [List.forall_mem_cons] at h
    rw [String.join_cons, String.toList_append, List.count_append, h.1, ih h.2, List.length_cons]
    omega

end Interleaves

end Relayfs.Lib
