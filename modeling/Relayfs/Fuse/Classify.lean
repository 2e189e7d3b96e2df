/-
  File:      Relayfs/Fuse/Classify.lean
  Subject:   WHAT THE MOUNT MAKES OF AN ERROR OF THE TARGET (bridge/src/fuse_fs.rs, `errno_for` and
             `send_fatal`; agent/src/files.rs for the texts).

  Both search the whole message for keywords, and the message names the file. The lower case of a
  character outside ASCII is of no use to a keyword: it has no ASCII letter in it but for the
  Kelvin sign (`k`, in no keyword) and the dotted `I` (`i` and a combining dot).

  * `textClass` -- the first group of keywords that is in a text;
  * `handlerError` -- the error of a handler: what failed, the names, the system's text;
  * `execute_error` -- the errors of the modelled handlers are of that form, or name no file;
  * `classified_alike_iff` -- for which names a message is taken alike.
-/
import Relayfs.Fuse.Background

namespace Relayfs

open Lib

/-! ## 1. Searching in what is put together -/

/-- A text is found on either side of a character that it does not have. -/
theorem infix_sep_iff {k a b : List Char} {sep : Char} (h : sep ∉ k) :
    k <:+: a ++ sep :: b ↔ k <:+: a ∨ k <:+: b := by
  rw [List.infix_append_iff_ne_nil]
  constructor
  · intro h'
    obtain ha | hb | ⟨k1, k2, -, hne, rfl, -, hk2⟩ := h'
    · exact .inl ha
    · rcases List.infix_cons_iff.mp hb with hpre | hb
      · cases k with
        | nil => exact .inl (List.nil_infix)
        | cons c k =>
          have hc : c = sep := (List.cons_prefix_cons.mp hpre).1
          exact absurd (hc ▸ List.mem_cons_self) h
      · exact .inr hb
    · obtain ⟨c, k2, rfl⟩ := List.exists_cons_of_ne_nil hne
      have hc : c = sep := (List.cons_prefix_cons.mp hk2).1
      exact absurd (hc ▸ List.mem_append_right _ List.mem_cons_self) h
  · intro h'
    obtain ha | hb := h'
    · exact .inl ha
    · exact .inr (.inl (List.infix_cons hb))

/-- Behind a text that no front of it ends. -/
theorem infix_behind_iff {k a : List Char} (b : List Char) (hnot : ¬ k <:+: a)
    (hends : ∀ k1 ∈ k.inits, k1 ≠ [] → ¬ k1 <:+ a) : k <:+: a ++ b ↔ k <:+: b := by
  rw [List.infix_append_iff_ne_nil]
  constructor
  · intro h
    obtain ha | hb | ⟨k1, k2, hne, -, rfl, hk1, -⟩ := h
    · exact absurd ha hnot
    · exact hb
    · exact absurd hk1 (hends k1 ((List.mem_inits _ _).mpr (List.prefix_append _ _)) hne)
  · exact fun hb => .inr (.inl hb)

theorem findIdx_or {α : Type} (p q : α → Bool) (l : List α) :
    l.findIdx (fun a => p a || q a) = min (l.findIdx p) (l.findIdx q) := by
  induction l with
  | nil => rfl
  | cons a l ih =>
    rw [List.findIdx_cons, List.findIdx_cons, List.findIdx_cons, ih]
    cases p a with
    | true => simp
    | false =>
      cases q a with
      | true => simp
      | false => simp only [Bool.or_self, cond_false]; omega

theorem findIdx_congr {α : Type} {p q : α → Bool} {l : List α} (h : ∀ a ∈ l, p a = q a) :
    l.findIdx p = l.findIdx q := by
  induction l with
  | nil => rfl
  | cons a l ih =>
    rw [List.forall_mem_cons] at h
    rw [List.findIdx_cons, List.findIdx_cons, h.1, ih h.2]

/-- `contains`, of characters. -/
def charsInfix (k chars : List Char) : Bool := chars.tails.any (k.isPrefixOf ·)

theorem charsInfix_iff {k chars : List Char} : charsInfix k chars = true ↔ k <:+: chars := by
  rw [charsInfix, List.any_eq_true, List.infix_iff_prefix_suffix]
  constructor
  · intro h
    obtain ⟨rest, hrest, hpre⟩ := h
    exact ⟨rest, List.isPrefixOf_iff_prefix.mp hpre, (List.mem_tails _ _).mp hrest⟩
  · intro h
    obtain ⟨rest, hpre, hrest⟩ := h
    exact ⟨rest, (List.mem_tails _ _).mpr hrest, List.isPrefixOf_iff_prefix.mpr hpre⟩

theorem hasInfix_eq (needle text : String) :
    hasInfix needle text = charsInfix needle.toList text.toList := rfl

theorem hasInfix_iff {needle text : String} :
    hasInfix needle text = true ↔ needle.toList <:+: text.toList := by
  rw [hasInfix_eq, charsInfix_iff]

/-! ## 2. The class of a text -/

/-- The keywords of `errno_for`, group by group in its order. -/
def keywords : List (List String) :=
  [["no such file", "not found"], ["permission", "denied"], ["exists"], ["not a directory"],
    ["is a directory"]]

/-- A text has a keyword of a group, in either case. -/
def saysOne (text : String) (group : List String) : Bool :=
  group.any fun keyword => hasInfix keyword text.toLower

/-- **The class of a text**: its first group of keywords, or 5. -/
def textClass (text : String) : Nat := keywords.findIdx (saysOne text)

/-- The first class of some texts. -/
def firstClass (texts : List String) : Nat := texts.foldr (fun text n => min (textClass text) n) 5

def errnoOfClass (n : Nat) : Errno :=
  ([.enoent, .eacces, .eexist, .enotdir, .eisdir][n]?).getD .eio

theorem textClass_le (text : String) : textClass text ≤ 5 := List.findIdx_le_length

theorem errnoOfClass_inj {m n : Nat} (hm : m ≤ 5) (hn : n ≤ 5)
    (h : errnoOfClass m = errnoOfClass n) : m = n := by
  have hall : ∀ m ≤ 5, ∀ n ≤ 5, errnoOfClass m = errnoOfClass n → m = n := by decide
  exact hall m hm n hn h

/-- The groups one after the other. -/
theorem textClass_eq (text : String) :
    textClass text =
      if saysOne text ["no such file", "not found"] then 0
      else if saysOne text ["permission", "denied"] then 1
      else if saysOne text ["exists"] then 2
      else if saysOne text ["not a directory"] then 3
      else if saysOne text ["is a directory"] then 4
      else 5 := by
  rw [textClass, keywords]
  simp only [List.findIdx_cons, List.findIdx_nil, Bool.cond_eq_ite]
  split_ifs <;> rfl

/-- What `errno_for` looks at. -/
theorem errnoFor_eq (e : RpcError) : errnoFor e = errnoOfClass (textClass e.message) := by
  rw [textClass_eq]
  simp only [errnoFor, saysOne, List.any_cons, List.any_nil, Bool.or_false]
  split_ifs <;> rfl

/-- What `send_fatal` looks at, but for the code. -/
theorem sendFatal_eq {e : RpcError} (h : e.code ≠ Code.methodNotFound) :
    sendFatal e = decide (textClass e.message ≤ 1) := by
  have hfatal : sendFatal e = (saysOne e.message ["no such file", "not found"]
      || saysOne e.message ["permission", "denied"]) := by
    simp [sendFatal, saysOne, h, Bool.or_assoc]
  rw [hfatal, textClass_eq]
  split_ifs with h0 h1 <;> simp_all

/-! ## 3. The message of a handler -/

/-- What a handler of the target says has failed, and how many paths it names. -/
def failedOps : List (String × Nat) :=
  [("open", 1), ("create", 1), ("create dirs", 1), ("read_dir", 1), ("stat", 1), ("mkdir", 1),
    ("remove", 1), ("rename", 2), ("truncate", 1), ("symlink", 2), ("chmod", 1), ("copy", 1),
    ("copy", 2)]

/-- **The error of a handler.** -/
def handlerError (op : String) (names : List String) (e : String) : RpcError :=
  ⟨Code.internalError, op ++ " " ++ " -> ".intercalate names ++ ": " ++ e⟩

/-- The characters that are searched. -/
def lowerChars (s : String) : List Char := s.toList.map Char.toLower

theorem toList_toLower (s : String) : s.toLower.toList = lowerChars s := String.toList_map

theorem lowerChars_append (a b : String) : lowerChars (a ++ b) = lowerChars a ++ lowerChars b := by
  rw [lowerChars, String.toList_append, List.map_append]
  rfl

/-- A keyword that does not reach from a name into what is written around it. -/
structure Keyword (k : List Char) : Prop where
  nonempty : k ≠ []
  dash : '-' ∉ k
  arrow : '>' ∉ k
  colon : ':' ∉ k
  first : k.head? ≠ some ' '
  last : k.getLast? ≠ some ' '
  not_op : ∀ op ∈ failedOps, ¬ k <:+: lowerChars (op.1 ++ " ") ∧
    ∀ k1 ∈ k.inits, k1 ≠ [] → ¬ k1 <:+ lowerChars (op.1 ++ " ")

/-! Keyword by keyword. -/

/-- What can have failed, letter by letter. -/
def opChars : List (List Char) :=
  [['o', 'p', 'e', 'n', ' '], ['c', 'r', 'e', 'a', 't', 'e', ' '],
    ['c', 'r', 'e', 'a', 't', 'e', ' ', 'd', 'i', 'r', 's', ' '],
    ['r', 'e', 'a', 'd', '_', 'd', 'i', 'r', ' '], ['s', 't', 'a', 't', ' '],
    ['m', 'k', 'd', 'i', 'r', ' '], ['r', 'e', 'm', 'o', 'v', 'e', ' '],
    ['r', 'e', 'n', 'a', 'm', 'e', ' '], ['t', 'r', 'u', 'n', 'c', 'a', 't', 'e', ' '],
    ['s', 'y', 'm', 'l', 'i', 'n', 'k', ' '], ['c', 'h', 'm', 'o', 'd', ' '],
    ['c', 'o', 'p', 'y', ' '], ['c', 'o', 'p', 'y', ' ']]

theorem opChars_eq : failedOps.map (fun op => lowerChars (op.1 ++ " ")) = opChars := by
  simp only [failedOps, List.map_cons, List.map_nil, lowerChars, String.toList_append]
  rfl

/-- The keywords, group by group and letter by letter. -/
def keywordChars : List (List (List Char)) :=
  [[['n', 'o', ' ', 's', 'u', 'c', 'h', ' ', 'f', 'i', 'l', 'e'],
      ['n', 'o', 't', ' ', 'f', 'o', 'u', 'n', 'd']],
    [['p', 'e', 'r', 'm', 'i', 's', 's', 'i', 'o', 'n'], ['d', 'e', 'n', 'i', 'e', 'd']],
    [['e', 'x', 'i', 's', 't', 's']],
    [['n', 'o', 't', ' ', 'a', ' ', 'd', 'i', 'r', 'e', 'c', 't', 'o', 'r', 'y']],
    [['i', 's', ' ', 'a', ' ', 'd', 'i', 'r', 'e', 'c', 't', 'o', 'r', 'y']]]

theorem keywordChars_eq : keywords.map (List.map String.toList) = keywordChars := by
  simp only [keywords, List.map_cons, List.map_nil]
  rfl

theorem keyword_apart : ∀ k ∈ keywordChars.flatten, k ≠ [] ∧ '-' ∉ k ∧ '>' ∉ k ∧ ':' ∉ k ∧
    k.head? ≠ some ' ' ∧ k.getLast? ≠ some ' ' := by
  simp [keywordChars]

theorem opChars_getLast : ∀ t ∈ opChars, t.getLast? = some ' ' := by
  simp [opChars]

theorem keyword_not_in_op : ∀ k ∈ keywordChars.flatten, ∀ t ∈ opChars, ¬ k <:+: t := by
  have hall : (keywordChars.flatten.all fun k => opChars.all fun t => !charsInfix k t) = true := rfl
  simp only [List.all_eq_true, Bool.not_eq_true'] at hall
  intro k hk t ht hin
  exact Bool.false_ne_true ((hall k hk t ht).symm.trans (charsInfix_iff.mpr hin))

/-- Only a front with a blank at its end could end such a text. -/
theorem keyword_front_ends_no_op : ∀ k ∈ keywordChars.flatten, ∀ k1 ∈ k.inits,
    k1.getLast? = some ' ' → ∀ t ∈ opChars, ¬ k1 <:+ t := by
  have hall : (keywordChars.flatten.all fun k => k.inits.all fun k1 =>
      k1.getLast? != some ' ' || opChars.all fun t => !k1.isSuffixOf t) = true := rfl
  simp only [List.all_eq_true, Bool.or_eq_true, bne_iff_ne, Bool.not_eq_true'] at hall
  intro k hk k1 hk1 hblank t ht hends
  have hnot := (hall k hk k1 hk1).resolve_left (absurd hblank) t ht
  exact Bool.false_ne_true (hnot.symm.trans (List.isSuffixOf_iff_suffix.mpr hends))

theorem isKeyword_of_mem : ∀ group ∈ keywords, ∀ keyword ∈ group, Keyword keyword.toList := by
  intro group hgroup keyword hkeyword
  have hk : keyword.toList ∈ keywordChars.flatten := keywordChars_eq ▸
    List.mem_flatten_of_mem (List.mem_map_of_mem hgroup) (List.mem_map_of_mem hkeyword)
  have hop : ∀ op ∈ failedOps, lowerChars (op.1 ++ " ") ∈ opChars := fun op hop =>
    opChars_eq ▸ List.mem_map_of_mem hop
  obtain ⟨hnonempty, hdash, harrow, hcolon, hfirst, hlast⟩ := keyword_apart _ hk
  refine ⟨hnonempty, hdash, harrow, hcolon, hfirst, hlast, fun op hmem =>
    ⟨keyword_not_in_op _ hk _ (hop op hmem), fun k1 hk1 hne hends => ?_⟩⟩
  have hblank : k1.getLast? = some ' ' := by
    obtain ⟨front, hfront⟩ := hends
    rw [← opChars_getLast _ (hop op hmem), ← hfront, List.getLast?_append_of_ne_nil _ hne]
  exact keyword_front_ends_no_op _ hk k1 hk1 hblank _ (hop op hmem) hends

section Message

variable {k : List Char}

theorem Keyword.before_iff (h : Keyword k) (a : List Char) : k <:+: a ++ [' '] ↔ k <:+: a := by
  rw [List.infix_append_iff_ne_nil]
  constructor
  · intro h'
    obtain ha | hb | ⟨k1, k2, -, hne, rfl, -, hk2⟩ := h'
    · exact ha
    · have hmem := hb.subset (List.getLast_mem h.nonempty)
      rw [List.mem_singleton] at hmem
      exact absurd (hmem ▸ List.getLast?_eq_some_getLast h.nonempty) h.last
    · obtain ⟨c, k2, rfl⟩ := List.exists_cons_of_ne_nil hne
      obtain ⟨rfl, hnil⟩ := List.cons_prefix_cons.mp hk2
      obtain rfl := List.prefix_nil.mp hnil
      exact absurd List.getLast?_concat h.last
  · exact .inl

theorem Keyword.behind_iff (h : Keyword k) (b : List Char) : k <:+: ' ' :: b ↔ k <:+: b := by
  rw [List.infix_cons_iff]
  constructor
  · intro h'
    obtain hpre | hb := h'
    · obtain ⟨c, k', rfl⟩ := List.exists_cons_of_ne_nil h.nonempty
      exact absurd (congrArg some (List.cons_prefix_cons.mp hpre).1) h.first
    · exact hb
  · exact .inr

/-- A keyword between the names is in one of them. -/
theorem Keyword.names_iff (h : Keyword k) (names : List String) :
    k <:+: lowerChars (" -> ".intercalate names) ↔ ∃ name ∈ names, k <:+: lowerChars name := by
  induction names with
  | nil =>
    have hempty : lowerChars (" -> ".intercalate []) = [] := rfl
    rw [hempty]
    simp [h.nonempty]
  | cons name names ih =>
    cases names with
    | nil => simp
    | cons other rest =>
      have hlist : lowerChars (" -> ".intercalate (name :: other :: rest))
          = (lowerChars name ++ [' ']) ++ '-' :: ([] ++ '>' :: ' ' ::
              lowerChars (" -> ".intercalate (other :: rest))) := by
        rw [String.intercalate_cons_cons, lowerChars_append, lowerChars_append, List.append_assoc,
          List.append_assoc]
        rfl
      rw [hlist, infix_sep_iff h.dash, infix_sep_iff h.arrow, h.before_iff, h.behind_iff, ih,
        List.exists_mem_cons_iff]
      simp [h.nonempty]

/-- **A keyword of the message is in a name or in the system's text.** -/
theorem Keyword.message_iff (h : Keyword k) {op : String} {names : List String} (e : String)
    (hop : (op, names.length) ∈ failedOps) :
    k <:+: lowerChars (handlerError op names e).message ↔
      (∃ name ∈ names, k <:+: lowerChars name) ∨ k <:+: lowerChars e := by
  obtain ⟨hnot, hends⟩ := h.not_op _ hop
  have hlist : lowerChars (handlerError op names e).message
      = (lowerChars (op ++ " ") ++ lowerChars (" -> ".intercalate names)) ++ ':' :: ' ' ::
          lowerChars e := by
    rw [handlerError, lowerChars_append, lowerChars_append, lowerChars_append, List.append_assoc]
    rfl
  rw [hlist, infix_sep_iff h.colon, infix_behind_iff _ hnot hends, h.names_iff, h.behind_iff]

theorem saysOne_handlerError {op : String} {names group : List String} (e : String)
    (hop : (op, names.length) ∈ failedOps) (hgroup : group ∈ keywords) :
    saysOne (handlerError op names e).message group
      = (names.any (saysOne · group) || saysOne e group) := by
  rw [Bool.eq_iff_iff, Bool.or_eq_true, List.any_eq_true]
  simp only [saysOne, List.any_eq_true, hasInfix_iff, toList_toLower]
  constructor
  · intro h
    obtain ⟨keyword, hkeyword, hfound⟩ := h
    rcases ((isKeyword_of_mem group hgroup keyword hkeyword).message_iff e hop).mp hfound with
      ⟨name, hname, hfound⟩ | hfound
    · exact .inl ⟨name, hname, keyword, hkeyword, hfound⟩
    · exact .inr ⟨keyword, hkeyword, hfound⟩
  · intro h
    obtain ⟨name, hname, keyword, hkeyword, hfound⟩ | ⟨keyword, hkeyword, hfound⟩ := h
    · exact ⟨keyword, hkeyword, ((isKeyword_of_mem group hgroup keyword hkeyword).message_iff e
        hop).mpr (.inl ⟨name, hname, hfound⟩)⟩
    · exact ⟨keyword, hkeyword, ((isKeyword_of_mem group hgroup keyword hkeyword).message_iff e
        hop).mpr (.inr hfound)⟩

theorem findIdx_names (names : List String) :
    keywords.findIdx (fun group => names.any (saysOne · group)) = firstClass names := by
  induction names with
  | nil => rfl
  | cons name names ih =>
    simp only [List.any_cons]
    rw [findIdx_or, ih]
    rfl

/-- **The class of a message** is that of a name or of the system's text, whichever comes first. -/
theorem textClass_handlerError {op : String} {names : List String} (e : String)
    (hop : (op, names.length) ∈ failedOps) :
    textClass (handlerError op names e).message = min (firstClass names) (textClass e) := by
  have hsame : keywords.findIdx (saysOne (handlerError op names e).message)
      = keywords.findIdx (fun group => names.any (saysOne · group) || saysOne e group) :=
    findIdx_congr fun group hgroup => saysOne_handlerError e hop hgroup
  rw [textClass, hsame, findIdx_or, findIdx_names]
  rfl

/-- **Two messages about the same failure are taken alike exactly when their names are of one
    class, or neither has a class before that of the system's text.** -/
theorem classified_alike_iff {op : String} {names names' : List String} (e : String)
    (hop : (op, names.length) ∈ failedOps) (hop' : (op, names'.length) ∈ failedOps) :
    (errnoFor (handlerError op names e) = errnoFor (handlerError op names' e) ∧
        sendFatal (handlerError op names e) = sendFatal (handlerError op names' e)) ↔
      firstClass names = firstClass names' ∨
        (textClass e ≤ firstClass names ∧ textClass e ≤ firstClass names') := by
  have hcode : ∀ names, (handlerError op names e).code ≠ Code.methodNotFound := fun _ =>
    show Code.internalError ≠ Code.methodNotFound by decide
  rw [errnoFor_eq, errnoFor_eq, sendFatal_eq (hcode names), sendFatal_eq (hcode names'),
    textClass_handlerError e hop, textClass_handlerError e hop']
  have hbound : ∀ n, min n (textClass e) ≤ 5 := fun n =>
    (Nat.min_le_right _ _).trans (textClass_le e)
  constructor
  · intro h'
    obtain ⟨herrno, -⟩ := h'
    have hsame := errnoOfClass_inj (hbound _) (hbound _) herrno
    omega
  · intro h
    have hsame : min (firstClass names) (textClass e) = min (firstClass names') (textClass e) := by
      omega
    rw [hsame]
    exact ⟨rfl, rfl⟩

end Message

/-! The class of a text, letter by letter. -/

theorem textClass_chars (text : String) : textClass text
    = keywordChars.findIdx fun group => group.any fun k => charsInfix k (lowerChars text) := by
  rw [textClass, ← keywordChars_eq, List.findIdx_map]
  refine findIdx_congr fun group _ => ?_
  rw [Function.comp_apply, saysOne, List.any_map]
  refine congrArg (group.any ·) (funext fun keyword => ?_)
  rw [hasInfix_eq, toList_toLower, Function.comp_apply]

theorem textClass_ofList (chars : List Char) : textClass (String.ofList chars)
    = keywordChars.findIdx fun group =>
        group.any fun k => charsInfix k (chars.map Char.toLower) := by
  rw [textClass_chars, lowerChars, String.toList_ofList]

/-- Where nothing is found in the names, the system's text decides. -/
theorem classified_alike_plain :
    errnoFor (handlerError "rename" ["/a/x", "/a/y"] "Permission denied (os error 13)")
      = errnoFor (handlerError "rename" ["/b", "/c exists"] "Permission denied (os error 13)") := by
  have hdenied : textClass "Permission denied (os error 13)" = 1 := (textClass_ofList _).trans rfl
  have hplain : 1 ≤ firstClass ["/a/x", "/a/y"] := by
    have hx : textClass "/a/x" = 5 := (textClass_ofList _).trans rfl
    have hy : textClass "/a/y" = 5 := (textClass_ofList _).trans rfl
    simp [firstClass, hx, hy]
  have hlater : 1 ≤ firstClass ["/b", "/c exists"] := by
    have hb : textClass "/b" = 5 := (textClass_ofList _).trans rfl
    have hc : textClass "/c exists" = 2 := (textClass_ofList _).trans rfl
    simp [firstClass, hb, hc]
  exact ((@classified_alike_iff "rename" ["/a/x", "/a/y"] ["/b", "/c exists"]
    "Permission denied (os error 13)" (by simp [failedOps]) (by simp [failedOps])).mpr
    (.inr (by rw [hdenied]; exact ⟨hplain, hlater⟩))).1

/-- A folder named `permissions` turns every other error of its files into a denied permission, and
    what is to be written to them is dropped. -/
theorem classified_by_name :
    ¬ (∀ (op : String) (names names' : List String) (e : String), (op, names.length) ∈ failedOps →
        (op, names'.length) ∈ failedOps →
        errnoFor (handlerError op names e) = errnoFor (handlerError op names' e) ∧
          sendFatal (handlerError op names e) = sendFatal (handlerError op names' e)) ∧
      errnoFor (handlerError "open" ["/permissions/x"] "Input/output error (os error 5)") = .eacces ∧
      errnoFor (handlerError "open" ["/data/x"] "Input/output error (os error 5)") = .eio ∧
      sendFatal (handlerError "open" ["/permissions/x"] "Input/output error (os error 5)") = true ∧
      sendFatal (handlerError "open" ["/data/x"] "Input/output error (os error 5)") = false := by
  have hio : textClass "Input/output error (os error 5)" = 5 := (textClass_ofList _).trans rfl
  have hnamed : textClass "/permissions/x" = 1 := (textClass_ofList _).trans rfl
  have hdata : textClass "/data/x" = 5 := (textClass_ofList _).trans rfl
  have hop : ("open", 1) ∈ failedOps := by
    simp [failedOps]
  have hclass : textClass (handlerError "open" ["/permissions/x"]
      "Input/output error (os error 5)").message = 1 := by
    rw [textClass_handlerError _ hop, hio]
    simp [firstClass, hnamed]
  have hother : textClass (handlerError "open" ["/data/x"]
      "Input/output error (os error 5)").message = 5 := by
    rw [textClass_handlerError _ hop, hio]
    simp [firstClass, hdata]
  have hcode : Code.internalError ≠ Code.methodNotFound := by
    decide
  have herrno : errnoFor (handlerError "open" ["/permissions/x"]
      "Input/output error (os error 5)") = .eacces := by
    rw [errnoFor_eq, hclass]
    rfl
  have hplain : errnoFor (handlerError "open" ["/data/x"]
      "Input/output error (os error 5)") = .eio := by
    rw [errnoFor_eq, hother]
    rfl
  refine ⟨fun hall => ?_, herrno, hplain, ?_, ?_⟩
  · have hsame := (hall "open" ["/permissions/x"] ["/data/x"] "Input/output error (os error 5)"
      hop hop).1
    rw [herrno, hplain] at hsame
    cases hsame
  · rw [sendFatal_eq hcode, hclass]
    rfl
  · rw [sendFatal_eq hcode, hother]
    rfl

/-! ## 4. The handlers -/

/-- The paths that a request names. -/
def BridgeRequest.names : BridgeRequest → List String
  | .readFile path _ _ | .writeFile path _ _ | .listDir path | .stat path | .mkdir path _
  | .remove path _ | .writeAt path _ _ | .truncate path _ | .chmod path _ => [path]
  | .rename source dest | .copy source dest _ => [source, dest]
  | .symlink link target => [link, target]
  | _ => []

/-- A text of a handler that is the same whatever file it is about. -/
def Nameless (fault : Option Fault) (text : String) : Prop :=
  (∃ f ∈ fault, f.text = text) ∨ text = "Invalid argument (os error 22)" ∨
    ∃ data, payload data = .error text

theorem handlerError_one (op path e : String) :
    handlerError op [path] e = ⟨Code.internalError, op ++ " " ++ path ++ ": " ++ e⟩ := rfl

theorem handlerError_two (op source dest e : String) :
    handlerError op [source, dest] e
      = ⟨Code.internalError, op ++ " " ++ source ++ " -> " ++ dest ++ ": " ++ e⟩ := by
  rw [handlerError]
  simp [String.append_assoc]

/-- A text of a handler: of the form above with the names of the request, or nameless. -/
def HandlerText (names : List String) (fault : Option Fault) (text : String) : Prop :=
  (∃ op e, (op, names.length) ∈ failedOps ∧
      (⟨Code.internalError, text⟩ : RpcError) = handlerError op names e) ∨ Nameless fault text

section Handlers

variable {files : Files} {path text : String} {fault : Option Fault}

theorem handlerText_one {op e : String} (hop : (op, 1) ∈ failedOps) :
    HandlerText [path] fault (op ++ " " ++ path ++ ": " ++ e) :=
  .inl ⟨op, e, hop, (handlerError_one op path e).symm⟩

theorem Agent.writeFile_error {data : String}
    (h : (Agent.writeFile files path data fault).2 = .error text) :
    HandlerText [path] fault text := by
  unfold Agent.writeFile at h
  cases hdata : payload data with
  | error t =>
    simp only [hdata] at h
    obtain rfl := Except.error.inj h
    exact .inr (.inr (.inr ⟨data, hdata⟩))
  | ok bytes =>
    simp only [hdata] at h
    cases fault with
    | none => cases h
    | some f =>
      cases f with
      | opening t =>
        cases h
        exact @handlerText_one path _ "create" t (by decide)
      | writing taken t => exact .inr (.inl ⟨_, rfl, Except.error.inj h⟩)

theorem Agent.writeAt_error {offset : Nat} {data : String}
    (h : (Agent.writeAt files path offset data fault).2 = .error text) :
    HandlerText [path] fault text := by
  unfold Agent.writeAt at h
  cases hdata : payload data with
  | error t =>
    simp only [hdata] at h
    obtain rfl := Except.error.inj h
    exact .inr (.inr (.inr ⟨data, hdata⟩))
  | ok bytes =>
    simp only [hdata] at h
    split at h
    · cases h
      exact @handlerText_one path _ "open" notFound (by decide)
    · rename_i t _
      cases h
      exact @handlerText_one path _ "open" t (by decide)
    · split at h
      · exact .inr (.inr (.inl (Except.error.inj h).symm))
      · split at h
        · cases h
        · exact .inr (.inl ⟨_, rfl, Except.error.inj h⟩)

theorem Agent.truncate_error {size : Nat}
    (h : (Agent.truncate files path size fault).2 = .error text) :
    HandlerText [path] fault text := by
  unfold Agent.truncate at h
  split at h
  · cases h
    exact @handlerText_one path _ "open" notFound (by decide)
  · rename_i t _
    cases h
    exact @handlerText_one path _ "open" t (by decide)
  · rename_i t _
    cases h
    exact @handlerText_one path _ "truncate" t (by decide)
  · cases h

theorem Agent.rename_error {source dest : String}
    (h : (Agent.rename files source dest fault).2 = .error text) :
    HandlerText [source, dest] fault text := by
  have htext : ∀ e, HandlerText [source, dest] fault
      ("rename " ++ source ++ " -> " ++ dest ++ ": " ++ e) := fun e =>
    .inl ⟨"rename", e, (show ("rename", 2) ∈ failedOps by decide),
      (handlerError_two "rename" source dest e).symm⟩
  unfold Agent.rename at h
  dsimp only at h
  split at h
  · cases h
    exact htext notFound
  · cases h
    exact htext _
  · cases h

theorem Agent.remove_error {recursive : Option Bool}
    (h : (Agent.remove files path recursive fault).2 = .error text) :
    HandlerText [path] fault text := by
  have htext : ∀ e, HandlerText [path] fault ("remove " ++ path ++ ": " ++ e) := fun e =>
    @handlerText_one path _ "remove" e (by decide)
  unfold Agent.remove at h
  dsimp only at h
  split at h
  · cases h
    exact htext notFound
  · cases h
    exact htext _
  · split at h
    · cases h
      exact htext _
    · cases h

/-- **The errors of the handlers** are of the form above with the names of the request, or are
    nameless. -/
theorem execute_error {files' : Files} {req : BridgeRequest} {err : RpcError}
    (h : execute files req fault = some (files', .error err)) :
    err.code = Code.internalError ∧ HandlerText req.names fault err.message := by
  have hwire : ∀ {r : Files × Except String Json},
      some (wireAnswer r) = some (files', .error err) →
        ∃ text, r.2 = .error text ∧ err = ⟨Code.internalError, text⟩ := by
    intro r hr
    obtain ⟨fs, answer⟩ := r
    cases answer with
    | error text =>
      cases hr
      exact ⟨text, rfl, rfl⟩
    | ok value => cases hr
  cases req with
  | writeFile p data createDirs =>
    obtain ⟨text, herr, rfl⟩ := hwire h
    exact ⟨rfl, Agent.writeFile_error herr⟩
  | writeAt p offset data =>
    obtain ⟨text, herr, rfl⟩ := hwire h
    exact ⟨rfl, Agent.writeAt_error herr⟩
  | truncate p size =>
    obtain ⟨text, herr, rfl⟩ := hwire h
    exact ⟨rfl, Agent.truncate_error herr⟩
  | rename source dest =>
    obtain ⟨text, herr, rfl⟩ := hwire h
    exact ⟨rfl, Agent.rename_error herr⟩
  | remove p recursive =>
    obtain ⟨text, herr, rfl⟩ := hwire h
    exact ⟨rfl, Agent.remove_error herr⟩
  | _ => cases h

end Handlers

end Relayfs
