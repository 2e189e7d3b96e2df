/-
  File:      Relayfs/Http/Tokens.lean
  Subject:   THE TOKEN OF A REQUEST (bridge/src/http.rs): what `extract_token` and `decode_percent`
             make of a token that was written into a query or a cookie.

  * `decodeBytes_encoded`, `decodePercent_encoded` -- `decode_percent` undoes every way to write a
    text form-encoded;
  * `query_token_decoded` -- `extract_token` finds the token among other parameters;
  * `QueryAccepted`, `CookieAccepted` -- what `legacy_sse_handler` and `authorize_submit` hand out
    lets a client in; `queryAccepted_iff`, `cookieAccepted_iff` -- for which tokens it does;
  * `TokenBody` -- a form that asks for a code, with other parameters and any encoding.
-/
import Mathlib.Data.List.DropRight
import Relayfs.Http.Server
import Relayfs.Lib.FormUrl

namespace Relayfs

open Lib

/-! ## 1. Decoding -/

theorem hexDigit_of_hexFor {d : UInt8} {n : Nat} (h : HexFor d.toNat n) : hexDigit d = some n := by
  unfold hexDigit
  dsimp only
  rcases h with ⟨hn, h⟩ | ⟨hlo, hhi, h | h⟩
  · rw [if_pos (by omega)]
    congr 1
    omega
  · rw [if_neg (by omega), if_pos (by omega)]
    congr 1
    omega
  · rw [if_neg (by omega), if_neg (by omega), if_pos (by omega)]
    congr 1
    omega

/-- The two digits of a byte. -/
theorem hexByte_of_hexFor {b d1 d2 : UInt8} (h1 : HexFor d1.toNat (b.toNat / 16))
    (h2 : HexFor d2.toNat (b.toNat % 16)) : hexByte d1 d2 = some b := by
  have hsign : d1 ≠ 43 := by
    intro heq
    subst heq
    have h43 : UInt8.toNat 43 = 43 := rfl
    rw [h43] at h1
    rcases h1 with ⟨hn, h⟩ | ⟨hlo, hhi, h⟩ <;> omega
  have hb : UInt8.ofNat (b.toNat / 16 * 16 + b.toNat % 16) = b := by
    rw [Nat.div_add_mod']
    exact UInt8.ofNat_toNat
  rw [hexByte, if_neg hsign, hexDigit_of_hexFor h1, hexDigit_of_hexFor h2]
  exact congrArg some hb

/-- A byte that is neither `%` nor `+` stays. -/
theorem decodeBytes_literal {b : UInt8} (hpercent : b ≠ 37) (hplus : b ≠ 43) (rest : List UInt8) :
    decodeBytes (b :: rest) = b :: decodeBytes rest := by
  rw [decodeBytes.eq_def]
  split
  · rename_i heq
    cases heq
  · rename_i heq
    exact absurd (List.cons.inj heq).1 hpercent
  · rename_i heq
    exact absurd (List.cons.inj heq).1 hpercent
  · rename_i heq
    exact absurd (List.cons.inj heq).1 hplus
  · rename_i heq
    obtain ⟨rfl, rfl⟩ := List.cons.inj heq
    rfl

/-- **Decoding undoes every encoding.** -/
theorem decodeBytes_encoded {t e : List UInt8} (h : FormEncodes t e) : decodeBytes e = t := by
  induction h with
  | nil => rfl
  | literal hb _ ih => rw [decodeBytes_literal hb.1 hb.2.1, ih]
  | escape h1 h2 _ ih => rw [decodeBytes_percent_cons, hexByte_of_hexFor h1 h2, ih]
  | space _ ih => rw [decodeBytes_plus, ih]

theorem decodePercent_encoded {t e : String} (h : FormEncodes (utf8Bytes t) (utf8Bytes e)) :
    decodePercent e = t := by
  rw [decodePercent, decodeBytes_encoded h, fromUtf8Lossy_utf8Bytes]

/-- A text without the four characters stays as it is. -/
theorem decodePercent_plain {t : String}
    (h : ∀ c ∈ t.toList, c ≠ '%' ∧ c ≠ '+' ∧ c ≠ '&' ∧ c ≠ '#') : decodePercent t = t :=
  decodePercent_encoded (UrlWrites.encodes h (UrlWrites.refl _))

/-! How long what is decoded is. -/

theorem length_decodeBytes_percent_cons (h1 h2 : UInt8) (rest : List UInt8) :
    (decodeBytes (37 :: h1 :: h2 :: rest)).length ≤ (decodeBytes rest).length + 1 := by
  rw [decodeBytes_percent_cons]
  cases hexByte h1 h2 with
  | none => exact Nat.le_succ _
  | some byte => exact Nat.le_refl _

theorem decodeBytes_cons {b : UInt8} (hpercent : b ≠ 37) (rest : List UInt8) :
    ∃ b', decodeBytes (b :: rest) = b' :: decodeBytes rest := by
  by_cases hplus : b = 43
  · subst hplus
    exact ⟨32, decodeBytes_plus rest⟩
  · exact ⟨b, decodeBytes_literal hpercent hplus rest⟩

theorem length_decodeBytes_le (bytes : List UInt8) : (decodeBytes bytes).length ≤ bytes.length := by
  match bytes with
  | [] => exact Nat.le_refl _
  | b :: rest =>
    by_cases hb : b = 37
    · subst hb
      match rest with
      | [] | [_] => exact Nat.zero_le _
      | h1 :: h2 :: back =>
        have hstep := length_decodeBytes_percent_cons h1 h2 back
        have hback := length_decodeBytes_le back
        exact hstep.trans (Nat.succ_le_succ (hback.trans (Nat.le_add_right _ 2)))
    · obtain ⟨b', hb'⟩ := decodeBytes_cons hb rest
      rw [hb']
      exact Nat.succ_le_succ (length_decodeBytes_le rest)
termination_by bytes.length

/-- An escape is shorter than it was, and a broken one is gone. -/
theorem length_decodeBytes_lt {bytes : List UInt8} (h : 37 ∈ bytes) :
    (decodeBytes bytes).length < bytes.length := by
  induction bytes with
  | nil => exact absurd h List.not_mem_nil
  | cons b rest ih =>
    by_cases hb : b = 37
    · subst hb
      match rest with
      | [] | [_] => exact Nat.succ_pos _
      | h1 :: h2 :: back =>
        have hstep := length_decodeBytes_percent_cons h1 h2 back
        have hback := length_decodeBytes_le back
        exact hstep.trans_lt (Nat.succ_lt_succ (Nat.lt_add_right 1 (Nat.lt_succ_of_le hback)))
    · obtain ⟨b', hb'⟩ := decodeBytes_cons hb rest
      rw [hb']
      exact Nat.succ_lt_succ (ih ((List.mem_cons.mp h).resolve_left (Ne.symm hb)))

/-- Without a `%` only a `+` is another byte. -/
theorem decodeBytes_plain {bytes : List UInt8} (h : 37 ∉ bytes) :
    decodeBytes bytes = bytes.map fun b => if b = 43 then 32 else b := by
  induction bytes with
  | nil => rfl
  | cons b rest ih =>
    rw [List.mem_cons, not_or] at h
    rw [List.map_cons, ← ih h.2]
    by_cases hb : b = 43
    · subst hb
      rfl
    · rw [if_neg hb, decodeBytes_literal (Ne.symm h.1) hb]

/-- A decoded text has no more characters than bytes were decoded. -/
theorem length_decodePercent_le (s : String) :
    (decodePercent s).toList.length ≤ (decodeBytes (utf8Bytes s)).length := by
  have h := length_utf8Chars_le ((decodeBytes (utf8Bytes s)).map Sum.inr) none (by simp)
  have hbytes : ((decodeBytes (utf8Bytes s)).map Sum.inr).flatMap Utf8Unit.bytes
      = decodeBytes (utf8Bytes s) := by
    rw [List.flatMap_map]
    exact List.flatMap_singleton' _
  rw [hbytes, List.length_map] at h
  rw [decodePercent, fromUtf8Lossy, String.toList_ofList]
  exact h

/-! ## 2. Finding the token -/

/-- A parameter that is no token: it has another name, or no value. -/
def OtherParam (p : String) : Prop :=
  ∀ key value, splitOnce '=' p = some (key, value) → isTokenKey key = false

theorem queryPairToken_other {p : String} (h : OtherParam p) : queryPairToken p = none := by
  unfold queryPairToken
  cases hp : splitOnce '=' p with
  | none => rfl
  | some pair =>
    obtain ⟨key, value⟩ := pair
    have hkey := h key value hp
    simp [hkey]

theorem splitOnce_append {sep : Char} (key value : String) (h : sep ∉ key.toList) :
    splitOnce sep (key ++ String.singleton sep ++ value) = some (key, value) := by
  have hall : ∀ c ∈ key.toList, (decide (c ≠ sep)) = true := fun c hc =>
    decide_eq_true fun heq => h (heq ▸ hc)
  have hlist : (key ++ String.singleton sep ++ value).toList
      = key.toList ++ sep :: value.toList := by simp
  have hspan : (key.toList ++ sep :: value.toList).span (· ≠ sep)
      = (key.toList, sep :: value.toList) := by
    rw [List.span_eq_takeWhile_dropWhile, List.takeWhile_append_of_pos hall,
      List.dropWhile_append_of_pos hall]
    simp
  rw [splitOnce, hlist, hspan]
  simp

/-- A parameter that is a token. -/
theorem queryPairToken_encoded {t e key : String} (ht : t ≠ "")
    (he : FormEncodes (utf8Bytes t) (utf8Bytes e)) (hkey : key = "token" ∨ key = "access_token") :
    queryPairToken (key ++ "=" ++ e) = some t := by
  have hsplit : splitOnce '=' (key ++ "=" ++ e) = some (key, e) := by
    refine splitOnce_append _ e ?_
    rcases hkey with rfl | rfl <;> decide
  have hname : isTokenKey key = true := by
    rcases hkey with rfl | rfl <;> rfl
  rw [queryPairToken, hsplit]
  simp [decodePercent_encoded he, hname, ht]

/-- No byte of a text is that of a character it does not have. -/
theorem notMem_of_bytes {c : Char} {s : String} (hc : c.toNat < 0x80)
    (h : UInt8.ofNat c.toNat ∉ utf8Bytes s) : c ∉ s.toList := by
  intro hmem
  refine h (List.mem_flatMap.mpr ⟨c, hmem, ?_⟩)
  rw [encodeChar_ascii hc]
  exact List.mem_singleton_self _

theorem splitOnce_eq_some {sep : Char} {s key value : String}
    (h : splitOnce sep s = some (key, value)) : s.toList = key.toList ++ sep :: value.toList := by
  unfold splitOnce at h
  rw [List.span_eq_takeWhile_dropWhile] at h
  have hall := List.takeWhile_append_dropWhile (p := (· ≠ sep)) (l := s.toList)
  cases hdrop : s.toList.dropWhile (· ≠ sep) with
  | nil =>
    rw [hdrop] at h
    cases h
  | cons c rest =>
    have hc : c = sep := by
      have hnot := List.head?_dropWhile_not (· ≠ sep) s.toList
      rw [hdrop] at hnot
      simpa using hnot
    rw [hdrop] at h hall
    subst hc
    obtain ⟨rfl, rfl⟩ := Prod.mk.inj (Option.some.inj h)
    rw [String.toList_ofList, String.toList_ofList, hall]

/-- The query is split into its parameters. -/
theorem splitAtChar_intercalate {params : List String} (hne : params ≠ [])
    (h : ∀ p ∈ params, '&' ∉ p.toList) : splitAtChar '&' ("&".intercalate params) = params := by
  have hlists : ∀ l ∈ params.map String.toList, '&' ∉ l := by
    intro l hl
    obtain ⟨p, hp, rfl⟩ := List.mem_map.mp hl
    exact h p hp
  rw [splitAtChar, String.toList_intercalate]
  show ((['&'].intercalate (params.map String.toList)).splitOn '&').map String.ofList = params
  rw [List.splitOn_intercalate '&' hlists (by simpa using hne), List.map_map]
  simp

/-- **The first token of a query is found and decoded.** -/
theorem findToken_encoded {t e key : String} {before after : List String} (ht : t ≠ "")
    (he : FormEncodes (utf8Bytes t) (utf8Bytes e)) (hkey : key = "token" ∨ key = "access_token")
    (hbefore : ∀ p ∈ before, '&' ∉ p.toList ∧ OtherParam p) (hafter : ∀ p ∈ after, '&' ∉ p.toList) :
    (splitAtChar '&' ("&".intercalate (before ++ (key ++ "=" ++ e) :: after))).findSome?
      queryPairToken = some t := by
  have hpair : '&' ∉ (key ++ "=" ++ e).toList := by
    have hval : '&' ∉ e.toList := notMem_of_bytes (by decide) he.no_separator
    rcases hkey with rfl | rfl <;> simp [hval]
  have hall : ∀ p ∈ before ++ (key ++ "=" ++ e) :: after, '&' ∉ p.toList := by
    intro p hp
    rcases List.mem_append.mp hp with hp | hp
    · exact (hbefore p hp).1
    · rcases List.mem_cons.mp hp with rfl | hp
      · exact hpair
      · exact hafter p hp
  have hnone : before.findSome? queryPairToken = none :=
    List.findSome?_eq_none_iff.mpr fun p hp => queryPairToken_other (hbefore p hp).2
  rw [splitAtChar_intercalate (by simp) hall, List.findSome?_append, hnone, Option.none_or,
    List.findSome?_cons, queryPairToken_encoded ht he hkey]

/-- **A token in the query is read back**: whatever parameters stand before it under other names
    and behind it, and however it is encoded. -/
theorem query_token_decoded {headers : HeaderMap} {t e key : String} {before after : List String}
    (ht : t ≠ "") (he : FormEncodes (utf8Bytes t) (utf8Bytes e))
    (hkey : key = "token" ∨ key = "access_token")
    (hbefore : ∀ p ∈ before, '&' ∉ p.toList ∧ OtherParam p) (hafter : ∀ p ∈ after, '&' ∉ p.toList)
    (hbearer : bearerToken headers = none) :
    extractToken headers (some ("&".intercalate (before ++ (key ++ "=" ++ e) :: after)))
      = some t := by
  have hfind := findToken_encoded ht he hkey hbefore hafter
  rw [extractToken, hbearer, Option.bind_some, hfind]
  rfl

/-- Behind a parameter `x` and a `token` without a value: a space as `+`, an `ä` and a `%` as
    escapes in either case. -/
theorem query_token_decoded_mixed :
    extractToken [] (some ("&".intercalate
      (["x=1", "token"] ++ ("access_token" ++ "=" ++ "%c3%A4+b%25") :: ["token=c"])))
      = some "ä b%" := by
  have htext : utf8Bytes "ä b%" = [0xC3, 0xA4, 0x20, 0x62, 0x25] :=
    (utf8Bytes_ofList _).trans rfl
  have hwritten : utf8Bytes "%c3%A4+b%25" =
      [0x25, 0x63, 0x33, 0x25, 0x41, 0x34, 0x2B, 0x62, 0x25, 0x32, 0x35] :=
    (utf8Bytes_ofList _).trans rfl
  have he : FormEncodes (utf8Bytes "ä b%") (utf8Bytes "%c3%A4+b%25") := by
    rw [htext, hwritten]
    refine .escape (by decide) (by decide) (.escape (by decide) (by decide) (.space ?_))
    exact .literal (by decide) (.escape (by decide) (by decide) .nil)
  have hbefore : ∀ p ∈ ["x=1", "token"], '&' ∉ p.toList ∧ OtherParam p := by
    have hx : splitOnce '=' "x=1" = some ("x", "1") := splitOnce_append "x" "1" (by simp)
    have htoken : splitOnce '=' "token" = none := (splitOnce_ofList _ _).trans rfl
    refine List.forall_mem_cons.mpr ⟨⟨by decide, ?_⟩, List.forall_mem_singleton.mpr ⟨by decide, ?_⟩⟩
    · intro key value h
      rw [hx] at h
      cases h
      rfl
    · intro key value h
      rw [htoken] at h
      cases h
  exact query_token_decoded (by decide) he (.inr rfl) hbefore
    (List.forall_mem_singleton.mpr (by decide)) (by decide)

/-! ## 3. Texts of headers -/

/-- Printable ASCII. -/
def Printable (s : String) : Prop := ∀ c ∈ s.toList, 0x20 ≤ c.toNat ∧ c.toNat < 0x7F

theorem Printable.append {a b : String} (ha : Printable a) (hb : Printable b) :
    Printable (a ++ b) := by
  intro c hc
  rw [String.toList_append, List.mem_append] at hc
  exact hc.elim (ha c) (hb c)

theorem Printable.of_subset {a b : String} (h : Printable a) (hsub : b.toList ⊆ a.toList) :
    Printable b := fun c hc => h c (hsub hc)

/-- The bytes of a printable text, one for each character. -/
theorem Printable.bytes {s : String} (h : Printable s) :
    utf8Bytes s = s.toList.map fun c => UInt8.ofNat c.toNat := by
  unfold Printable at h
  rw [utf8Bytes]
  generalize s.toList = chars at h
  induction chars with
  | nil => rfl
  | cons c chars ih =>
    rw [List.forall_mem_cons] at h
    rw [List.flatMap_cons, encodeChar_ascii (by omega), ih h.2, List.map_cons,
      List.singleton_append]

/-- A printable text is the value of a header, and is read from it. -/
theorem Printable.headerText {s : String} (h : Printable s) : headerText (utf8Bytes s) = some s := by
  have hall : ((utf8Bytes s).all fun b => b = 9 ∨ (32 ≤ b ∧ b < 127)) = true := by
    rw [h.bytes, List.all_map, List.all_eq_true]
    intro c hc
    obtain ⟨hlo, hhi⟩ := h c hc
    refine decide_eq_true (.inr ⟨?_, ?_⟩)
    · rw [UInt8.le_iff_toNat_le, toNat_ofNat (by omega)]
      exact hlo
    · rw [UInt8.lt_iff_toNat_lt, toNat_ofNat (by omega)]
      exact hhi
  have hchars : (utf8Bytes s).map (fun b => Char.ofNat b.toNat) = s.toList := by
    rw [h.bytes, List.map_map]
    refine (List.map_congr_left fun c hc => ?_).trans (List.map_id _)
    obtain ⟨hlo, hhi⟩ := h c hc
    rw [Function.comp_apply, toNat_ofNat (by omega)]
    exact Char.ofNat_toNat c
  rw [Relayfs.headerText, if_pos hall, hchars, String.ofList_toList]

/-- It is one that a response may have. -/
theorem Printable.headerValue {s : String} (h : Printable s) : headerValue s = some s := by
  have hall : ((utf8Bytes s).all fun b => b = 9 ∨ (32 ≤ b ∧ b ≠ 127)) = true := by
    rw [h.bytes, List.all_map, List.all_eq_true]
    intro c hc
    obtain ⟨hlo, hhi⟩ := h c hc
    refine decide_eq_true (.inr ⟨?_, ?_⟩)
    · rw [UInt8.le_iff_toNat_le, toNat_ofNat (by omega)]
      exact hlo
    · intro heq
      have hnat := congrArg UInt8.toNat heq
      rw [toNat_ofNat (by omega)] at hnat
      exact Nat.ne_of_lt hhi hnat
  rw [Relayfs.headerValue, if_pos hall]

/-! Trimming. -/

/-- Neither end of the text is white space. -/
structure Trimmed (s : String) : Prop where
  first : ∀ c ∈ s.toList.head?, isWhiteSpace c = false
  last : ∀ c ∈ s.toList.getLast?, isWhiteSpace c = false

theorem toList_trimText (s : String) :
    (trimText s).toList = (s.toList.dropWhile isWhiteSpace).rdropWhile isWhiteSpace := by
  rw [trimText, String.toList_ofList]
  rfl

theorem trimText_sublist (s : String) : (trimText s).toList.Sublist s.toList := by
  rw [toList_trimText]
  exact (List.rdropWhile_prefix _ _).sublist.trans (List.dropWhile_suffix _).sublist

theorem trimmed_trimText (s : String) : Trimmed (trimText s) := by
  constructor
  · intro c hc
    rw [toList_trimText] at hc
    obtain ⟨rest, hrest⟩ := List.rdropWhile_prefix isWhiteSpace
      (s.toList.dropWhile isWhiteSpace)
    have hfirst : c ∈ (s.toList.dropWhile isWhiteSpace).head? := by
      rw [← hrest, List.head?_append, Option.mem_def.mp hc]
      rfl
    have hnot := List.head?_dropWhile_not isWhiteSpace s.toList
    rw [Option.mem_def.mp hfirst] at hnot
    exact hnot
  · intro c hc
    rw [toList_trimText] at hc
    obtain ⟨hne, rfl⟩ := List.mem_getLast?_eq_getLast hc
    exact Bool.eq_false_iff.mpr (List.rdropWhile_last_not _ _ hne)

theorem Trimmed.trimText_eq {s : String} (h : Trimmed s) : trimText s = s := by
  rw [← String.toList_inj, toList_trimText]
  have hfront : s.toList.dropWhile isWhiteSpace = s.toList := by
    cases hs : s.toList with
    | nil => rfl
    | cons c rest =>
      exact List.dropWhile_cons_of_neg (Bool.eq_false_iff.mp (h.first c (by rw [hs]; rfl)))
  rw [hfront, List.rdropWhile_eq_self_iff]
  intro hne
  exact Bool.eq_false_iff.mp (h.last _ (List.getLast?_eq_some_getLast hne))

/-- A name and a trimmed value. -/
theorem Trimmed.named {name value : String} (hname : Trimmed (name ++ "=")) (h : Trimmed value) :
    Trimmed (name ++ "=" ++ value) := by
  constructor
  · intro c hc
    refine hname.first c ?_
    rw [String.toList_append, List.head?_append] at hc
    cases hfirst : (name ++ "=").toList.head? with
    | none => simp at hfirst
    | some d =>
      rw [hfirst] at hc
      exact hc
  · intro c hc
    rw [String.toList_append, List.getLast?_append] at hc
    cases hlast : value.toList.getLast? with
    | none =>
      rw [hlast] at hc
      exact hname.last c hc
    | some d =>
      rw [hlast] at hc
      exact h.last c (hlast.trans hc)

/-! ## 4. What the server hands out -/

/-- **A pairing token**: printable ASCII, not empty, without spaces at its ends. -/
structure PairingToken (t : String) : Prop where
  nonempty : t ≠ ""
  printable : Printable t
  first : t.toList.head? ≠ some ' '
  last : t.toList.getLast? ≠ some ' '

/-- The endpoint in the first event of `legacy_sse_handler`. -/
def HttpResponse.endpoint (res : HttpResponse) : Option String :=
  match res.body with
  | .stream first _ =>
      (stripText "event: endpoint\ndata: " first).map fun url =>
        String.ofList (url.toList.takeWhile (· ≠ '\n'))
  | _ => none

/-- The cookie that a client sends back: the name and the value of a `Set-Cookie` header. -/
def cookiePair (setCookie : String) : String :=
  let pair := setCookie.toList.takeWhile (· ≠ ';')
  trimText (String.ofList (pair.takeWhile (· ≠ '='))) ++ "="
    ++ trimText (String.ofList ((pair.dropWhile (· ≠ '=')).drop 1))

/-- The server takes the request as one that presents its token. -/
def Accepted (t : String) (req : HttpRequest) : Prop :=
  extractToken req.headers req.query = some t ∧ authMiddleware t req = .mcp

/-- **The query of the endpoint is accepted**: whoever was let in to the event stream is told an
    endpoint, and a request with no other credential than the query of it is accepted. -/
def QueryAccepted (t : String) : Prop :=
  ∀ sse req : HttpRequest, ∀ url query sent : String,
    extractToken sse.headers sse.query = some t → (legacySse t sse).endpoint = some url →
    urlQuery url = some query → UrlWrites query.toList sent.toList →
    req.method ≠ .options → req.query = some sent → req.headers.get "authorization" = none →
    req.headers.get "cookie" = none → Accepted t req

/-- **The cookie of the login is accepted**: whoever has logged in is handed a cookie, and a request
    with no other credential than the cookie is accepted. -/
def CookieAccepted (t : String) : Prop :=
  ∀ (form : AuthorizeForm) (now : Nat) (code : String) (codes : AuthCodes) (cookie : String)
    (req : HttpRequest),
    form.token = t → form.redirectUri.getD "" = "" →
    (authorizeSubmit t now code codes form).1.header "set-cookie" = some cookie →
    req.method ≠ .options → req.query = none → req.headers.get "authorization" = none →
    req.headers.get "cookie" = some (utf8Bytes (cookiePair cookie)) → Accepted t req

section HandedOut

variable {t : String}

theorem stripText_append (start s : String) : stripText start (start ++ s) = some s := by
  have hlist : (start ++ s).toList = start.toList ++ s.toList := String.toList_append
  rw [stripText, hlist, if_pos (List.prefix_append _ _), ← String.length_toList,
    List.drop_left, String.ofList_toList]

theorem isWhiteSpace_printable {c : Char} (h : 0x20 ≤ c.toNat ∧ c.toNat < 0x7F) (hc : c ≠ ' ') :
    isWhiteSpace c = false := by
  have hne : c.toNat ≠ 0x20 := fun heq => hc (Char.toNat_inj.mp heq)
  refine decide_eq_false ?_
  omega

theorem PairingToken.trimmed (h : PairingToken t) : Trimmed t := by
  constructor
  · intro c hc
    refine isWhiteSpace_printable (h.printable c (List.mem_of_mem_head? hc)) ?_
    intro heq
    subst heq
    exact h.first hc
  · intro c hc
    refine isWhiteSpace_printable (h.printable c (List.mem_of_mem_getLast? hc)) ?_
    intro heq
    subst heq
    exact h.last hc

/-- The `Authorization` header with the token lets a client in. -/
theorem extractToken_bearer (h : PairingToken t) :
    extractToken [("authorization", utf8Bytes ("Bearer " ++ t))] none = some t := by
  have hfront : Printable "Bearer " := by
    simp [Printable]
  have hprint := hfront.append h.printable
  have hstrip := stripText_append "Bearer " t
  have hbearer : bearerToken [("authorization", utf8Bytes ("Bearer " ++ t))] = some t := by
    simp [bearerToken, HeaderMap.get, hprint.headerText, hstrip, h.trimmed.trimText_eq, h.nonempty]
  rw [extractToken, hbearer]
  rfl

/-! The query. -/

theorem addCorsHeaders_body (res : HttpResponse) : res.addCorsHeaders.body = res.body := rfl

theorem takeWhile_append_self {l rest : List Char} {sep : Char} (h : sep ∉ l) :
    (l ++ sep :: rest).takeWhile (· ≠ sep) = l := by
  have hall : ∀ c ∈ l, (decide (c ≠ sep)) = true := fun c hc =>
    decide_eq_true fun heq => h (heq ▸ hc)
  rw [List.takeWhile_append_of_pos hall]
  simp

theorem takeWhile_append_sep {sep : Char} (l rest : List Char) :
    (l ++ sep :: rest).takeWhile (· ≠ sep) = l.takeWhile (· ≠ sep) := by
  induction l with
  | nil => simp
  | cons c l ih =>
    by_cases hc : c = sep
    · simp [hc]
    · rw [List.cons_append, List.takeWhile_cons_of_pos (by simpa using hc),
        List.takeWhile_cons_of_pos (by simpa using hc), ih]

/-- The endpoint that a client is told. -/
theorem endpoint_legacySse (h : PairingToken t) {sse : HttpRequest}
    (hsse : extractToken sse.headers sse.query = some t) :
    (legacySse t sse).endpoint = some ("/mcp?token=" ++ t) := by
  have hbody : (legacySse t sse).body
      = .stream ("event: endpoint\ndata: " ++ ("/mcp?token=" ++ t ++ "\n\n")) ": ping\n\n" := by
    rw [legacySse, if_neg (fun hno => hno.2 hsse), addCorsHeaders_body, if_neg h.nonempty]
    congr 1
  have hline : '\n' ∉ ("/mcp?token=" ++ t).toList := by
    rw [String.toList_append, List.mem_append, not_or]
    exact ⟨by decide, fun hmem => absurd (h.printable _ hmem).1 (by decide)⟩
  rw [HttpResponse.endpoint, hbody]
  dsimp only
  rw [stripText_append, Option.map_some, String.toList_append]
  show some (String.ofList ((("/mcp?token=" ++ t).toList ++ '\n' :: ['\n']).takeWhile _)) = _
  rw [takeWhile_append_self hline, String.ofList_toList]

/-- Its query ends at the fragment. -/
theorem urlQuery_endpoint :
    urlQuery ("/mcp?token=" ++ t)
      = some ("token=" ++ String.ofList (t.toList.takeWhile (· ≠ '#'))) := by
  have hfront : ∀ c ∈ "/mcp?token=".toList, (decide (c ≠ '#')) = true := by simp
  rw [urlQuery, String.toList_append, List.takeWhile_append_of_pos hfront]
  simp [← String.toList_inj]

/-- A pair of a query that holds a token. -/
theorem queryPairToken_eq_some {p : String} (h : queryPairToken p = some t) :
    ∃ key value : String, p.toList = key.toList ++ '=' :: value.toList ∧ 5 ≤ key.toList.length ∧
      decodePercent value = t := by
  unfold queryPairToken at h
  cases hp : splitOnce '=' p with
  | none =>
    rw [hp] at h
    cases h
  | some pair =>
    obtain ⟨key, value⟩ := pair
    rw [hp] at h
    have h : (if isTokenKey key ∧ decodePercent value ≠ "" then some (decodePercent value) else none)
        = some t := h
    split at h
    · rename_i hkey
      refine ⟨key, value, splitOnce_eq_some hp, ?_, Option.some.inj h⟩
      have hkey := of_decide_eq_true hkey.1
      rcases hkey with rfl | rfl <;> decide
    · cases h

/-- A token that decodes to itself. -/
theorem plain_of_decodePercent (h : Printable t) (hdecode : decodePercent t = t) :
    '%' ∉ t.toList ∧ '+' ∉ t.toList := by
  have hlen := length_decodePercent_le t
  have hbytes : (utf8Bytes t).length = t.toList.length := by rw [h.bytes, List.length_map]
  have hmem : ∀ c ∈ t.toList, UInt8.ofNat c.toNat ∈ utf8Bytes t := fun c hc => by
    rw [h.bytes]
    exact List.mem_map_of_mem hc
  have hpercent : 37 ∉ utf8Bytes t := fun h37 => by
    have hlt := length_decodeBytes_lt h37
    rw [hdecode] at hlen
    omega
  refine ⟨fun hc => hpercent (hmem '%' hc), ?_⟩
  -- what is decoded has a space for each `+`
  have hchar : ∀ c ∈ t.toList, (if UInt8.ofNat c.toNat = 43 then 32 else UInt8.ofNat c.toNat)
      = UInt8.ofNat (if c = '+' then ' ' else c).toNat := by
    intro c hc
    obtain ⟨-, hhi⟩ := h c hc
    by_cases hplus : c = '+'
    · subst hplus
      rfl
    · rw [if_neg hplus, if_neg]
      intro heq
      have hnat := congrArg UInt8.toNat heq
      rw [toNat_ofNat (by omega)] at hnat
      exact hplus (Char.toNat_inj.mp hnat)
  have hspaced : Printable (String.ofList (plusToSpace t.toList)) := by
    intro c hc
    rw [String.toList_ofList] at hc
    obtain ⟨d, hd, rfl⟩ := List.mem_map.mp hc
    split
    · decide
    · exact h d hd
  have hbytes : decodeBytes (utf8Bytes t) = utf8Bytes (String.ofList (plusToSpace t.toList)) := by
    rw [decodeBytes_plain hpercent, h.bytes, hspaced.bytes, String.toList_ofList, plusToSpace,
      List.map_map, List.map_map]
    exact List.map_congr_left hchar
  rw [decodePercent, hbytes, fromUtf8Lossy_utf8Bytes, ← String.toList_inj, String.toList_ofList]
    at hdecode
  exact plusToSpace_eq_self_iff.mp hdecode

/-- The parameter that yields the token is the whole query, and its value the token. -/
theorem whole_of_findToken (h : PairingToken t)
    (hfind : (splitAtChar '&' ("token=" ++ String.ofList (t.toList.takeWhile (· ≠ '#')))).findSome?
      queryPairToken = some t) :
    t.toList.takeWhile (· ≠ '#') = t.toList ∧ '&' ∉ t.toList ∧ decodePercent t = t := by
  obtain ⟨p, hp, htoken⟩ := List.exists_of_findSome?_eq_some hfind
  obtain ⟨key, value, hpair, hkey, hdecode⟩ := queryPairToken_eq_some htoken
  obtain ⟨piece, hpiece, rfl⟩ := List.mem_map.mp hp
  have hcut : t.toList.takeWhile (· ≠ '#') <+: t.toList := List.takeWhile_prefix _
  have hquery : ("token=" ++ String.ofList (t.toList.takeWhile (· ≠ '#'))).toList
      = "token=".toList ++ t.toList.takeWhile (· ≠ '#') := by simp
  rw [hquery] at hpiece
  rw [String.toList_ofList] at hpair
  have hvalue : Printable value := by
    intro c hc
    have hmem : c ∈ "token=".toList ++ t.toList.takeWhile (· ≠ '#') :=
      (piece_sublist hpiece).subset (by rw [hpair]; simp [hc])
    rcases List.mem_append.mp hmem with hmem | hmem
    · exact (by simp [Printable] : Printable "token=") c hmem
    · exact h.printable c (hcut.subset hmem)
  have hvalueLen := (length_decodePercent_le value).trans (length_decodeBytes_le _)
  rw [hdecode, hvalue.bytes, List.length_map] at hvalueLen
  have hlen := length_piece hpiece
  have hcutLen := hcut.length_le
  have hsix : "token=".toList.length = 6 := rfl
  rw [hpair, List.length_append, List.length_append, List.length_cons, hsix] at hlen
  have hwhole : t.toList.takeWhile (· ≠ '#') = t.toList := hcut.eq_of_length_le (by omega)
  have hcount : ("token=".toList ++ t.toList).count '&' = 0 := by
    rw [hwhole] at hlen
    omega
  rw [hwhole] at hpiece
  have hand : '&' ∉ "token=".toList ++ t.toList := List.count_eq_zero.mp hcount
  rw [List.splitOn_eq_singleton hand, List.mem_singleton] at hpiece
  rw [hpiece] at hpair
  have hvalueEq : value.toList = t.toList := by
    have hlen := congrArg List.length hpair
    rw [List.length_append, List.length_append, List.length_cons, hsix] at hlen
    have hsame : "token".toList ++ '=' :: t.toList = key.toList ++ '=' :: value.toList := hpair
    have htail := (List.append_inj hsame (show 5 = _ by omega)).2
    exact (List.cons.inj htail).2.symm
  rw [String.toList_inj.mp hvalueEq] at hdecode
  rw [List.mem_append, not_or] at hand
  exact ⟨hwhole, hand.2, hdecode⟩

/-- **A token that the query yields has none of the four characters.** -/
theorem plain_of_findToken (h : PairingToken t)
    (hfind : (splitAtChar '&' ("token=" ++ String.ofList (t.toList.takeWhile (· ≠ '#')))).findSome?
      queryPairToken = some t) :
    ∀ c ∈ t.toList, c ≠ '%' ∧ c ≠ '+' ∧ c ≠ '&' ∧ c ≠ '#' := by
  obtain ⟨hwhole, hand, hdecode⟩ := whole_of_findToken h hfind
  obtain ⟨hpercent, hplus⟩ := plain_of_decodePercent h.printable hdecode
  have hhash : '#' ∉ t.toList := fun hmem => by
    have hall := List.takeWhile_eq_self_iff.mp hwhole '#' hmem
    simp at hall
  intro c hc
  refine ⟨?_, ?_, ?_, ?_⟩
  · intro heq
    subst heq
    exact hpercent hc
  · intro heq
    subst heq
    exact hplus hc
  · intro heq
    subst heq
    exact hand hc
  · intro heq
    subst heq
    exact hhash hc

/-! What is accepted. -/

theorem accepted_of_extractToken {req : HttpRequest} (hmethod : req.method ≠ .options)
    (h : extractToken req.headers req.query = some t) : Accepted t req := by
  refine ⟨h, ?_⟩
  rw [authMiddleware, if_neg hmethod, if_pos h]
  split
  · rfl
  · rfl

theorem HeaderMap.get_single (name : String) (value : List UInt8) :
    HeaderMap.get [(name, value)] name = some value := by simp [HeaderMap.get]

theorem HeaderMap.get_other {name other : String} (value : List UInt8) (h : name ≠ other) :
    HeaderMap.get [(other, value)] name = none := by simp [HeaderMap.get, h.symm]

/-- Without a header the query is all there is. -/
theorem extractToken_query {headers : HeaderMap} (query : String)
    (hauth : headers.get "authorization" = none) (hcookie : headers.get "cookie" = none) :
    extractToken headers (some query) = (splitAtChar '&' query).findSome? queryPairToken := by
  have hbearer : bearerToken headers = none := by simp [bearerToken, hauth]
  rw [extractToken, hbearer, hcookie]
  simp

/-- Without the other header and a query the cookie is all there is. -/
theorem extractToken_cookie {headers : HeaderMap} {cookie : String}
    (hauth : headers.get "authorization" = none)
    (hcookie : headers.get "cookie" = some (utf8Bytes cookie)) (hprint : Printable cookie) :
    extractToken headers none = (splitAtChar ';' cookie).findSome? cookiePartToken := by
  have hbearer : bearerToken headers = none := by simp [bearerToken, hauth]
  rw [extractToken, hbearer, hcookie]
  simp [hprint.headerText]

/-- **The query of the endpoint is accepted exactly when the token has none of `%`, `+`, `&` and
    `#`.** -/
theorem queryAccepted_iff (h : PairingToken t) :
    QueryAccepted t ↔ ∀ c ∈ t.toList, c ≠ '%' ∧ c ≠ '+' ∧ c ≠ '&' ∧ c ≠ '#' := by
  constructor
  · intro hacc
    have hsse := extractToken_bearer h
    have htoken := (hacc ⟨.get, "/sse", none, _, []⟩ ⟨.post, "/mcp", some _, [], []⟩ _ _ _ hsse
      (endpoint_legacySse h hsse) urlQuery_endpoint (.refl _) Method.noConfusion rfl rfl rfl).1
    rw [extractToken_query _ rfl rfl] at htoken
    exact plain_of_findToken h htoken
  · intro hplain sse req url query sent hsse hurl hquery hsent hmethod hreq hauth hcookie
    refine accepted_of_extractToken hmethod ?_
    rw [endpoint_legacySse h hsse] at hurl
    obtain rfl := Option.some.inj hurl
    have hwhole : t.toList.takeWhile (· ≠ '#') = t.toList :=
      List.takeWhile_eq_self_iff.mpr fun c hc => decide_eq_true (hplain c hc).2.2.2
    rw [urlQuery_endpoint, hwhole, String.ofList_toList] at hquery
    obtain rfl := Option.some.inj hquery
    rw [String.toList_append] at hsent
    obtain ⟨e, hsentEq, he⟩ := hsent.plain_front (by simp [urlEscaped])
    have hencoded : FormEncodes (utf8Bytes t) (utf8Bytes (String.ofList e)) := by
      rw [utf8Bytes, utf8Bytes, String.toList_ofList]
      exact he.encodes hplain
    have hshape : sent = "&".intercalate ([] ++ ("token" ++ "=" ++ String.ofList e) :: []) := by
      rw [← String.toList_inj, hsentEq]
      simp
    rw [hreq, extractToken_query _ hauth hcookie, hshape]
    exact findToken_encoded h.nonempty hencoded (.inl rfl) (by simp) (by simp)

/-! The cookie. -/

/-- The token as far as a cookie's value goes. -/
def cookieValue (t : String) : String := trimText (String.ofList (t.toList.takeWhile (· ≠ ';')))

theorem cookieValue_eq_self_iff (h : PairingToken t) : cookieValue t = t ↔ ';' ∉ t.toList := by
  constructor
  · intro heq
    have hlen := (trimText_sublist (String.ofList (t.toList.takeWhile (· ≠ ';')))).length_le
    rw [← cookieValue, heq, String.toList_ofList] at hlen
    have hwhole := (List.takeWhile_prefix _).eq_of_length_le hlen
    intro hmem
    have hall := List.takeWhile_eq_self_iff.mp hwhole ';' hmem
    simp at hall
  · intro hsemi
    have hwhole : t.toList.takeWhile (· ≠ ';') = t.toList :=
      List.takeWhile_eq_self_iff.mpr fun c hc => decide_eq_true fun heq => hsemi (heq ▸ hc)
    rw [cookieValue, hwhole, String.ofList_toList, h.trimmed.trimText_eq]

theorem cookieValue_subset : (cookieValue t).toList ⊆ t.toList := by
  have hsub := trimText_sublist (String.ofList (t.toList.takeWhile (· ≠ ';')))
  rw [String.toList_ofList] at hsub
  exact (hsub.trans (List.takeWhile_prefix _).sublist).subset

/-- The cookie that whoever has logged in is handed. -/
theorem setCookie_authorizeSubmit (h : PairingToken t) {form : AuthorizeForm} {now : Nat}
    {code : String} {codes : AuthCodes} (hform : form.token = t)
    (huri : form.redirectUri.getD "" = "") :
    (authorizeSubmit t now code codes form).1.header "set-cookie"
      = some ("access_token=" ++ t ++ "; Path=/; HttpOnly; SameSite=Lax; Max-Age=86400") := by
  have hcheck : checkForm t form = .error (loginCookie form) := by
    rw [checkForm, if_neg fun hno => hno.2 hform]
    cases hredirect : form.redirectUri with
    | none => rfl
    | some uri =>
      rw [hredirect, Option.getD_some] at huri
      simp [huri]
  have hname : Printable "access_token=" := by
    simp [Printable]
  have hattributes : Printable "; Path=/; HttpOnly; SameSite=Lax; Max-Age=86400" := by
    simp [Printable]
  have hvalue := ((hname.append h.printable).append hattributes).headerValue
  rw [authorizeSubmit, hcheck]
  simp [loginCookie, HttpResponse.header, HttpResponse.insertHeader, htmlResponse, hform, hvalue]

/-- What is sent back of it. -/
theorem cookiePair_setCookie :
    cookiePair ("access_token=" ++ t ++ "; Path=/; HttpOnly; SameSite=Lax; Max-Age=86400")
      = "access_token" ++ "=" ++ cookieValue t := by
  have hpair :
      ("access_token=" ++ t ++ "; Path=/; HttpOnly; SameSite=Lax; Max-Age=86400").toList.takeWhile
        (· ≠ ';') = "access_token".toList ++ '=' :: t.toList.takeWhile (· ≠ ';') := by
    have hfront : ∀ c ∈ "access_token=".toList, (decide (c ≠ ';')) = true := by simp
    rw [String.toList_append, String.toList_append, List.append_assoc,
      List.takeWhile_append_of_pos hfront]
    exact congrArg _ (takeWhile_append_sep t.toList _)
  have hnoEq : '=' ∉ "access_token".toList := by decide
  have hkey : trimText (String.ofList "access_token".toList) = "access_token" := by
    rw [String.ofList_toList]
    exact Trimmed.trimText_eq ⟨by simp [isWhiteSpace], by simp [isWhiteSpace]⟩
  have hrest : (("access_token".toList ++ '=' :: t.toList.takeWhile (· ≠ ';')).dropWhile
      (· ≠ '=')).drop 1 = t.toList.takeWhile (· ≠ ';') := by
    have hall : ∀ c ∈ "access_token".toList, (decide (c ≠ '=')) = true := by simp
    rw [List.dropWhile_append_of_pos hall]
    simp
  rw [cookiePair, hpair, takeWhile_append_self hnoEq, hkey, hrest, cookieValue]

theorem extractToken_cookieValue (h : PairingToken t) {headers : HeaderMap}
    (hauth : headers.get "authorization" = none)
    (hcookie : headers.get "cookie"
      = some (utf8Bytes ("access_token" ++ "=" ++ cookieValue t))) :
    extractToken headers none = some t ↔ ';' ∉ t.toList := by
  have hname : Printable ("access_token" ++ "=") := by
    simp [Printable]
  have htrimmedName : Trimmed ("access_token" ++ "=") :=
    ⟨by simp [isWhiteSpace], by simp [isWhiteSpace]⟩
  have hvalue : Trimmed (cookieValue t) := trimmed_trimText _
  have hcut : ';' ∉ (cookieValue t).toList := by
    intro hmem
    have hin := (trimText_sublist _).subset hmem
    rw [String.toList_ofList] at hin
    have hnot := List.mem_takeWhile_imp hin
    simp at hnot
  have hsemi : ';' ∉ ("access_token" ++ "=" ++ cookieValue t).toList := by
    rw [String.toList_append, List.mem_append, not_or]
    exact ⟨by decide, hcut⟩
  have hsplit : splitAtChar ';' ("access_token" ++ "=" ++ cookieValue t)
      = ["access_token" ++ "=" ++ cookieValue t] := by
    rw [splitAtChar, List.splitOn_eq_singleton hsemi, List.map_singleton, String.ofList_toList]
  have hpart : cookiePartToken ("access_token" ++ "=" ++ cookieValue t)
      = if cookieValue t ≠ "" then some (cookieValue t) else none := by
    have honce : splitOnce '=' ("access_token" ++ "=" ++ cookieValue t)
        = some ("access_token", cookieValue t) := splitOnce_append _ _ (by decide)
    have hkey : isTokenKey "access_token" = true := rfl
    rw [cookiePartToken, (htrimmedName.named hvalue).trimText_eq, honce]
    simp [hvalue.trimText_eq, hkey]
  rw [extractToken_cookie hauth hcookie (hname.append (h.printable.of_subset cookieValue_subset)),
    hsplit, List.findSome?_singleton, hpart, ← cookieValue_eq_self_iff h]
  constructor
  · intro hsome
    split at hsome
    · exact Option.some.inj hsome
    · cases hsome
  · intro heq
    rw [heq, if_pos h.nonempty]

/-- **The cookie of the login is accepted exactly when the token has no `;`.** -/
theorem cookieAccepted_iff (h : PairingToken t) : CookieAccepted t ↔ ';' ∉ t.toList := by
  constructor
  · intro hacc
    obtain ⟨cookie, hset, hpair⟩ : ∃ cookie,
        (authorizeSubmit t 0 "" ∅ ⟨t, none, none, none, none⟩).1.header "set-cookie" = some cookie ∧
          cookiePair cookie = "access_token" ++ "=" ++ cookieValue t :=
      ⟨_, setCookie_authorizeSubmit h rfl rfl, cookiePair_setCookie⟩
    have hauth := HeaderMap.get_other (utf8Bytes (cookiePair cookie))
      (show "authorization" ≠ "cookie" by decide)
    have hcookie := HeaderMap.get_single "cookie" (utf8Bytes (cookiePair cookie))
    have htoken := (hacc ⟨t, none, none, none, none⟩ 0 "" ∅ cookie ⟨.post, "/mcp", none, _, []⟩ rfl
      rfl hset Method.noConfusion rfl hauth hcookie).1
    rw [hpair] at hauth hcookie htoken
    exact (extractToken_cookieValue h hauth hcookie).mp htoken
  · intro hsemi form now code codes cookie req hform huri hset hmethod hquery hauth hcookie
    rw [setCookie_authorizeSubmit h hform huri] at hset
    obtain rfl := Option.some.inj hset
    rw [cookiePair_setCookie] at hcookie
    refine accepted_of_extractToken hmethod ?_
    rw [hquery]
    exact (extractToken_cookieValue h hauth hcookie).mpr hsemi

/-- **A request with only what the server handed out is accepted**, by either way, exactly when the
    token has none of `%`, `+`, `&`, `#` and `;`. -/
theorem handed_out_accepted_iff (h : PairingToken t) :
    QueryAccepted t ∧ CookieAccepted t ↔
      ∀ c ∈ t.toList, c ≠ '%' ∧ c ≠ '+' ∧ c ≠ '&' ∧ c ≠ '#' ∧ c ≠ ';' := by
  rw [queryAccepted_iff h, cookieAccepted_iff h]
  constructor
  · intro h' c hc
    obtain ⟨hplain, hsemi⟩ := h'
    obtain ⟨hpercent, hplus, hand, hhash⟩ := hplain c hc
    exact ⟨hpercent, hplus, hand, hhash, fun heq => hsemi (heq ▸ hc)⟩
  · intro hplain
    refine ⟨fun c hc => ?_, fun hmem => (hplain ';' hmem).2.2.2.2 rfl⟩
    obtain ⟨hpercent, hplus, hand, hhash, -⟩ := hplain c hc
    exact ⟨hpercent, hplus, hand, hhash⟩

end HandedOut

theorem handed_out_accepted_plain : QueryAccepted "key 7-=\"b" ∧ CookieAccepted "key 7-=\"b" := by
  have hprintable : Printable "key 7-=\"b" := by
    simp [Printable]
  have htoken : PairingToken "key 7-=\"b" := ⟨by decide, hprintable, by decide, by decide⟩
  exact (handed_out_accepted_iff htoken).mpr (by simp)

/-- With a `+` the endpoint says `token=a+b`, which is read as another token, and with a `;` the
    cookie ends in the token. -/
theorem handed_out_refused :
    ¬ (∀ t, PairingToken t → QueryAccepted t ∧ CookieAccepted t) ∧
      urlQuery "/mcp?token=a+b" = some "token=a+b" ∧
      extractToken [] (some "token=a+b") = some "a b" ∧ cookieValue "a;b" = "a" := by
  refine ⟨fun hall => ?_, (urlQuery_ofList _).trans rfl, ?_, ?_⟩
  · have hprintable : Printable "a+b" := by
      simp [Printable]
    have htoken : PairingToken "a+b" := ⟨by decide, hprintable, by decide, by decide⟩
    exact ((queryAccepted_iff htoken).mp (hall "a+b" htoken).1 '+' (by decide)).2.1 rfl
  · have hparts : splitAtChar '&' "token=a+b" = ["token=a+b"] := (splitAtChar_ofList _ _).trans rfl
    have hpair : splitOnce '=' "token=a+b" = some ("token", "a+b") :=
      splitOnce_append "token" "a+b" (by simp)
    have hvalue : decodePercent "a+b" = "a b" := (decodePercent_ofList _).trans rfl
    have hfound : queryPairToken "token=a+b" = some "a b" := by
      rw [queryPairToken, hpair]
      change (if isTokenKey "token" ∧ decodePercent "a+b" ≠ "" then some (decodePercent "a+b")
        else none) = some "a b"
      rw [hvalue]
      rfl
    rw [extractToken, Option.bind_some, hparts, List.findSome?_cons, hfound]
    rfl
  · have hcut : "a;b".toList.takeWhile (· ≠ ';') = "a".toList := by simp
    rw [cookieValue, hcut, String.ofList_toList]
    exact Trimmed.trimText_eq ⟨by simp [isWhiteSpace], by simp [isWhiteSpace]⟩

/-! ## 5. The form that asks for the token -/

/-- The pairs of a form have a value under a key, and no other one. -/
def Says (params : List String) (key value : String) : Prop :=
  (∃ p ∈ params, ∃ v, splitOnce '=' p = some (key, v)) ∧
    ∀ p ∈ params, ∀ v, splitOnce '=' p = some (key, v) → decodePercent v = value

/-- **A form that asks for a code**: it may have other pairs, in any order. -/
structure TokenBody (params : List String) (code : String) : Prop where
  whole : ∀ p ∈ params, '&' ∉ p.toList
  grant : Says params "grant_type" "authorization_code"
  code : Says params "code" code

theorem TokenRequest.setField_grantType (tr : TokenRequest) (key value : String) :
    (tr.setField key value).grantType
      = if key = "grant_type" then some value else tr.grantType := by
  unfold TokenRequest.setField
  split <;> simp_all

theorem TokenRequest.setField_code (tr : TokenRequest) (key value : String) :
    (tr.setField key value).code = if key = "code" then some value else tr.code := by
  unfold TokenRequest.setField
  split <;> simp_all

/-- One pair of a form-encoded token request. -/
def TokenRequest.addPair (tr : TokenRequest) (pair : String) : TokenRequest :=
  match splitOnce '=' pair with
  | some (key, value) => tr.setField key (decodePercent value)
  | none => tr

/-- A field of the request is what its pairs say, and stays as it was without a pair. -/
theorem field_of_pairs {get : TokenRequest → Option String} {key value : String}
    (hget : ∀ tr k v, get (TokenRequest.setField tr k v) = if k = key then some v else get tr)
    (params : List String)
    (hall : ∀ p ∈ params, ∀ v, splitOnce '=' p = some (key, v) → decodePercent v = value)
    (tr : TokenRequest)
    (h : (∃ p ∈ params, ∃ v, splitOnce '=' p = some (key, v)) ∨ get tr = some value) :
    get (params.foldl TokenRequest.addPair tr) = some value := by
  induction params generalizing tr with
  | nil => simpa using h
  | cons p params ih =>
    rw [List.forall_mem_cons] at hall
    refine ih hall.2 _ ?_
    cases hp : splitOnce '=' p with
    | none =>
      simp only [TokenRequest.addPair, hp]
      obtain ⟨q, hq, v, hv⟩ | htr := h
      · obtain rfl | hq := List.mem_cons.mp hq
        · cases hp.symm.trans hv
        · exact .inl ⟨q, hq, v, hv⟩
      · exact .inr htr
    | some pair =>
      obtain ⟨k, v⟩ := pair
      simp only [TokenRequest.addPair, hp, hget]
      by_cases hk : k = key
      · subst hk
        exact .inr (by simp [hall.1 v hp])
      · obtain ⟨q, hq, w, hw⟩ | htr := h
        · obtain rfl | hq := List.mem_cons.mp hq
          · cases hp.symm.trans hw
            exact absurd rfl hk
          · exact .inl ⟨q, hq, w, hw⟩
        · exact .inr (by simpa [hk] using htr)

theorem Says.mem {params : List String} {key value : String} (h : Says params key value) :
    params ≠ [] := by
  obtain ⟨⟨p, hp, _⟩, _⟩ := h
  exact List.ne_nil_of_mem hp

/-- **Such a form asks for its code.** -/
theorem TokenBody.asksCode {params : List String} {code : String} (h : TokenBody params code) :
    (formRequest (utf8Bytes ("&".intercalate params))).asksCode = some code := by
  have hfold : formRequest (utf8Bytes ("&".intercalate params))
      = params.foldl TokenRequest.addPair ⟨none, none, none, none, none, none⟩ := by
    rw [formRequest, fromUtf8_utf8Bytes, Option.getD_some, splitAtChar_intercalate h.grant.mem h.whole]
    rfl
  have hgrant := field_of_pairs TokenRequest.setField_grantType params h.grant.2
    ⟨none, none, none, none, none, none⟩ (.inl h.grant.1)
  have hcode := field_of_pairs TokenRequest.setField_code params h.code.2
    ⟨none, none, none, none, none, none⟩ (.inl h.code.1)
  rw [hfold, TokenRequest.asksCode, TokenRequest.grant, hgrant, hcode]
  rfl

/-- The form as clients write it: a code that needs no escapes, and behind it pairs with other
    names. -/
theorem tokenBody_plain {code : String} (rest : List String)
    (hcode : ∀ c ∈ code.toList, c ≠ '%' ∧ c ≠ '+' ∧ c ≠ '&' ∧ c ≠ '#')
    (hrest : ∀ p ∈ rest, '&' ∉ p.toList ∧
      ∀ key v, splitOnce '=' p = some (key, v) → key ≠ "grant_type" ∧ key ≠ "code") :
    TokenBody ("grant_type=authorization_code" :: ("code=" ++ code) :: rest) code := by
  have hgrant : splitOnce '=' "grant_type=authorization_code"
      = some ("grant_type", "authorization_code") :=
    splitOnce_append "grant_type" "authorization_code" (by simp)
  have hpair : splitOnce '=' ("code=" ++ code) = some ("code", code) :=
    splitOnce_append "code" code (by simp)
  refine ⟨?_, ⟨⟨_, List.mem_cons_self, _, hgrant⟩, ?_⟩,
    ⟨⟨_, List.mem_cons_of_mem _ List.mem_cons_self, _, hpair⟩, ?_⟩⟩
  · rw [List.forall_mem_cons, List.forall_mem_cons]
    refine ⟨by simp, ?_, fun p hp => (hrest p hp).1⟩
    have hand : '&' ∉ code.toList := fun hmem => (hcode _ hmem).2.2.1 rfl
    simpa using hand
  · intro p hp v hv
    obtain rfl | hp := List.mem_cons.mp hp
    · rw [hgrant] at hv
      cases hv
      exact decodePercent_plain (by simp)
    obtain rfl | hp := List.mem_cons.mp hp
    · rw [hpair] at hv
      simp at hv
    · exact absurd rfl ((hrest p hp).2 _ v hv).1
  · intro p hp v hv
    obtain rfl | hp := List.mem_cons.mp hp
    · rw [hgrant] at hv
      simp at hv
    obtain rfl | hp := List.mem_cons.mp hp
    · rw [hpair] at hv
      cases hv
      exact decodePercent_plain hcode
    · exact absurd rfl ((hrest p hp).2 _ v hv).2

end Relayfs
