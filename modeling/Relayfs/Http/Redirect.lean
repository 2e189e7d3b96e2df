/-
  File:      Relayfs/Http/Redirect.lean
  Subject:   WHERE A CLIENT IS SENT WITH ITS CODE (bridge/src/http.rs, `authorize_submit`).

  The location is put together from the `redirect_uri` and the state as they stand; a client reads
  its query as a form.

  * `locationPairs` -- what a client reads of a location;
  * `locationPairs_codeLocation` -- what it reads of the location of `authorize_submit`;
  * `redirect_pairs_iff` -- for which states it reads its own pairs, the code and the state.
-/
import Relayfs.Http.Server
import Relayfs.Lib.FormUrl

namespace Relayfs

open Lib

/-- What a client reads of a location. -/
def locationPairs (location : String) : List (String × String) :=
  formParse ((urlQuery location).getD "")

/-! ## 1. The code -/

/-- What a form and a URL read as something else than itself. -/
def Reserved (c : Char) : Prop := c = '&' ∨ c = '#' ∨ c = '+' ∨ c = '%'

theorem digitChar_not_reserved {d : Nat} (h : d < 16) : ¬ Reserved d.digitChar := by
  have hall : ∀ d < 16, d.digitChar ≠ '&' ∧ d.digitChar ≠ '#' ∧ d.digitChar ≠ '+' ∧
      d.digitChar ≠ '%' := by decide
  obtain ⟨hand, hhash, hplus, hpercent⟩ := hall d h
  intro h'
  obtain heq | heq | heq | heq := h'
  · exact hand heq
  · exact hhash heq
  · exact hplus heq
  · exact hpercent heq

theorem toDigits_not_reserved (n : Nat) : ∀ c ∈ Nat.toDigits 16 n, ¬ Reserved c := by
  induction n using Nat.strongRecOn with
  | ind n ih =>
    intro c hc
    rw [Nat.toDigits_eq_if (by decide)] at hc
    split at hc
    · rename_i hlt
      rw [List.mem_singleton.mp hc]
      exact digitChar_not_reserved hlt
    · rcases List.mem_append.mp hc with hc | hc
      · exact ih (n / 16) (by omega) c hc
      · rw [List.mem_singleton.mp hc]
        exact digitChar_not_reserved (Nat.mod_lt _ (by decide))

theorem eq_of_mem_pushn {c d : Char} {n : Nat} (h : c ∈ ("".pushn d n).toList) : c = d := by
  rw [String.pushn_eq_repeat_push] at h
  induction n with
  | zero => simp [Nat.repeat] at h
  | succ n ih =>
    rw [Nat.repeat, String.toList_push, List.mem_append] at h
    exact h.elim ih List.mem_singleton.mp

/-- A code is digits only. -/
theorem authCode_not_reserved (rnd : UInt64 × UInt64) :
    ∀ c ∈ (authCode rnd).toList, ¬ Reserved c := by
  have hzero : ¬ Reserved '0' := digitChar_not_reserved (d := 0) (by decide)
  have hhex : ∀ n, ∀ c ∈ (hex16 n).toList, ¬ Reserved c := by
    intro n c hc
    rw [hex16, String.toList_append, List.mem_append] at hc
    rcases hc with hc | hc
    · exact eq_of_mem_pushn hc ▸ hzero
    · rw [String.toList_ofList] at hc
      exact toDigits_not_reserved n c hc
  intro c hc
  rw [authCode, String.toList_append, List.mem_append] at hc
  exact hc.elim (hhex _ c) (hhex _ c)

/-! ## 2. The location -/

section Location

variable {uri code state : String}

/-- The query of a location: its own, if it has one, goes on in what is written behind. -/
theorem urlQuery_append (hfrag : '#' ∉ uri.toList) (rest : String) :
    urlQuery (uri ++ rest)
      = if '?' ∈ uri.toList then
          (urlQuery uri).map (· ++ String.ofList (rest.toList.takeWhile (· ≠ '#')))
        else urlQuery rest := by
  have hall : ∀ c ∈ uri.toList, (decide (c ≠ '#')) = true := fun c hc =>
    decide_eq_true fun heq => hfrag (heq ▸ hc)
  have hself : uri.toList.takeWhile (· ≠ '#') = uri.toList := List.takeWhile_eq_self_iff.mpr hall
  rw [urlQuery, urlQuery, String.toList_append, List.takeWhile_append_of_pos hall, hself]
  by_cases hmark : '?' ∈ uri.toList
  · rw [if_pos hmark, List.dropWhile_append]
    cases hdrop : uri.toList.dropWhile (· ≠ '?') with
    | nil =>
      have hnone := List.dropWhile_eq_nil_iff.mp hdrop '?' hmark
      simp at hnone
    | cons c query => simp
  · have hno : ∀ c ∈ uri.toList, (decide (c ≠ '?')) = true := fun c hc =>
      decide_eq_true fun heq => hmark (heq ▸ hc)
    rw [if_neg hmark, List.dropWhile_append_of_pos hno, urlQuery]

theorem urlQuery_of_mark (hfrag : '#' ∉ uri.toList) (hmark : '?' ∈ uri.toList) :
    ∃ query, urlQuery uri = some query := by
  have hself : uri.toList.takeWhile (· ≠ '#') = uri.toList :=
    List.takeWhile_eq_self_iff.mpr fun c hc => decide_eq_true fun heq => hfrag (heq ▸ hc)
  rw [urlQuery, hself]
  cases hdrop : uri.toList.dropWhile (· ≠ '?') with
  | nil =>
    have hnone := List.dropWhile_eq_nil_iff.mp hdrop '?' hmark
    simp at hnone
  | cons c query => exact ⟨String.ofList query, rfl⟩

theorem urlQuery_of_no_mark (hmark : '?' ∉ uri.toList) : urlQuery uri = none := by
  have hdrop : (uri.toList.takeWhile (· ≠ '#')).dropWhile (· ≠ '?') = [] :=
    List.dropWhile_eq_nil_iff.mpr fun c hc => decide_eq_true fun heq =>
      hmark (heq ▸ (List.takeWhile_prefix _).subset hc)
  rw [urlQuery, hdrop]

/-- What `authorize_submit` writes behind the mark, up to a fragment. -/
def codePart (code state : String) : List Char :=
  ("code".toList ++ '=' :: code.toList) ++ '&' ::
    ("state".toList ++ '=' :: state.toList.takeWhile (· ≠ '#'))

theorem not_reserved_iff {c : Char} : ¬ Reserved c ↔ c ≠ '&' ∧ c ≠ '#' ∧ c ≠ '+' ∧ c ≠ '%' := by
  simp only [Reserved, not_or, ne_eq]

/-- The code of the pairs of the location. -/
theorem formParse_code (hcode : ∀ c ∈ code.toList, ¬ Reserved c) :
    formParse (String.ofList ("code".toList ++ '=' :: code.toList)) = [("code", code)] := by
  have hname : formDecode "code".toList = "code" := formDecode_toList (by simp) (by simp)
  have hmem : ∀ c, Reserved c → c ∉ code.toList := fun c hc h => hcode c h hc
  have hand : '&' ∉ "code".toList := by decide
  have heq : '=' ∉ "code".toList := by decide
  have hone := (formParse_one_iff hand heq (List.prefix_refl code.toList)).mpr
    ⟨rfl, hmem '&' (.inl rfl), hmem '+' (.inr (.inr (.inl rfl))), fun hescape =>
      hmem '%' (.inr (.inr (.inr rfl))) hescape.percent_mem⟩
  rwa [hname, String.ofList_toList] at hone

theorem locationPairs_codeLocation (hfrag : '#' ∉ uri.toList)
    (hcode : ∀ c ∈ code.toList, ¬ Reserved c) :
    locationPairs (codeLocation uri code (some state))
      = locationPairs uri ++ ("code", code) ::
          formParse (String.ofList ("state".toList ++ '=' :: state.toList.takeWhile (· ≠ '#'))) := by
  have hkey : ∀ c ∈ "code=".toList, c ≠ '#' := by simp
  have hstate : ∀ c ∈ "&state=".toList, c ≠ '#' := by simp
  have hbehind : ∀ mark : Char, mark ≠ '#' →
      (String.singleton mark ++ "code=" ++ code ++ ("&state=" ++ state)).toList.takeWhile (· ≠ '#')
        = mark :: codePart code state := by
    intro mark hmark
    have hplain : ∀ c ∈ mark :: ("code=".toList ++ (code.toList ++ "&state=".toList)),
        (decide (c ≠ '#')) = true := by
      intro c hc
      refine decide_eq_true ?_
      rcases List.mem_cons.mp hc with rfl | hc
      · exact hmark
      rcases List.mem_append.mp hc with hc | hc
      · exact hkey c hc
      rcases List.mem_append.mp hc with hc | hc
      · exact (not_reserved_iff.mp (hcode c hc)).2.1
      · exact hstate c hc
    have hlist : (String.singleton mark ++ "code=" ++ code ++ ("&state=" ++ state)).toList
        = (mark :: ("code=".toList ++ (code.toList ++ "&state=".toList))) ++ state.toList := by
      simp
    rw [hlist, List.takeWhile_append_of_pos hplain]
    simp [codePart]
  have hpairs : formParse (String.ofList (codePart code state)) = ("code", code) ::
      formParse (String.ofList ("state".toList ++ '=' :: state.toList.takeWhile (· ≠ '#'))) := by
    rw [codePart, formParse_append, formParse_code hcode, List.singleton_append]
  have hlocation : codeLocation uri code (some state)
      = uri ++ (String.singleton (if '?' ∈ uri.toList then '&' else '?') ++ "code=" ++ code
          ++ ("&state=" ++ state)) := by
    rw [codeLocation, ← String.toList_inj]
    split <;> simp
  rw [locationPairs, locationPairs, hlocation, urlQuery_append hfrag, ← hpairs]
  by_cases hmark : '?' ∈ uri.toList
  · rw [if_pos hmark, if_pos hmark, hbehind '&' (by decide)]
    obtain ⟨query, hquery⟩ := urlQuery_of_mark hfrag hmark
    rw [hquery, Option.map_some, Option.getD_some, Option.getD_some]
    have hjoin : query ++ String.ofList ('&' :: codePart code state)
        = String.ofList (query.toList ++ '&' :: codePart code state) := by
      simp
    rw [hjoin, formParse_append, String.ofList_toList]
  · rw [if_neg hmark, if_neg hmark, urlQuery, hbehind '?' (by decide)]
    have hnone : urlQuery uri = none := urlQuery_of_no_mark hmark
    rw [hnone]
    simp [formParse]

/-- A state that is read back from the location: it has no `&`, `#`, `+` and no escape. -/
structure PlainState (state : String) : Prop where
  no_and : '&' ∉ state.toList
  no_hash : '#' ∉ state.toList
  no_plus : '+' ∉ state.toList
  no_escape : ¬ HasEscape state.toList

/-- **The pairs of the location are the client's own, the code and the state exactly when the state
    is plain.** -/
theorem codeLocation_pairs_iff (hfrag : '#' ∉ uri.toList)
    (hcode : ∀ c ∈ code.toList, ¬ Reserved c) :
    (locationPairs (codeLocation uri code (some state))).Perm
        (locationPairs uri ++ [("code", code), ("state", state)]) ↔ PlainState state := by
  have hname : formDecode "state".toList = "state" := formDecode_toList (by simp) (by simp)
  have hone := @formParse_one_iff "state".toList state.toList _ (by decide) (by decide)
    (List.takeWhile_prefix (l := state.toList) (· ≠ '#'))
  rw [hname, String.ofList_toList] at hone
  rw [locationPairs_codeLocation hfrag hcode, List.perm_append_left_iff, List.perm_cons,
    List.perm_singleton, hone]
  constructor
  · intro h'
    obtain ⟨hwhole, hand, hplus, hescape⟩ := h'
    refine ⟨hand, fun hmem => ?_, hplus, hescape⟩
    have hall := List.takeWhile_eq_self_iff.mp hwhole '#' hmem
    simp at hall
  · intro h
    refine ⟨List.takeWhile_eq_self_iff.mpr fun c hc => ?_, h.no_and, h.no_plus, h.no_escape⟩
    exact decide_eq_true fun heq => h.no_hash (heq ▸ hc)

end Location

/-! ## 3. The handler -/

theorem header_redirectTo (location : String) :
    (redirectTo location).header "location" = headerValue location := by
  unfold redirectTo
  cases hvalue : headerValue location with
  | none => simp [HttpResponse.header]
  | some value => simp [HttpResponse.header]

theorem headerValue_eq_some {s value : String} (h : headerValue s = some value) : value = s := by
  unfold headerValue at h
  split at h
  · exact (Option.some.inj h).symm
  · cases h

/-- A client that knows the token gets a code. -/
theorem authorizeSubmit_code {token uri code : String} {now : Nat} {codes : AuthCodes}
    {form : AuthorizeForm} (htoken : token = "" ∨ form.token = token)
    (huri : form.redirectUri = some uri) (hne : uri ≠ "") :
    authorizeSubmit token now code codes form
      = (redirectTo (codeLocation uri code form.state), insertCode form uri code now codes) := by
  have hknows : ¬ (token ≠ "" ∧ form.token ≠ token) := fun hno => htoken.elim hno.1 hno.2
  have hcheck : checkForm token form = .ok uri := by
    rw [checkForm, if_neg hknows, huri]
    exact if_pos hne
  rw [authorizeSubmit, hcheck]

/-- **A client that is sent back with a code reads its own pairs, the code that is kept and its
    state exactly when the state is plain.** -/
theorem redirect_pairs_iff {token uri state location : String} {now : Nat} {rnd : UInt64 × UInt64}
    {codes : AuthCodes} {form : AuthorizeForm} (htoken : token = "" ∨ form.token = token)
    (huri : form.redirectUri = some uri) (hne : uri ≠ "") (hfrag : '#' ∉ uri.toList)
    (hstate : form.state = some state)
    (hlocation : (authorizeSubmit token now (authCode rnd) codes form).1.header "location"
      = some location) :
    ((authorizeSubmit token now (authCode rnd) codes form).2.lookup (authCode rnd)
          = some ⟨form.token, now + codeLifetime, some uri⟩ ∧
        (locationPairs location).Perm
          (locationPairs uri ++ [("code", authCode rnd), ("state", state)]))
      ↔ PlainState state := by
  rw [authorizeSubmit_code htoken huri hne, header_redirectTo] at hlocation
  rw [authorizeSubmit_code htoken huri hne, headerValue_eq_some hlocation, hstate]
  have hcode : (insertCode form uri (authCode rnd) now codes).lookup (authCode rnd)
      = some ⟨form.token, now + codeLifetime, some uri⟩ := AList.lookup_insert codes
  have hpairs := @codeLocation_pairs_iff uri _ state hfrag (authCode_not_reserved rnd)
  exact ⟨fun h => hpairs.mp h.2, fun h => ⟨hcode, hpairs.mpr h⟩⟩

/-- A client whose `redirect_uri` has a query of its own. -/
def queryClient (state : String) : AuthorizeForm :=
  ⟨"key", some "http://c/cb?x=1", some state, none, none⟩

theorem queryClient_token (state : String) :
    "key" = "" ∨ (queryClient state).token = "key" := .inr rfl

theorem queryClient_uri (state : String) :
    (queryClient state).redirectUri = some "http://c/cb?x=1" := rfl

theorem queryClient_state (state : String) : (queryClient state).state = some state := rfl

/-- The location that it is sent to. -/
theorem queryClient_location {state : String}
    (h : headerValue (codeLocation "http://c/cb?x=1" (authCode (7, 8)) (some state)) ≠ none) :
    (authorizeSubmit "key" 0 (authCode (7, 8)) ∅ (queryClient state)).1.header "location"
      = some (codeLocation "http://c/cb?x=1" (authCode (7, 8)) (some state)) := by
  obtain ⟨value, hvalue⟩ := Option.ne_none_iff_exists'.mp h
  rw [authorizeSubmit_code (queryClient_token state) (queryClient_uri state) (by decide),
    header_redirectTo]
  exact hvalue.trans (congrArg some (headerValue_eq_some hvalue))

theorem queryClient_codeLocation (state : String) :
    codeLocation "http://c/cb?x=1" (authCode (7, 8)) (some state)
      = "http://c/cb?x=1&code=00000000000000070000000000000008&state=" ++ state := by
  have hcode : authCode (7, 8) = "00000000000000070000000000000008" := rfl
  have hmark : '?' ∈ "http://c/cb?x=1".toList := by
    simp
  simp only [codeLocation, hcode, hmark, if_true, Option.map_some, Option.getD_some,
    ← String.append_assoc, String.reduceAppend]

/-- The two locations below. -/
theorem queryClient_plain : codeLocation "http://c/cb?x=1" (authCode (7, 8)) (some "xyz 1/2")
    = "http://c/cb?x=1&code=00000000000000070000000000000008&state=xyz 1/2" := by
  rw [queryClient_codeLocation]
  simp only [String.reduceAppend]

theorem queryClient_and : codeLocation "http://c/cb?x=1" (authCode (7, 8)) (some "a&b=c")
    = "http://c/cb?x=1&code=00000000000000070000000000000008&state=a&b=c" := by
  rw [queryClient_codeLocation]
  simp only [String.reduceAppend]

theorem redirect_pairs_plain :
    (locationPairs (codeLocation "http://c/cb?x=1" (authCode (7, 8)) (some "xyz 1/2"))).Perm
      (locationPairs "http://c/cb?x=1" ++ [("code", authCode (7, 8)), ("state", "xyz 1/2")]) := by
  have hplain : PlainState "xyz 1/2" :=
    ⟨by decide, by decide, by decide, fun h => absurd h.percent_mem (by decide)⟩
  have hvalue : headerValue (codeLocation "http://c/cb?x=1" (authCode (7, 8)) (some "xyz 1/2"))
      ≠ none := by
    rw [queryClient_plain]
    exact ne_of_eq_of_ne ((headerValue_ofList _).trans rfl) (Option.some_ne_none _)
  have hlocation := queryClient_location hvalue
  exact ((redirect_pairs_iff (queryClient_token _) (queryClient_uri _) (by decide) (by decide)
    (queryClient_state _) hlocation).mpr hplain).2

/-- With an `&` the client reads a shorter state and a pair that nobody sent. -/
theorem redirect_splits_state :
    ¬ (∀ (token uri state location : String) (now : Nat) (rnd : UInt64 × UInt64) (codes : AuthCodes)
        (form : AuthorizeForm), (token = "" ∨ form.token = token) → form.redirectUri = some uri →
        uri ≠ "" → '#' ∉ uri.toList → form.state = some state →
        (authorizeSubmit token now (authCode rnd) codes form).1.header "location" = some location →
        (authorizeSubmit token now (authCode rnd) codes form).2.lookup (authCode rnd)
            = some ⟨form.token, now + codeLifetime, some uri⟩ ∧
          (locationPairs location).Perm
            (locationPairs uri ++ [("code", authCode rnd), ("state", state)])) ∧
      locationPairs (codeLocation "http://c/cb?x=1" (authCode (7, 8)) (some "a&b=c"))
        = [("x", "1"), ("code", "00000000000000070000000000000008"), ("state", "a"),
            ("b", "c")] := by
  have hvalue : headerValue (codeLocation "http://c/cb?x=1" (authCode (7, 8)) (some "a&b=c"))
      ≠ none := by
    rw [queryClient_and]
    exact ne_of_eq_of_ne ((headerValue_ofList _).trans rfl) (Option.some_ne_none _)
  have hquery : urlQuery "http://c/cb?x=1&code=00000000000000070000000000000008&state=a&b=c"
      = some "x=1&code=00000000000000070000000000000008&state=a&b=c" :=
    (urlQuery_ofList _).trans rfl
  have hread : formParse "x=1&code=00000000000000070000000000000008&state=a&b=c"
      = [("x", "1"), ("code", "00000000000000070000000000000008"), ("state", "a"), ("b", "c")] :=
    (formParse_ofList _).trans rfl
  refine ⟨fun hall => ?_, ?_⟩
  swap
  · rw [locationPairs, queryClient_and, hquery]
    exact hread
  have hlocation := queryClient_location hvalue
  have hpairs := (hall _ _ _ _ _ _ _ _ (queryClient_token _) (queryClient_uri _) (by decide)
    (by decide) (queryClient_state _) hlocation).2
  have hplain := (codeLocation_pairs_iff (by decide) (authCode_not_reserved (7, 8))).mp hpairs
  exact hplain.no_and (by decide)

end Relayfs
