/-
  File:      Relayfs/Http/Codes.lean
  Subject:   AUTHORIZATION CODES OVER A WHOLE RUN (bridge/src/http.rs): any number of logins and
             token requests in any interleaving, with the periodic cleanup and the clock.

  The codes are behind a lock that is never held across an `await`, so each access to them is one
  step: the insertion of a login, the removal of a token request, the `retain` of the cleanup.
  Between them a login holds the code it has drawn, and the cleanup the instant it has read.

  * `HttpWorld`, `HttpStep` -- the clock, the codes, the cleanup and the requests;
  * `CodesInv` -- a code that may still be redeemed is in one place, and has not been granted;
  * `codes_granted_once` -- a grant is of a code that a login with the pairing token has been
    issued less than ten minutes before, and no code is granted twice.
-/
import Relayfs.Http.Tokens
import Relayfs.Lib.Run

namespace Relayfs

open Lib

/-! ## 1. The server in time -/

/-- Where a request to `authorize_submit` or `token_endpoint` is. -/
inductive HttpTask where
  | idle
  | submitted (form : AuthorizeForm)
  /-- The login has drawn a code and waits for the lock. -/
  | coded (form : AuthorizeForm) (redirectUri code : String)
  | asked (headers : HeaderMap) (body : List UInt8)
  | answered (res : HttpResponse)

structure HttpWorld where
  clock : Nat
  codes : AuthCodes
  /-- The instant the cleanup has read, before it has the lock. -/
  cleanup : Option Nat
  tasks : Nat → HttpTask

namespace HttpWorld

def start (clock : Nat) : HttpWorld := ⟨clock, ∅, none, fun _ => .idle⟩

def setTask (st : HttpWorld) (n : Nat) (task : HttpTask) : HttpWorld :=
  { st with tasks := Function.update st.tasks n task }

end HttpWorld

inductive HttpEvent where
  | submit (n : Nat) (form : AuthorizeForm)
  /-- `authorize_submit` answers without a code. -/
  | reply (n : Nat)
  | draw (n : Nat) (rnd : UInt64 × UInt64)
  | insert (n : Nat)
  | ask (n : Nat) (headers : HeaderMap) (body : List UInt8)
  | redeem (n : Nat)
  /-- The cleanup reads the clock; it sweeps. -/
  | tick
  | sweep
  | pass (d : Nat)

/-- **One step of the server.** -/
inductive HttpStep (S : HttpStack) (token : String) : HttpWorld → HttpEvent → HttpWorld → Prop where
  | submit {st : HttpWorld} {n : Nat} (hp : st.tasks n = .idle) (form : AuthorizeForm) :
      HttpStep S token st (.submit n form) (st.setTask n (.submitted form))
  | reply {st : HttpWorld} {n : Nat} {form : AuthorizeForm} {res : HttpResponse}
      (hp : st.tasks n = .submitted form) (hc : checkForm token form = .error res) :
      HttpStep S token st (.reply n) (st.setTask n (.answered res))
  | draw {st : HttpWorld} {n : Nat} {form : AuthorizeForm} {redirectUri : String}
      (hp : st.tasks n = .submitted form) (hc : checkForm token form = .ok redirectUri)
      (rnd : UInt64 × UInt64) :
      HttpStep S token st (.draw n rnd) (st.setTask n (.coded form redirectUri (authCode rnd)))
  | insert {st : HttpWorld} {n : Nat} {form : AuthorizeForm} {redirectUri code : String}
      (hp : st.tasks n = .coded form redirectUri code) :
      HttpStep S token st (.insert n)
        { st.setTask n (.answered (redirectTo (codeLocation redirectUri code form.state))) with
          codes := insertCode form redirectUri code st.clock st.codes }
  | ask {st : HttpWorld} {n : Nat} (hp : st.tasks n = .idle) (headers : HeaderMap)
      (body : List UInt8) :
      HttpStep S token st (.ask n headers body) (st.setTask n (.asked headers body))
  | redeem {st : HttpWorld} {n : Nat} {headers : HeaderMap} {body : List UInt8}
      (hp : st.tasks n = .asked headers body) :
      HttpStep S token st (.redeem n)
        { st.setTask n (.answered (tokenEndpoint S token st.clock st.codes headers body).1) with
          codes := (tokenEndpoint S token st.clock st.codes headers body).2 }
  | tick {st : HttpWorld} : HttpStep S token st .tick { st with cleanup := some st.clock }
  | sweep {st : HttpWorld} {now : Nat} (hp : st.cleanup = some now) :
      HttpStep S token st .sweep
        { st with
          codes := retain (fun _ entry => decide (now < entry.expiresAt)) st.codes
          cleanup := none }
  | pass {st : HttpWorld} (d : Nat) :
      HttpStep S token st (.pass d) { st with clock := st.clock + d }

abbrev HttpRun (S : HttpStack) (token : String) (hist : List (HttpWorld × HttpEvent))
    (st : HttpWorld) : Prop := Run (fun st => ∃ clock, st = .start clock) (HttpStep S token) hist st

/-! ## 2. What is asked of a run -/

/-- The codes that logins have drawn. -/
def drawnCodes : List (HttpWorld × HttpEvent) → List String
  | [] => []
  | (_, .draw _ rnd) :: hist => authCode rnd :: drawnCodes hist
  | _ :: hist => drawnCodes hist

/-- **The random codes are fresh.** -/
def FreshCodes (hist : List (HttpWorld × HttpEvent)) : Prop := (drawnCodes hist).Nodup

/-- The step stores a code for a login that presented the pairing token. -/
def IssuesCode (token code : String) (x : HttpWorld × HttpEvent) : Prop :=
  ∃ n form redirectUri, x.2 = .insert n ∧ x.1.tasks n = .coded form redirectUri code ∧
    form.token = token

/-- The step grants a token request for the code. -/
def GrantsCode (S : HttpStack) (token code : String) (x : HttpWorld × HttpEvent) : Prop :=
  ∃ n headers body, x.2 = .redeem n ∧ x.1.tasks n = .asked headers body ∧
    (S.tokenRequest body).asksCode = some code ∧
    (tokenEndpoint S token x.1.clock x.1.codes headers body).1 = tokenResponse token true

/-- A code that may still be granted: stored, or in the hands of a login. -/
def HttpWorld.Pending (st : HttpWorld) (code : String) : Prop :=
  (∃ entry, st.codes.lookup code = some entry) ∨
    ∃ n form redirectUri, st.tasks n = .coded form redirectUri code

/-! ## 3. One token request -/

section Redeem

variable {S : HttpStack} {token : String} {now : Nat} {codes : AuthCodes} {headers : HeaderMap}
  {body : List UInt8} {code : String} {entry : AuthCodeEntry}

/-- A token request stores no code. -/
theorem lookup_of_tokenEndpoint
    (h : (tokenEndpoint S token now codes headers body).2.lookup code = some entry) :
    codes.lookup code = some entry := by
  simp only [tokenEndpoint, grantToken] at h
  split at h
  · split at h
    · unfold redeem at h
      split at h
      · exact lookup_of_erase h
      · exact h
    · exact h
  · exact h

theorem tokenResponse_status {valid : Bool} :
    (tokenResponse token valid).status = if valid then 200 else 400 := by
  cases valid <;> rfl

/-- A valid response is the response to a valid request. -/
theorem tokenResponse_valid {valid : Bool}
    (h : tokenResponse token valid = tokenResponse token true) : valid = true := by
  cases valid with
  | true => rfl
  | false => exact absurd (congrArg HttpResponse.status h) (by simp [tokenResponse_status])

theorem redeem_valid (h : (redeem codes now code).1 = true) :
    ∃ entry, codes.lookup code = some entry ∧ now < entry.expiresAt := by
  unfold redeem at h
  cases hl : codes.lookup code with
  | none =>
    rw [hl] at h
    cases h
  | some entry =>
    rw [hl] at h
    exact ⟨entry, rfl, of_decide_eq_true h⟩

theorem lookup_redeem : (redeem codes now code).2.lookup code = none := by
  unfold redeem
  cases hl : codes.lookup code with
  | none => exact hl
  | some entry => exact AList.lookup_erase _ _

/-- A token request for a code redeems it. -/
theorem tokenEndpoint_code (hcode : (S.tokenRequest body).asksCode = some code) :
    tokenEndpoint S token now codes headers body
      = (tokenResponse token (redeem codes now code).1, (redeem codes now code).2) := by
  have hgrant : (S.tokenRequest body).grant = "authorization_code" := by
    unfold TokenRequest.asksCode at hcode
    split at hcode
    · assumption
    · cases hcode
  rw [TokenRequest.asksCode, if_pos hgrant] at hcode
  simp only [tokenEndpoint, grantToken, if_pos hgrant, hcode]

/-- A code is granted where it is stored and has not expired; it is taken out. -/
theorem redeem_granted (hcode : (S.tokenRequest body).asksCode = some code)
    (h : (tokenEndpoint S token now codes headers body).1 = tokenResponse token true) :
    (∃ entry, codes.lookup code = some entry ∧ now < entry.expiresAt) ∧
      (tokenEndpoint S token now codes headers body).2.lookup code = none := by
  rw [tokenEndpoint_code hcode] at h ⊢
  exact ⟨redeem_valid (tokenResponse_valid h), lookup_redeem⟩

end Redeem

/-! ## 4. The invariant -/

/-- **Where the codes are.** -/
structure CodesInv (S : HttpStack) (token : String) (hist : List (HttpWorld × HttpEvent))
    (st : HttpWorld) : Prop where
  /-- A stored code has been issued, and expires ten minutes after. -/
  issued : ∀ code entry, st.codes.lookup code = some entry → ∃ y ∈ hist,
    IssuesCode token code y ∧ y.1.clock ≤ st.clock ∧ entry.expiresAt = y.1.clock + codeLifetime
  /-- A login that has drawn a code presented the pairing token. -/
  checked : ∀ n form redirectUri code, st.tasks n = .coded form redirectUri code →
    form.token = token
  /-- Its code is nowhere else. -/
  alone : ∀ n form redirectUri code, st.tasks n = .coded form redirectUri code →
    st.codes.lookup code = none ∧
      ∀ n' form' redirectUri', st.tasks n' = .coded form' redirectUri' code → n' = n
  drawn : ∀ code, st.Pending code → code ∈ drawnCodes hist
  /-- What may still be granted has not been. -/
  unspent : ∀ code, st.Pending code → ∀ x ∈ hist, ¬ GrantsCode S token code x
  spent : ∀ code, ∀ x ∈ hist, GrantsCode S token code x → code ∈ drawnCodes hist
  /-- A grant is of a code issued less than ten minutes before. -/
  granted : ∀ x earlier, x :: earlier <:+ hist → ∀ code, GrantsCode S token code x →
    ∃ y ∈ earlier, IssuesCode token code y ∧ y.1.clock ≤ x.1.clock ∧
      x.1.clock < y.1.clock + codeLifetime
  once : ∀ code, hist.Pairwise fun x y => ¬ (GrantsCode S token code x ∧ GrantsCode S token code y)

section Steps

variable {S : HttpStack} {token : String} {hist : List (HttpWorld × HttpEvent)}
  {st st' : HttpWorld} {e : HttpEvent}

theorem codesInv_start (clock : Nat) : CodesInv S token [] (.start clock) where
  issued code entry h := by simp [HttpWorld.start] at h
  checked n form redirectUri code h := by cases h
  alone n form redirectUri code h := by cases h
  drawn code h := by
    rcases h with ⟨entry, h⟩ | ⟨n, form, redirectUri, h⟩
    · simp [HttpWorld.start] at h
    · cases h
  unspent code _ x hx := absurd hx List.not_mem_nil
  spent code x hx := absurd hx List.not_mem_nil
  granted x earlier h := by
    have := h.length_le
    simp at this
  once code := List.Pairwise.nil

/-- Only a `redeem` grants. -/
theorem not_grants_of_ne (h : ∀ n, e ≠ .redeem n) (code : String) :
    ¬ GrantsCode S token code (st, e) := by
  intro hg
  obtain ⟨n, _, _, he, _⟩ := hg
  exact h n he

theorem drawnCodes_mem {code : String} (h : code ∈ drawnCodes hist) :
    code ∈ drawnCodes ((st, e) :: hist) := by
  cases e with
  | draw n rnd => exact List.mem_cons_of_mem _ h
  | _ => exact h

/-- **A step that draws and stores no code.** A code it grants was there and is gone. -/
theorem CodesInv.lose (h : CodesInv S token hist st) (hclock : st.clock ≤ st'.clock)
    (hcodes : ∀ code entry, st'.codes.lookup code = some entry →
      st.codes.lookup code = some entry)
    (htasks : ∀ n form redirectUri code, st'.tasks n = .coded form redirectUri code →
      st.tasks n = .coded form redirectUri code)
    (hgrants : ∀ code, GrantsCode S token code (st, e) →
      (∃ entry, st.codes.lookup code = some entry ∧ st.clock < entry.expiresAt) ∧
        ¬ st'.Pending code) : CodesInv S token ((st, e) :: hist) st' := by
  have hpending : ∀ code, st'.Pending code → st.Pending code := by
    intro code hp
    rcases hp with ⟨entry, hl⟩ | ⟨n, form, redirectUri, ht⟩
    · exact .inl ⟨entry, hcodes code entry hl⟩
    · exact .inr ⟨n, form, redirectUri, htasks n form redirectUri code ht⟩
  have hwas : ∀ code, GrantsCode S token code (st, e) → st.Pending code := by
    intro code hg
    obtain ⟨⟨entry, hl, _⟩, _⟩ := hgrants code hg
    exact .inl ⟨entry, hl⟩
  refine ⟨fun code entry hl => ?_, fun n form redirectUri code ht => ?_,
    fun n form redirectUri code ht => ?_,
    fun code hp => drawnCodes_mem (h.drawn code (hpending code hp)),
    fun code hp x hx hg => ?_, fun code x hx hg => drawnCodes_mem ?_,
    fun x earlier hsuf code hg => ?_, fun code => ?_⟩
  · obtain ⟨y, hy, hissue, hle, hexp⟩ := h.issued code entry (hcodes code entry hl)
    exact ⟨y, List.mem_cons_of_mem _ hy, hissue, hle.trans hclock, hexp⟩
  · exact h.checked n form redirectUri code (htasks n form redirectUri code ht)
  · obtain ⟨hnone, hone⟩ := h.alone n form redirectUri code (htasks n form redirectUri code ht)
    refine ⟨?_, fun n' form' redirectUri' ht' => hone n' form' redirectUri' (htasks _ _ _ _ ht')⟩
    cases hl : st'.codes.lookup code with
    | none => rfl
    | some entry => rw [hcodes code entry hl] at hnone; cases hnone
  · rcases List.mem_cons.mp hx with rfl | hx
    · exact (hgrants code hg).2 hp
    · exact h.unspent code (hpending code hp) x hx hg
  · rcases List.mem_cons.mp hx with rfl | hx
    · exact h.drawn code (hwas code hg)
    · exact h.spent code x hx hg
  · rcases List.suffix_cons_iff.mp hsuf with heq | hsuf
    · cases heq
      obtain ⟨⟨entry, hl, hnow⟩, _⟩ := hgrants code hg
      obtain ⟨y, hy, hissue, hle, hexp⟩ := h.issued code entry hl
      exact ⟨y, hy, hissue, hle, hexp ▸ hnow⟩
    · exact h.granted x earlier hsuf code hg
  · refine List.pairwise_cons.mpr ⟨fun y hy hboth => ?_, h.once code⟩
    exact h.unspent code (hwas code hboth.1) y hy hboth.2

/-- What the requests are after a step: one is new, the others are as before. -/
theorem HttpWorld.tasks_cases {n n' : Nat} {task task' : HttpTask}
    (h : (st.setTask n task).tasks n' = task') :
    (n' = n ∧ task = task') ∨ (n' ≠ n ∧ st.tasks n' = task') := by
  have h : Function.update st.tasks n task n' = task' := h
  by_cases hn : n' = n
  · subst hn
    rw [Function.update_self] at h
    exact .inl ⟨rfl, h⟩
  · rw [Function.update_of_ne hn] at h
    exact .inr ⟨hn, h⟩

/-- The new request has no code in its hands. -/
theorem HttpWorld.coded_of_setTask {n n' : Nat} {task : HttpTask} {form : AuthorizeForm}
    {redirectUri code : String} (hne : ∀ form redirectUri code, task ≠ .coded form redirectUri code)
    (h : (st.setTask n task).tasks n' = .coded form redirectUri code) :
    st.tasks n' = .coded form redirectUri code := by
  rcases HttpWorld.tasks_cases h with ⟨_, heq⟩ | ⟨_, heq⟩
  · exact absurd heq (hne form redirectUri code)
  · exact heq

/-- What the invariant says of grants holds on after a step that grants nothing. -/
theorem CodesInv.quiet (h : CodesInv S token hist st)
    (hquiet : ∀ code, ¬ GrantsCode S token code (st, e)) :
    (∀ code, ∀ x ∈ (st, e) :: hist, GrantsCode S token code x → x ∈ hist) ∧
    (∀ x earlier, x :: earlier <:+ (st, e) :: hist → ∀ code, GrantsCode S token code x →
      ∃ y ∈ earlier, IssuesCode token code y ∧ y.1.clock ≤ x.1.clock ∧
        x.1.clock < y.1.clock + codeLifetime) ∧
    ∀ code, ((st, e) :: hist).Pairwise
      fun x y => ¬ (GrantsCode S token code x ∧ GrantsCode S token code y) := by
  refine ⟨fun code x hx hg => ?_, fun x earlier hsuf code hg => ?_, fun code => ?_⟩
  · rcases List.mem_cons.mp hx with rfl | hx
    · exact absurd hg (hquiet code)
    · exact hx
  · rcases List.suffix_cons_iff.mp hsuf with heq | hsuf
    · cases heq
      exact absurd hg (hquiet code)
    · exact h.granted x earlier hsuf code hg
  · exact List.pairwise_cons.mpr ⟨fun y _ hboth => hquiet code hboth.1, h.once code⟩

/-- **A login draws a fresh code.** -/
theorem CodesInv.draw (h : CodesInv S token hist st) {n : Nat} {form : AuthorizeForm}
    {redirectUri : String} {rnd : UInt64 × UInt64} (hform : form.token = token)
    (hfresh : authCode rnd ∉ drawnCodes hist) :
    CodesInv S token ((st, .draw n rnd) :: hist)
      (st.setTask n (.coded form redirectUri (authCode rnd))) := by
  obtain ⟨hmem, hgranted, honce⟩ :=
    h.quiet (e := .draw n rnd) (not_grants_of_ne fun _ => HttpEvent.noConfusion)
  -- what was pending before is another code
  have hother : ∀ code, st.Pending code → code ≠ authCode rnd := by
    intro code hp heq
    exact hfresh (heq ▸ h.drawn code hp)
  have hpending : ∀ code, (st.setTask n (.coded form redirectUri (authCode rnd))).Pending code →
      st.Pending code ∨ code = authCode rnd := by
    intro code hp
    rcases hp with hl | ⟨n', form', redirectUri', ht⟩
    · exact .inl (.inl hl)
    · rcases HttpWorld.tasks_cases ht with ⟨_, heq⟩ | ⟨_, ht⟩
      · cases heq
        exact .inr rfl
      · exact .inl (.inr ⟨n', form', redirectUri', ht⟩)
  refine ⟨fun code entry hl => ?_, fun n' form' redirectUri' code ht => ?_,
    fun n' form' redirectUri' code ht => ?_, fun code hp => ?_, fun code hp x hx hg => ?_,
    fun code x hx hg => drawnCodes_mem (h.spent code x (hmem code x hx hg) hg), hgranted, honce⟩
  · obtain ⟨y, hy, hissue⟩ := h.issued code entry hl
    exact ⟨y, List.mem_cons_of_mem _ hy, hissue⟩
  · rcases HttpWorld.tasks_cases ht with ⟨_, heq⟩ | ⟨_, ht⟩
    · cases heq
      exact hform
    · exact h.checked n' form' redirectUri' code ht
  · rcases HttpWorld.tasks_cases ht with ⟨rfl, heq⟩ | ⟨hn, ht⟩
    · cases heq
      refine ⟨?_, fun n'' form'' redirectUri'' ht'' => ?_⟩
      · cases hl : st.codes.lookup (authCode rnd) with
        | none => exact hl
        | some entry => exact absurd rfl (hother _ (.inl ⟨entry, hl⟩))
      · rcases HttpWorld.tasks_cases ht'' with ⟨hn, _⟩ | ⟨_, ht''⟩
        · exact hn
        · exact absurd rfl (hother _ (.inr ⟨n'', form'', redirectUri'', ht''⟩))
    · obtain ⟨hnone, hone⟩ := h.alone n' form' redirectUri' code ht
      refine ⟨hnone, fun n'' form'' redirectUri'' ht'' => ?_⟩
      rcases HttpWorld.tasks_cases ht'' with ⟨_, heq⟩ | ⟨_, ht''⟩
      · cases heq
        exact absurd rfl (hother _ (.inr ⟨n', form', redirectUri', ht⟩))
      · exact hone n'' form'' redirectUri'' ht''
  · rcases hpending code hp with hp | rfl
    · exact List.mem_cons_of_mem _ (h.drawn code hp)
    · exact List.mem_cons_self
  · have hx' := hmem code x hx hg
    rcases hpending code hp with hp | rfl
    · exact h.unspent code hp x hx' hg
    · exact hfresh (h.spent _ x hx' hg)

/-- **A login stores its code.** -/
theorem CodesInv.insert (h : CodesInv S token hist st) {n : Nat} {form : AuthorizeForm}
    {redirectUri code : String} {task : HttpTask}
    (hp : st.tasks n = .coded form redirectUri code)
    (hne : ∀ form redirectUri code, task ≠ .coded form redirectUri code) :
    CodesInv S token ((st, .insert n) :: hist)
      { st.setTask n task with codes := insertCode form redirectUri code st.clock st.codes } := by
  obtain ⟨hmem, hgranted, honce⟩ :=
    h.quiet (e := .insert n) (not_grants_of_ne fun _ => HttpEvent.noConfusion)
  obtain ⟨hnone, hone⟩ := h.alone n form redirectUri code hp
  have hlookup : ∀ code', code' ≠ code →
      (insertCode form redirectUri code st.clock st.codes).lookup code' = st.codes.lookup code' :=
    fun code' hc => AList.lookup_insert_ne hc
  have hpending : ∀ code', HttpWorld.Pending { st.setTask n task with
      codes := insertCode form redirectUri code st.clock st.codes } code' → st.Pending code' := by
    intro code' hp'
    rcases hp' with ⟨entry, hl⟩ | ⟨n', form', redirectUri', ht⟩
    · by_cases hc : code' = code
      · subst hc
        exact .inr ⟨n, form, redirectUri, hp⟩
      · rw [hlookup code' hc] at hl
        exact .inl ⟨entry, hl⟩
    · exact .inr ⟨n', form', redirectUri', HttpWorld.coded_of_setTask hne ht⟩
  refine ⟨fun code' entry hl => ?_, fun n' form' redirectUri' code' ht => ?_,
    fun n' form' redirectUri' code' ht => ?_,
    fun code' hp' => drawnCodes_mem (h.drawn code' (hpending code' hp')),
    fun code' hp' x hx hg => h.unspent code' (hpending code' hp') x (hmem code' x hx hg) hg,
    fun code' x hx hg => drawnCodes_mem (h.spent code' x (hmem code' x hx hg) hg), hgranted,
    honce⟩
  · by_cases hc : code' = code
    · subst hc
      have heq : some (⟨form.token, st.clock + codeLifetime, some redirectUri⟩ : AuthCodeEntry)
          = some entry := (AList.lookup_insert _).symm.trans hl
      cases heq
      exact ⟨(st, .insert n), List.mem_cons_self,
        ⟨n, form, redirectUri, rfl, hp, h.checked n form redirectUri code' hp⟩, Nat.le_refl _, rfl⟩
    · rw [hlookup code' hc] at hl
      obtain ⟨y, hy, hissue⟩ := h.issued code' entry hl
      exact ⟨y, List.mem_cons_of_mem _ hy, hissue⟩
  · exact h.checked n' form' redirectUri' code' (HttpWorld.coded_of_setTask hne ht)
  · rcases HttpWorld.tasks_cases ht with ⟨_, heq⟩ | ⟨hn, hold⟩
    · exact absurd heq (hne form' redirectUri' code')
    · obtain ⟨hnone', hone'⟩ := h.alone n' form' redirectUri' code' hold
      have hc : code' ≠ code := by
        intro heq'
        subst heq'
        exact hn (hone n' form' redirectUri' hold)
      exact ⟨(hlookup code' hc).trans hnone', fun n'' form'' redirectUri'' ht'' =>
        hone' n'' form'' redirectUri'' (HttpWorld.coded_of_setTask hne ht'')⟩

/-- With a pairing token, a form that gets a code presents it. -/
theorem checkForm_token {form : AuthorizeForm} {redirectUri : String} (ht : token ≠ "")
    (h : checkForm token form = .ok redirectUri) : form.token = token := by
  unfold checkForm at h
  split at h
  · cases h
  · rename_i hc
    by_contra hne
    exact hc ⟨ht, hne⟩

/-- A request that draws and stores nothing. -/
theorem CodesInv.respond (h : CodesInv S token hist st) {n : Nat} {task : HttpTask}
    (hne : ∀ form redirectUri code, task ≠ .coded form redirectUri code)
    (hquiet : ∀ n, e ≠ .redeem n) : CodesInv S token ((st, e) :: hist) (st.setTask n task) :=
  h.lose (Nat.le_refl _) (fun _ _ hl => hl) (fun _ _ _ _ ht => HttpWorld.coded_of_setTask hne ht)
    fun code hg => absurd hg (not_grants_of_ne hquiet code)

theorem CodesInv.step (h : CodesInv S token hist st) (ht : token ≠ "")
    (hs : HttpStep S token st e st') (hfresh : FreshCodes ((st, e) :: hist)) :
    CodesInv S token ((st, e) :: hist) st' := by
  cases hs with
  | submit hp form => exact h.respond nofun nofun
  | reply hp hc => exact h.respond nofun nofun
  | draw hp hc rnd => exact h.draw (checkForm_token ht hc) (List.nodup_cons.mp hfresh).1
  | insert hp => exact h.insert hp fun _ _ _ => HttpTask.noConfusion
  | ask hp headers body => exact h.respond nofun nofun
  | @redeem n headers body hp =>
    have hcoded : ∀ n' form redirectUri code, (st.setTask n (.answered
        (tokenEndpoint S token st.clock st.codes headers body).1)).tasks n'
          = .coded form redirectUri code → st.tasks n' = .coded form redirectUri code :=
      fun _ _ _ _ => HttpWorld.coded_of_setTask fun _ _ _ => HttpTask.noConfusion
    refine h.lose (Nat.le_refl _) (fun _ _ hl => lookup_of_tokenEndpoint hl) hcoded
      fun code hg => ?_
    obtain ⟨n', headers', body', he, hp', hcode, hres⟩ := hg
    cases he
    rw [hp] at hp'
    cases hp'
    obtain ⟨hentry, hnone⟩ := redeem_granted hcode hres
    refine ⟨hentry, fun hpend => ?_⟩
    rcases hpend with ⟨entry, hl⟩ | ⟨n', form, redirectUri, ht'⟩
    · rw [hnone] at hl
      cases hl
    · obtain ⟨entry, hl, _⟩ := hentry
      rw [(h.alone n' form redirectUri code (hcoded n' form redirectUri code ht')).1] at hl
      cases hl
  | tick =>
    exact h.lose (Nat.le_refl _) (fun _ _ hl => hl) (fun _ _ _ _ ht => ht)
      fun code hg => absurd hg (not_grants_of_ne (fun _ => HttpEvent.noConfusion) code)
  | sweep hp =>
    exact h.lose (Nat.le_refl _) (fun _ _ hl => lookup_of_retain hl) (fun _ _ _ _ ht => ht)
      fun code hg => absurd hg (not_grants_of_ne (fun _ => HttpEvent.noConfusion) code)
  | pass d =>
    exact h.lose (Nat.le_add_right _ d) (fun _ _ hl => hl) (fun _ _ _ _ ht => ht)
      fun code hg => absurd hg (not_grants_of_ne (fun _ => HttpEvent.noConfusion) code)

end Steps

/-- The codes of a shorter history are fresh too. -/
theorem FreshCodes.of_cons {x : HttpWorld × HttpEvent} {hist : List (HttpWorld × HttpEvent)}
    (h : FreshCodes (x :: hist)) : FreshCodes hist := by
  obtain ⟨st, e⟩ := x
  cases e with
  | draw n rnd => exact (List.nodup_cons.mp h).2
  | _ => exact h

/-- **A code is granted once, and only to whom a login has given it.** In every run with fresh
    random codes, a grant is of a code that a login with the pairing token has stored less than
    ten minutes before, and no two steps grant one code. -/
theorem codes_granted_once {S : HttpStack} {token : String} {hist : List (HttpWorld × HttpEvent)}
    {st : HttpWorld} (ht : token ≠ "") (h : HttpRun S token hist st) (hfresh : FreshCodes hist)
    (code : String) :
    (∀ x earlier, x :: earlier <:+ hist → GrantsCode S token code x →
      ∃ y ∈ earlier, IssuesCode token code y ∧ y.1.clock ≤ x.1.clock ∧
        x.1.clock < y.1.clock + codeLifetime) ∧
    hist.Pairwise fun x y => ¬ (GrantsCode S token code x ∧ GrantsCode S token code y) := by
  have hinv : CodesInv S token hist st := by
    induction h with
    | start h0 =>
      obtain ⟨clock, rfl⟩ := h0
      exact codesInv_start clock
    | step _ hs ih => exact (ih hfresh.of_cons).step ht hs hfresh
  exact ⟨fun x earlier hsuf => hinv.granted x earlier hsuf code, hinv.once code⟩

/-- A token request for the code of two zeros. -/
def redeemZeros : List UInt8 :=
  utf8Bytes "grant_type=authorization_code&code=00000000000000000000000000000000"

theorem authCode_zeros : authCode (0, 0) = "00000000000000000000000000000000" := rfl

theorem authCode_zeros_plain :
    ∀ c ∈ (authCode (0, 0)).toList, c ≠ '%' ∧ c ≠ '+' ∧ c ≠ '&' ∧ c ≠ '#' := by
  rw [authCode_zeros]
  simp

theorem redeemZeros_eq : redeemZeros
    = utf8Bytes ("&".intercalate ["grant_type=authorization_code", "code=" ++ authCode (0, 0)]) := by
  rw [authCode_zeros, String.intercalate_cons_cons, String.intercalate_singleton, redeemZeros]
  simp

theorem asksCode_redeemZeros :
    (plainStack.tokenRequest redeemZeros).asksCode = some (authCode (0, 0)) := by
  have hbody := tokenBody_plain [] authCode_zeros_plain (by simp)
  rw [plainStack_tokenRequest, redeemZeros_eq, hbody.asksCode]

/-- A login gets a code, which is redeemed ten seconds later, and then once more. -/
theorem codes_granted_once_login : ∃ hist st, HttpRun plainStack "t" hist st ∧
    (∃ x ∈ hist, GrantsCode plainStack "t" (authCode (0, 0)) x) ∧
    (∀ x earlier, x :: earlier <:+ hist → GrantsCode plainStack "t" (authCode (0, 0)) x →
      ∃ y ∈ earlier, IssuesCode "t" (authCode (0, 0)) y ∧ y.1.clock ≤ x.1.clock ∧
        x.1.clock < y.1.clock + codeLifetime) ∧
    hist.Pairwise fun x y => ¬ (GrantsCode plainStack "t" (authCode (0, 0)) x ∧
      GrantsCode plainStack "t" (authCode (0, 0)) y) := by
  have h0 : HttpRun plainStack "t" [] (.start 0) := .start ⟨0, rfl⟩
  have h1 := h0.step (.submit (n := 0) rfl ⟨"t", some "http://c", none, none, none⟩)
  have h2 := h1.step (.draw (n := 0) rfl rfl (0, 0))
  have h3 := h2.step (.insert (n := 0) rfl)
  have h4 := h3.step (.pass (10 ^ 10))
  have h5 := h4.step (.ask (n := 1) rfl [] redeemZeros)
  have h6 := h5.step (.redeem (n := 1) rfl)
  have h7 := h6.step (.ask (n := 2) rfl [] redeemZeros)
  have h8 := h7.step (.redeem (n := 2) rfl)
  refine ⟨_, _, h8, ⟨_, List.mem_cons_of_mem _ (List.mem_cons_of_mem _ List.mem_cons_self), 1, [],
    redeemZeros, rfl, rfl, asksCode_redeemZeros, ?_⟩,
    codes_granted_once (by decide) h8 (List.nodup_singleton _) _⟩
  rw [tokenEndpoint_code asksCode_redeemZeros]
  rfl

end Relayfs
