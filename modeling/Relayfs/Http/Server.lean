/-
  File:      Relayfs/Http/Server.lean
  Subject:   THE HTTP SERVER (bridge/src/http.rs): its handlers, its routes, and what it tells a
             client that does not know the pairing token.

  A handler is a function of the request, the token, the authorization codes, the clock and the
  random numbers it may draw; it answers and leaves the codes. `HttpStack` is what `axum` and
  `serde_json` read of a request before a handler runs.

  * `authMiddleware`, `loginPage`, `authorizeSubmit`, `tokenEndpoint`, `legacySse` -- the handlers;
  * `serve` -- the router;
  * `strangerAnswer` -- what a client without the token is answered: no function of the token;
  * `token_noninterference` -- two tokens answer such a client alike, and neither lets it reach
    the MCP service.
-/
import Relayfs.Bridge.Upload
import Relayfs.Http.Message
import Relayfs.Http.Pages
import Relayfs.Lib.Table

namespace Relayfs

open Lib

/-! ## 1. What handlers work on -/

/-- `AuthCodeEntry`. Instants are nanoseconds. -/
structure AuthCodeEntry where
  token : String
  expiresAt : Nat
  redirectUri : Option String

/-- `auth_codes`. -/
abbrev AuthCodes := Table String AuthCodeEntry

/-- `Duration::from_secs(600)`. -/
def codeLifetime : Nat := 600 * 10 ^ 9

structure AuthorizeQuery where
  clientId : Option String
  redirectUri : Option String
  responseType : Option String
  state : Option String
  error : Option String

structure AuthorizeForm where
  token : String
  redirectUri : Option String
  state : Option String
  responseType : Option String
  clientId : Option String

structure TokenRequest where
  grantType : Option String
  code : Option String
  clientId : Option String
  clientSecret : Option String
  password : Option String
  token : Option String

/-- What `axum` and `serde_json` make of a request: the arguments of the handlers, or the response
    with which an extractor refuses the request. -/
structure HttpStack where
  query : HttpRequest → Except HttpResponse AuthorizeQuery
  form : HttpRequest → Except HttpResponse AuthorizeForm
  bytes : HttpRequest → Except HttpResponse (List UInt8)
  fromSlice : List UInt8 → Option TokenRequest

/-- What becomes of a request: a response, or the MCP service gets it and its response gets the
    CORS headers. -/
inductive HttpAnswer where
  | response (res : HttpResponse)
  | mcp

/-! ## 2. Responses -/

def corsHeaders : List (String × String) :=
  [("access-control-allow-origin", "*"),
   ("access-control-allow-methods", "GET, POST, DELETE, OPTIONS"),
   ("access-control-allow-headers", "Authorization, Content-Type, Mcp-Session-Id, "
     ++ "Mcp-Protocol-Version, Last-Event-Id, X-Requested-With"),
   ("access-control-expose-headers", "Mcp-Session-Id, Mcp-Protocol-Version")]

/-- `add_cors_headers`. -/
def HttpResponse.addCorsHeaders (res : HttpResponse) : HttpResponse :=
  corsHeaders.foldl (fun res h => res.insertHeader h.1 h.2) res

/-- `cors_preflight_response`. -/
def corsPreflight : HttpResponse := HttpResponse.addCorsHeaders ⟨204, [], .text ""⟩

def htmlResponse (page : String) : HttpResponse :=
  ⟨200, [("content-type", "text/html; charset=utf-8")], .text page⟩

def jsonResponse (status : Nat) (v : Json) : HttpResponse :=
  ⟨status, [("content-type", "application/json")], .json v⟩

/-- `Redirect::to`: a location that is no header value is an error of the server. -/
def redirectTo (location : String) : HttpResponse :=
  match headerValue location with
  | some location => ⟨303, [("location", location)], .text ""⟩
  | none => ⟨500, [("content-type", "text/plain; charset=utf-8")],
      .text "failed to parse header value"⟩

/-- `unauthorized_response`. -/
def unauthorizedResponse : HttpResponse :=
  HttpResponse.addCorsHeaders
    ⟨401,
     [("www-authenticate", "Bearer realm=\"relayfs\", error=\"invalid_token\", "
         ++ "resource_metadata=\"/.well-known/oauth-protected-resource\""),
      ("link", "</.well-known/oauth-protected-resource>; rel=\"describedby\""),
      ("content-type", "application/json")],
     .json (.obj
       [("error", .str "unauthorized"),
        ("message", .str ("Valid token required. Pass 'Authorization: Bearer <token>', query "
          ++ "'?token=<token>', or visit /login to authenticate.")),
        ("login_url", .str "/login")])⟩

/-- The route of `/healthz`. -/
def healthz : HttpResponse := ⟨200, [("content-type", "text/plain; charset=utf-8")], .text "ok"⟩

/-- `oauth_protected_resource`. -/
def oauthProtectedResource : HttpResponse :=
  (jsonResponse 200 (.obj
    [("resource", .str "/mcp"),
     ("authorization_servers", .arr [.str "/"]),
     ("scopes_supported", .arr [.str "mcp:tools"])])).addCorsHeaders

/-- `oauth_authorization_server`. -/
def oauthAuthorizationServer : HttpResponse :=
  (jsonResponse 200 (.obj
    [("issuer", .str "/"),
     ("authorization_endpoint", .str "/oauth/authorize"),
     ("token_endpoint", .str "/oauth/token"),
     ("response_types_supported", .arr [.str "code", .str "token"]),
     ("grant_types_supported",
      .arr [.str "authorization_code", .str "client_credentials", .str "password"]),
     ("token_endpoint_auth_methods_supported",
      .arr [.str "client_secret_post", .str "client_secret_basic", .str "none"])])).addCorsHeaders

/-! ## 3. Handlers -/

/-- `auth_middleware`. -/
def authMiddleware (token : String) (req : HttpRequest) : HttpAnswer :=
  if req.method = .options then .response corsPreflight
  else if token = "" then .mcp
  else if extractToken req.headers req.query = some token then .mcp
  else .response unauthorizedResponse

/-- The text of an error on the login form. -/
def errorHtml (error : String) : String :=
  if error ≠ "" then "<div class=\"alert error\">" ++ error ++ "</div>" else ""

/-- `login_page`. -/
def loginPage (token : String) (query : AuthorizeQuery) (req : HttpRequest) : HttpResponse :=
  if token = "" ∨ extractToken req.headers req.query = some token then
    htmlResponse (authorizedPage (if token = "" then "(none required)" else token))
  else
    htmlResponse (loginForm (errorHtml (query.error.getD "")) (query.redirectUri.getD "")
      (query.state.getD "") (query.responseType.getD "code") (query.clientId.getD ""))

/-- The response to a form with another token. -/
def invalidPairingToken (form : AuthorizeForm) : HttpResponse :=
  redirectTo ("/oauth/authorize?error=Invalid%20pairing%20token&redirect_uri="
    ++ form.redirectUri.getD "" ++ "&state=" ++ form.state.getD "")

/-- The page of a login in the browser, and its cookie. -/
def loginCookie (form : AuthorizeForm) : HttpResponse :=
  (htmlResponse (loginSuccessful form.token)).insertHeader "set-cookie"
    ((headerValue ("access_token=" ++ form.token
      ++ "; Path=/; HttpOnly; SameSite=Lax; Max-Age=86400")).getD "")

/-- The code of two random numbers. -/
def authCode (rnd : UInt64 × UInt64) : String := hex16 rnd.1.toNat ++ hex16 rnd.2.toNat

/-- Where a client is sent with its code. -/
def codeLocation (redirectUri code : String) (state : Option String) : String :=
  redirectUri ++ (if '?' ∈ redirectUri.toList then "&" else "?") ++ "code=" ++ code
    ++ (state.map fun s => "&state=" ++ s).getD ""

/-- `authorize_submit` up to the lock of the codes: the response, or the `redirect_uri` of a client
    that gets a code. -/
def checkForm (token : String) (form : AuthorizeForm) : Except HttpResponse String :=
  if token ≠ "" ∧ form.token ≠ token then .error (invalidPairingToken form)
  else match form.redirectUri with
    | some redirectUri =>
        if redirectUri ≠ "" then .ok redirectUri else .error (loginCookie form)
    | none => .error (loginCookie form)

/-- `authorize_submit` under the lock. -/
def insertCode (form : AuthorizeForm) (redirectUri code : String) (now : Nat) (codes : AuthCodes) :
    AuthCodes :=
  codes.insert code ⟨form.token, now + codeLifetime, some redirectUri⟩

/-- **`authorize_submit`.** -/
def authorizeSubmit (token : String) (now : Nat) (code : String) (codes : AuthCodes)
    (form : AuthorizeForm) : HttpResponse × AuthCodes :=
  match checkForm token form with
  | .ok redirectUri =>
      (redirectTo (codeLocation redirectUri code form.state),
        insertCode form redirectUri code now codes)
  | .error res => (res, codes)

/-- A pair of a form-encoded token request. -/
def TokenRequest.setField (tr : TokenRequest) (key value : String) : TokenRequest :=
  match key with
  | "grant_type" => { tr with grantType := some value }
  | "code" => { tr with code := some value }
  | "client_id" => { tr with clientId := some value }
  | "client_secret" => { tr with clientSecret := some value }
  | "password" => { tr with password := some value }
  | "token" => { tr with token := some value }
  | _ => tr

/-- A token request that is no JSON. -/
def formRequest (body : List UInt8) : TokenRequest :=
  (splitAtChar '&' ((fromUtf8 body).getD "")).foldl
    (fun tr pair =>
      match splitOnce '=' pair with
      | some (key, value) => tr.setField key (decodePercent value)
      | none => tr)
    ⟨none, none, none, none, none, none⟩

theorem formRequest_utf8Bytes (s : String) : formRequest (utf8Bytes s)
    = (splitAtChar '&' s).foldl
      (fun tr pair =>
        match splitOnce '=' pair with
        | some (key, value) => tr.setField key (decodePercent value)
        | none => tr)
      ⟨none, none, none, none, none, none⟩ := by
  rw [formRequest, fromUtf8_utf8Bytes]
  rfl

/-- The body of `token_endpoint`. -/
def HttpStack.tokenRequest (S : HttpStack) (body : List UInt8) : TokenRequest :=
  (S.fromSlice body).getD (formRequest body)

def TokenRequest.grant (tr : TokenRequest) : String := tr.grantType.getD "client_credentials"

/-- The code of a token request that is to be redeemed. -/
def TokenRequest.asksCode (tr : TokenRequest) : Option String :=
  if tr.grant = "authorization_code" then tr.code else none

/-- The secret of a token request, from its body or the `Authorization` header. -/
def TokenRequest.secret (tr : TokenRequest) (headers : HeaderMap) : Option String :=
  tr.clientSecret <|> tr.password <|> tr.token <|>
    (((headers.get "authorization").bind headerText).bind (stripText "Bearer ")).map trimText

/-- A code is taken out; it is good if it has not expired. -/
def redeem (codes : AuthCodes) (now : Nat) (code : String) : Bool × AuthCodes :=
  match codes.lookup code with
  | some entry => (decide (now < entry.expiresAt), codes.erase code)
  | none => (false, codes)

/-- The two responses of `token_endpoint`. -/
def tokenResponse (token : String) (valid : Bool) : HttpResponse :=
  if valid then
    (jsonResponse 200 (.obj
      [("access_token", .str token), ("token_type", .str "Bearer"),
       ("expires_in", .nat 86400)])).addCorsHeaders
  else
    (jsonResponse 400 (.obj
      [("error", .str "invalid_grant"),
       ("error_description", .str "Invalid credentials or authorization code")])).addCorsHeaders

/-- Whether a token request is valid, and the codes it leaves. -/
def grantToken (token : String) (now : Nat) (codes : AuthCodes) (headers : HeaderMap)
    (tr : TokenRequest) : Bool × AuthCodes :=
  if tr.grant = "authorization_code" then
    match tr.code with
    | some code => redeem codes now code
    | none => (false, codes)
  else (decide (token = "" ∨ tr.secret headers = some token), codes)

/-- **`token_endpoint`.** -/
def tokenEndpoint (S : HttpStack) (token : String) (now : Nat) (codes : AuthCodes)
    (headers : HeaderMap) (body : List UInt8) : HttpResponse × AuthCodes :=
  let (valid, codes) := grantToken token now codes headers (S.tokenRequest body)
  (tokenResponse token valid, codes)

/-- `legacy_sse_handler`. -/
def legacySse (token : String) (req : HttpRequest) : HttpResponse :=
  if token ≠ "" ∧ extractToken req.headers req.query ≠ some token then unauthorizedResponse
  else
    HttpResponse.addCorsHeaders
      ⟨200,
       [("content-type", "text/event-stream"), ("cache-control", "no-cache"),
        ("connection", "keep-alive")],
       .stream ("event: endpoint\ndata: /mcp" ++ (if token = "" then "" else "?token=" ++ token)
         ++ "\n\n") ": ping\n\n"⟩

/-! ## 4. Routes -/

inductive Route where
  | mcp
  | healthz
  | protectedResource
  | authorizationServer
  | login
  | token
  | sse
  | unknown
  deriving DecidableEq

/-- `make_router`. -/
def route (path : String) : Route :=
  if path = "/mcp" ∨ "/mcp/".toList <+: path.toList then .mcp
  else match path with
    | "/healthz" => .healthz
    | "/.well-known/oauth-protected-resource" => .protectedResource
    | "/.well-known/oauth-authorization-server" => .authorizationServer
    | "/.well-known/openid-configuration" => .authorizationServer
    | "/oauth/authorize" => .login
    | "/login" => .login
    | "/oauth/token" => .token
    | "/sse" => .sse
    | _ => .unknown

/-- The response to a path that has no route, and to a method that a route has no handler for. -/
def unknownRoute : HttpResponse := ⟨404, [], .text ""⟩

def methodNotAllowed (allow : String) : HttpResponse := ⟨405, [("allow", allow)], .text ""⟩

/-- A `get` route: `HEAD` gets the response without its body. -/
def getRoute (method : Method) (res : HttpResponse) : HttpResponse :=
  match method with
  | .get => res
  | .head => { res with body := .text "" }
  | _ => methodNotAllowed "GET,HEAD"

/-- **A request to the server**, with the clock and the random numbers a handler may draw. -/
def serve (S : HttpStack) (token : String) (now : Nat) (rnd : UInt64 × UInt64) (codes : AuthCodes)
    (req : HttpRequest) : HttpAnswer × AuthCodes :=
  match route req.path with
  | .mcp => (authMiddleware token req, codes)
  | .healthz => (.response (getRoute req.method Relayfs.healthz), codes)
  | .protectedResource => (.response (getRoute req.method oauthProtectedResource), codes)
  | .authorizationServer => (.response (getRoute req.method oauthAuthorizationServer), codes)
  | .sse => (.response (getRoute req.method (legacySse token req)), codes)
  | .login =>
      match req.method with
      | .post =>
          match S.form req with
          | .ok form =>
              let (res, codes) := authorizeSubmit token now (authCode rnd) codes form
              (.response res, codes)
          | .error res => (.response res, codes)
      | .get | .head =>
          match S.query req with
          | .ok query => (.response (getRoute req.method (loginPage token query req)), codes)
          | .error res => (.response (getRoute req.method res), codes)
      | _ => (.response (methodNotAllowed "GET,HEAD,POST"), codes)
  | .token =>
      match req.method with
      | .post =>
          match S.bytes req with
          | .ok body =>
              let (res, codes) := tokenEndpoint S token now codes req.headers body
              (.response res, codes)
          | .error res => (.response res, codes)
      | _ => (.response (methodNotAllowed "POST"), codes)
  | .unknown => (.response unknownRoute, codes)

/-! ## 5. What a request presents -/

/-- The credential that a request presents to the handler of its route: the token of its headers,
    query or cookie, that of the form, or the secret of the token request. -/
def HttpStack.presents (S : HttpStack) (req : HttpRequest) : Option String :=
  match route req.path, req.method with
  | .mcp, _ => extractToken req.headers req.query
  | .sse, _ => extractToken req.headers req.query
  | .login, .post =>
      match S.form req with
      | .ok form => some form.token
      | .error _ => none
  | .login, _ => extractToken req.headers req.query
  | .token, .post =>
      match S.bytes req with
      | .ok body =>
          if (S.tokenRequest body).grant = "authorization_code" then none
          else (S.tokenRequest body).secret req.headers
      | .error _ => none
  | _, _ => none

/-- The authorization code that a request presents. -/
def HttpStack.presentsCode (S : HttpStack) (req : HttpRequest) : Option String :=
  match route req.path, req.method, S.bytes req with
  | .token, .post, .ok body => (S.tokenRequest body).asksCode
  | _, _, _ => none

section TokenRoute

variable {S : HttpStack} {req : HttpRequest} {body : List UInt8}

theorem HttpStack.presents_token (hroute : route req.path = .token) (hpost : req.method = .post)
    (hbody : S.bytes req = .ok body) :
    S.presents req = if (S.tokenRequest body).grant = "authorization_code" then none
      else (S.tokenRequest body).secret req.headers := by
  rw [HttpStack.presents, hroute, hpost, hbody]

theorem HttpStack.presentsCode_token (hroute : route req.path = .token)
    (hpost : req.method = .post) (hbody : S.bytes req = .ok body) :
    S.presentsCode req = (S.tokenRequest body).asksCode := by
  rw [HttpStack.presentsCode, hroute, hpost, hbody]

end TokenRoute

/-- A code is live: it has been issued, not taken out, and has not expired. -/
def LiveCode (codes : AuthCodes) (now : Nat) (code : String) : Prop :=
  ∃ entry, codes.lookup code = some entry ∧ now < entry.expiresAt

/-- The request knows neither the token nor a live code. -/
structure Stranger (S : HttpStack) (token : String) (now : Nat) (codes : AuthCodes)
    (req : HttpRequest) : Prop where
  token : S.presents req ≠ some token
  code : ∀ code, S.presentsCode req = some code → ¬ LiveCode codes now code

/-! ## 6. What a stranger is answered -/

/-- The codes after a token request of a stranger: an expired code that it names is taken out. -/
def strangerCodes (codes : AuthCodes) (tr : TokenRequest) : AuthCodes :=
  if tr.grant = "authorization_code" then
    match tr.code with
    | some code => codes.erase code
    | none => codes
  else codes

/-- **The answer to a stranger**, without the token. -/
def strangerAnswer (S : HttpStack) (codes : AuthCodes) (req : HttpRequest) :
    HttpResponse × AuthCodes :=
  match route req.path with
  | .mcp => (if req.method = .options then corsPreflight else unauthorizedResponse, codes)
  | .healthz => (getRoute req.method Relayfs.healthz, codes)
  | .protectedResource => (getRoute req.method oauthProtectedResource, codes)
  | .authorizationServer => (getRoute req.method oauthAuthorizationServer, codes)
  | .sse => (getRoute req.method unauthorizedResponse, codes)
  | .login =>
      match req.method with
      | .post =>
          match S.form req with
          | .ok form => (invalidPairingToken form, codes)
          | .error res => (res, codes)
      | .get | .head =>
          match S.query req with
          | .ok query =>
              (getRoute req.method
                (htmlResponse (loginForm (errorHtml (query.error.getD ""))
                  (query.redirectUri.getD "") (query.state.getD "")
                  (query.responseType.getD "code") (query.clientId.getD ""))), codes)
          | .error res => (getRoute req.method res, codes)
      | _ => (methodNotAllowed "GET,HEAD,POST", codes)
  | .token =>
      match req.method with
      | .post =>
          match S.bytes req with
          | .ok body => (tokenResponse "" false, strangerCodes codes (S.tokenRequest body))
          | .error res => (res, codes)
      | _ => (methodNotAllowed "POST", codes)
  | .unknown => (unknownRoute, codes)

section Stranger

variable {S : HttpStack} {token : String} {now : Nat} {codes : AuthCodes} {req : HttpRequest}

theorem authMiddleware_stranger (ht : token ≠ "")
    (h : extractToken req.headers req.query ≠ some token) :
    authMiddleware token req
      = .response (if req.method = .options then corsPreflight else unauthorizedResponse) := by
  rw [authMiddleware, if_neg ht, if_neg h, apply_ite HttpAnswer.response]

theorem legacySse_stranger (ht : token ≠ "")
    (h : extractToken req.headers req.query ≠ some token) :
    legacySse token req = unauthorizedResponse := if_pos ⟨ht, h⟩

theorem loginPage_stranger {query : AuthorizeQuery} (ht : token ≠ "")
    (h : extractToken req.headers req.query ≠ some token) :
    loginPage token query req
      = htmlResponse (loginForm (errorHtml (query.error.getD "")) (query.redirectUri.getD "")
          (query.state.getD "") (query.responseType.getD "code") (query.clientId.getD "")) :=
  if_neg (not_or.mpr ⟨ht, h⟩)

theorem authorizeSubmit_stranger {form : AuthorizeForm} {code : String} (ht : token ≠ "")
    (h : form.token ≠ token) :
    authorizeSubmit token now code codes form = (invalidPairingToken form, codes) := by
  rw [authorizeSubmit, checkForm, if_pos ⟨ht, h⟩]

/-- A code that is not live is refused; if it is there it is taken out. -/
theorem redeem_of_not_live {code : String} (h : ¬ LiveCode codes now code) :
    redeem codes now code = (false, codes.erase code) := by
  unfold redeem
  cases hl : codes.lookup code with
  | none =>
    dsimp only
    rw [erase_of_lookup_eq_none hl]
  | some entry =>
    dsimp only
    rw [decide_eq_false fun hnow => h ⟨entry, hl, hnow⟩]

theorem grantToken_stranger {headers : HeaderMap} {tr : TokenRequest} (ht : token ≠ "")
    (hsecret : tr.grant ≠ "authorization_code" → tr.secret headers ≠ some token)
    (hcode : tr.grant = "authorization_code" → ∀ code, tr.code = some code →
      ¬ LiveCode codes now code) :
    grantToken token now codes headers tr = (false, strangerCodes codes tr) := by
  unfold grantToken strangerCodes
  by_cases hg : tr.grant = "authorization_code"
  · rw [if_pos hg, if_pos hg]
    cases hc : tr.code with
    | none => rfl
    | some code => exact redeem_of_not_live (hcode hg code hc)
  · rw [if_neg hg, if_neg hg, decide_eq_false (not_or.mpr ⟨ht, hsecret hg⟩)]

theorem tokenEndpoint_stranger {headers : HeaderMap} {body : List UInt8} (ht : token ≠ "")
    (hsecret : (S.tokenRequest body).grant ≠ "authorization_code" →
      (S.tokenRequest body).secret headers ≠ some token)
    (hcode : (S.tokenRequest body).grant = "authorization_code" → ∀ code,
      (S.tokenRequest body).code = some code → ¬ LiveCode codes now code) :
    tokenEndpoint S token now codes headers body
      = (tokenResponse "" false, strangerCodes codes (S.tokenRequest body)) := by
  rw [tokenEndpoint, grantToken_stranger ht hsecret hcode]
  rfl

/-- **The server tells a stranger nothing of the token.** -/
theorem serve_stranger {rnd : UInt64 × UInt64} (ht : token ≠ "")
    (h : Stranger S token now codes req) :
    serve S token now rnd codes req
      = (.response (strangerAnswer S codes req).1, (strangerAnswer S codes req).2) := by
  have htok := h.token
  have hcode := h.code
  unfold HttpStack.presents at htok
  unfold HttpStack.presentsCode at hcode
  unfold serve strangerAnswer
  cases hr : route req.path with
  | mcp =>
    simp only [hr] at htok ⊢
    rw [authMiddleware_stranger ht htok]
  | sse =>
    simp only [hr] at htok ⊢
    rw [legacySse_stranger ht htok]
  | login =>
    simp only [hr] at htok ⊢
    cases hm : req.method with
    | post =>
      simp only [hm] at htok ⊢
      cases hf : S.form req with
      | ok form =>
        simp only [hf] at htok ⊢
        rw [authorizeSubmit_stranger ht fun heq => htok (congrArg some heq)]
      | error res => rfl
    | get | head =>
      simp only [hm] at htok ⊢
      cases hq : S.query req with
      | ok query =>
        dsimp only
        rw [loginPage_stranger ht htok]
      | error res => rfl
    | _ => rfl
  | token =>
    cases hm : req.method with
    | post =>
      cases hb : S.bytes req with
      | ok body =>
        simp only [hr, hm, hb] at htok hcode ⊢
        rw [tokenEndpoint_stranger ht (fun hg => by rwa [if_neg hg] at htok)
          (fun hg => by rwa [TokenRequest.asksCode, if_pos hg] at hcode)]
      | error res => rfl
    | _ => rfl
  | _ => rfl

end Stranger

/-- **Two tokens answer a stranger alike**: the same response and the same codes, and the MCP
    service is not reached. -/
theorem token_noninterference {S : HttpStack} {t₁ t₂ : String} {now : Nat}
    {rnd : UInt64 × UInt64} {codes : AuthCodes} {req : HttpRequest} (ht₁ : t₁ ≠ "") (ht₂ : t₂ ≠ "")
    (h₁ : Stranger S t₁ now codes req) (h₂ : Stranger S t₂ now codes req) :
    serve S t₁ now rnd codes req = serve S t₂ now rnd codes req
      ∧ (serve S t₁ now rnd codes req).1 ≠ .mcp := by
  rw [serve_stranger ht₁ h₁, serve_stranger ht₂ h₂]
  exact ⟨rfl, nofun⟩

/-- The extractors on a request without a query and without a content type, whose body is no
    JSON. -/
def plainStack : HttpStack where
  query _ := .ok ⟨none, none, none, none, none⟩
  form _ := .error ⟨415, [("content-type", "text/plain; charset=utf-8")],
    .text "Form requests must have `Content-Type: application/x-www-form-urlencoded`"⟩
  bytes req := .ok req.body
  fromSlice _ := none

theorem plainStack_tokenRequest (body : List UInt8) :
    plainStack.tokenRequest body = formRequest body := rfl

/-- A token request with a wrong password. -/
def wrongPassword : HttpRequest :=
  ⟨.post, "/oauth/token", none, [], utf8Bytes "grant_type=password&password=c"⟩

theorem formRequest_wrongPassword :
    formRequest wrongPassword.body = ⟨some "password", none, none, none, some "c", none⟩ := by
  have hsplit : splitAtChar '&' "grant_type=password&password=c"
      = ["grant_type=password", "password=c"] := (splitAtChar_ofList _ _).trans rfl
  have hgrant : splitOnce '=' "grant_type=password" = some ("grant_type", "password") :=
    (splitOnce_ofList _ _).trans rfl
  have hsecret : splitOnce '=' "password=c" = some ("password", "c") :=
    (splitOnce_ofList _ _).trans rfl
  have hpassword : decodePercent "password" = "password" := (decodePercent_ofList _).trans rfl
  have hc : decodePercent "c" = "c" := (decodePercent_ofList _).trans rfl
  rw [wrongPassword, formRequest_utf8Bytes, hsplit]
  simp only [List.foldl_cons, List.foldl_nil, hgrant, hsecret, hpassword, hc]
  rfl

theorem route_wrongPassword : route wrongPassword.path = .token := rfl

theorem presents_wrongPassword : plainStack.presents wrongPassword = some "c" := by
  have hgrant : (⟨some "password", none, none, none, some "c", none⟩ : TokenRequest).grant
      ≠ "authorization_code" := by
    simp [TokenRequest.grant]
  rw [HttpStack.presents_token route_wrongPassword rfl rfl, plainStack_tokenRequest,
    formRequest_wrongPassword, if_neg hgrant]
  rfl

theorem presentsCode_wrongPassword : plainStack.presentsCode wrongPassword = none := by
  rw [HttpStack.presentsCode_token route_wrongPassword rfl rfl, plainStack_tokenRequest,
    formRequest_wrongPassword]
  exact if_neg (by simp [TokenRequest.grant])

theorem token_noninterference_password :
    serve plainStack "a" 0 (0, 0) ∅ wrongPassword = serve plainStack "b" 0 (0, 0) ∅ wrongPassword
      ∧ (serve plainStack "a" 0 (0, 0) ∅ wrongPassword).1 ≠ .mcp := by
  have hcode : ∀ code, plainStack.presentsCode wrongPassword = some code →
      ¬ LiveCode ∅ 0 code := by
    intro code h
    rw [presentsCode_wrongPassword] at h
    cases h
  refine token_noninterference (by decide) (by decide) ⟨?_, hcode⟩ ⟨?_, hcode⟩
  · rw [presents_wrongPassword]
    decide
  · rw [presents_wrongPassword]
    decide

end Relayfs
