/-
  File:      Relayfs/Http/Message.lean
  Subject:   REQUESTS, RESPONSES AND CREDENTIALS (bridge/src/http.rs, and what it uses of `http`).

  * `HttpRequest`, `HttpResponse` -- what a handler reads and what it answers; the length of a
    body and the date are the server's and not here;
  * `decodePercent` -- `decode_percent`, with what it makes of a broken escape;
  * `extractToken` -- `extract_token`: the `Authorization` header, then the query, then the cookie.
-/
import Relayfs.Lib.Utf8
import Relayfs.Wire.Json

namespace Relayfs

open Lib

/-! ## 1. Texts -/

/-- `split` at a character. -/
def splitAtChar (sep : Char) (s : String) : List String :=
  (s.toList.splitOn sep).map String.ofList

/-- `split_once` at a character. -/
def splitOnce (sep : Char) (s : String) : Option (String × String) :=
  match s.toList.span (· ≠ sep) with
  | (key, _ :: value) => some (String.ofList key, String.ofList value)
  | (_, []) => none

theorem splitAtChar_ofList (sep : Char) (chars : List Char) :
    splitAtChar sep (String.ofList chars) = (chars.splitOn sep).map String.ofList := by
  rw [splitAtChar, String.toList_ofList]

theorem splitOnce_ofList (sep : Char) (chars : List Char) :
    splitOnce sep (String.ofList chars) =
      match chars.span (· ≠ sep) with
      | (key, _ :: value) => some (String.ofList key, String.ofList value)
      | (_, []) => none := by
  rw [splitOnce, String.toList_ofList]

/-- `strip_prefix`. -/
def stripText (start s : String) : Option String :=
  if start.toList <+: s.toList then some (String.ofList (s.toList.drop start.length)) else none

/-- `char::is_whitespace`: the property White_Space. -/
def isWhiteSpace (c : Char) : Bool :=
  let n := c.toNat
  (9 ≤ n ∧ n ≤ 13) ∨ n = 0x20 ∨ n = 0x85 ∨ n = 0xA0 ∨ n = 0x1680 ∨ (0x2000 ≤ n ∧ n ≤ 0x200A) ∨
    n = 0x2028 ∨ n = 0x2029 ∨ n = 0x202F ∨ n = 0x205F ∨ n = 0x3000

/-- `trim`. -/
def trimText (s : String) : String :=
  String.ofList (((s.toList.dropWhile isWhiteSpace).reverse.dropWhile isWhiteSpace).reverse)

/-! ## 2. Messages -/

/-- `Method`, as far as routing looks at it. -/
inductive Method where
  | get
  | head
  | post
  | options
  | other (name : String)
  deriving DecidableEq, Repr

/-- The headers of a request: lower-case names, and values of any bytes. -/
abbrev HeaderMap := List (String × List UInt8)

/-- `HeaderMap::get`: the first value. -/
def HeaderMap.get (headers : HeaderMap) (name : String) : Option (List UInt8) :=
  (headers.find? fun h => h.1 = name).map Prod.snd

/-- `HeaderValue::to_str`: visible ASCII and tabs. -/
def headerText (value : List UInt8) : Option String :=
  if value.all fun b => b = 9 ∨ (32 ≤ b ∧ b < 127) then
    some (String.ofList (value.map fun b => Char.ofNat b.toNat))
  else none

/-- `HeaderValue::from_str`: no control characters but tabs. -/
def headerValue (s : String) : Option String :=
  if (utf8Bytes s).all fun b => b = 9 ∨ (32 ≤ b ∧ b ≠ 127) then some s else none

theorem headerValue_ofList (chars : List Char) :
    headerValue (String.ofList chars) =
      if (chars.flatMap String.utf8EncodeChar).all fun b => b = 9 ∨ (32 ≤ b ∧ b ≠ 127) then
        some (String.ofList chars)
      else none := by
  rw [headerValue, utf8Bytes, String.toList_ofList]

structure HttpRequest where
  method : Method
  path : String
  query : Option String
  headers : HeaderMap
  body : List UInt8

/-- A body is a text, the text of a JSON value, or a stream that sends one text and then another
    again and again. -/
inductive HttpBody where
  | text (s : String)
  | json (v : Json)
  | stream (first again : String)

structure HttpResponse where
  status : Nat
  headers : List (String × String)
  body : HttpBody

/-- `HeaderMap::insert`: the name has this value only. -/
def HttpResponse.insertHeader (res : HttpResponse) (name value : String) : HttpResponse :=
  { res with headers := (res.headers.filter fun h => h.1 ≠ name) ++ [(name, value)] }

/-- A header of a response, as a client reads it. -/
def HttpResponse.header (res : HttpResponse) (name : String) : Option String :=
  (res.headers.find? fun h => h.1 = name).map Prod.snd

/-! ## 3. Credentials -/

/-- A hexadecimal digit. -/
def hexDigit (b : UInt8) : Option Nat :=
  let n := b.toNat
  if 48 ≤ n ∧ n ≤ 57 then some (n - 48)
  else if 65 ≤ n ∧ n ≤ 70 then some (n - 55)
  else if 97 ≤ n ∧ n ≤ 102 then some (n - 87)
  else none

/-- `u8::from_str_radix` of two bytes in base 16: a sign may stand for the first digit. -/
def hexByte (h1 h2 : UInt8) : Option UInt8 :=
  if h1 = 43 then (hexDigit h2).map UInt8.ofNat
  else do return UInt8.ofNat ((← hexDigit h1) * 16 + (← hexDigit h2))

/-- The bytes of `decode_percent`. What follows a `%` and is no escape is dropped with it. -/
def decodeBytes : List UInt8 → List UInt8
  | [] => []
  | 37 :: h1 :: h2 :: rest =>
      match hexByte h1 h2 with
      | some byte => byte :: decodeBytes rest
      | none => decodeBytes rest
  | 37 :: _ => []
  | 43 :: rest => 32 :: decodeBytes rest
  | b :: rest => b :: decodeBytes rest

theorem decodeBytes_percent_cons (h1 h2 : UInt8) (rest : List UInt8) :
    decodeBytes (37 :: h1 :: h2 :: rest) =
      match hexByte h1 h2 with
      | some byte => byte :: decodeBytes rest
      | none => decodeBytes rest := rfl

theorem decodeBytes_plus (rest : List UInt8) : decodeBytes (43 :: rest) = 32 :: decodeBytes rest :=
  rfl

/-- `decode_percent`. -/
def decodePercent (input : String) : String := fromUtf8Lossy (decodeBytes (utf8Bytes input))

theorem decodePercent_ofList (chars : List Char) : decodePercent (String.ofList chars)
    = String.ofList (utf8Chars none (decodeBytes (chars.flatMap String.utf8EncodeChar))) := by
  rw [decodePercent, utf8Bytes, String.toList_ofList, fromUtf8Lossy]

/-- The credential of the `Authorization` header. -/
def bearerToken (headers : HeaderMap) : Option String := do
  let auth ← headerText (← headers.get "authorization")
  let token := trimText (← stripText "Bearer " auth)
  if token = "" then none else some token

/-- A pair of the query or of the cookie that holds a token. -/
def isTokenKey (key : String) : Bool := key = "token" ∨ key = "access_token"

/-- The credential of a pair of the query. -/
def queryPairToken (pair : String) : Option String := do
  let (key, value) ← splitOnce '=' pair
  let decoded := decodePercent value
  if isTokenKey key ∧ decoded ≠ "" then some decoded else none

/-- The credential of a part of the cookie. -/
def cookiePartToken (part : String) : Option String := do
  let (key, value) ← splitOnce '=' (trimText part)
  let value := trimText value
  if isTokenKey key ∧ value ≠ "" then some value else none

/-- **`extract_token`.** -/
def extractToken (headers : HeaderMap) (query : Option String) : Option String :=
  bearerToken headers
    <|> query.bind (fun q => (splitAtChar '&' q).findSome? queryPairToken)
    <|> ((headers.get "cookie").bind headerText).bind
      (fun cookie => (splitAtChar ';' cookie).findSome? cookiePartToken)

end Relayfs
