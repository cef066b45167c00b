import MemoryPlane.Python.Base64Url
import MemoryPlane.Python.JsonOperations
import MemoryPlane.Python.JsonText
import MemoryPlane.Python.Utf8

/-!
# Browser sessions

A signed token stands in for the bearer key of an operator. It holds its claims, readable by
anyone, and a signature of them under the key of the server.
-/

namespace MemoryPlane

/-- Authenticated API principal derived from a bearer token. -/
structure ApiPrincipal where
  name : String
  scopes : List String
  secretFingerprint : Option String := none
  tenantId : Option UUID := none
  workspaceId : Option UUID := none
  agentId : Option UUID := none

/-- The parts of the standard library that a session uses. -/
structure SessionRuntime where
  unicode : Unicode
  floats : FloatText
  /-- `json.loads` of bytes that are no UTF-8 text of finite numbers and paired surrogates. -/
  loadsOther : List UInt8 → Except Exn JsonValue
  /-- The HMAC-SHA-256 of a message under a key. -/
  hmac : List UInt8 → List UInt8 → List UInt8

namespace UiSession

variable (rt : SessionRuntime) (signingKey : String)

/-- The signature of an encoded payload. -/
def signature (encoded : List Char) : List Char :=
  Base64.urlEncode (rt.hmac (Utf8.encode signingKey.toList) (Utf8.encode encoded))

/-- What goes into a session: besides the arguments the second at which it is issued and the token
against request forgery that was drawn. -/
structure Issue where
  principal : ApiPrincipal
  ttlSeconds : ℤ
  now : ℤ
  csrfToken : String

namespace Issue

variable (issue : Issue)

def expiresAt : ℤ := issue.now + issue.ttlSeconds

/-- The claims of a session. -/
def payload : JsonObject :=
  [("sub", .str issue.principal.name),
    ("fp", (issue.principal.secretFingerprint.map Json.str).getD .null), ("iat", .int issue.now),
    ("exp", .int issue.expiresAt), ("csrf", .str issue.csrfToken)]

def encoded : List Char :=
  Base64.urlEncode (Utf8.encode (Json.dumps rt.floats true (.obj issue.payload)))

/-- The token that `_issue_ui_session` returns. -/
def token : String :=
  String.ofList (issue.encoded rt ++ '.' :: signature rt signingKey (issue.encoded rt))

end Issue

/-- `_issue_ui_session`: a time of too many digits cannot be printed. -/
def issueUiSession (issue : Issue) : Except Exn (String × String × ℤ) :=
  bif (Json.obj issue.payload).hasLongInt then
    .error (.valueError "Exceeds the limit (4300 digits) for integer string conversion")
  else .ok (issue.token rt signingKey, issue.csrfToken, issue.expiresAt)

def isAscii (cs : List Char) : Bool := cs.all fun c => c.toNat < 128

/-- `token.split(".", 1)` into two parts. -/
def splitToken (token : List Char) : Except Exn (List Char × List Char) :=
  if '.' ∈ token then .ok (token.takeWhile (· ≠ '.'), (token.dropWhile (· ≠ '.')).tail)
  else .error (.valueError "not enough values to unpack (expected 2, got 1)")

/-- `json.loads(data)`. -/
def loads (data : List UInt8) : Except Exn JsonValue :=
  match (Utf8.decode data).bind (Json.loads rt.floats) with
  | some value =>
    bif value.hasLongInt then
      .error (.valueError "Exceeds the limit (4300 digits) for integer string conversion")
    else .ok (JsonValue.ofJson value)
  | none => rt.loadsOther data

/-- The decoded payload of a token. -/
def readPayload (encoded : List Char) : Except Exn JsonValue := do
  let data ← (Base64.urlDecode encoded).elim (.error (.valueError "Incorrect padding")) .ok
  loads rt data

/-- Shape and expiry of a payload. -/
def checkClaims (now : ℤ) : JsonValue → Except Exn (Option JsonMembers)
  | .obj payload => do
    let exp ← (JsonValue.getD payload "exp" (.int 0)).toInt rt.unicode
    if exp ≤ now then return none
    if ["sub", "fp", "csrf"].all fun field =>
        (JsonValue.get payload field).textWith fun _ => true then
      return some payload
    return none
  | _ => .ok none

/-- The checks of the two parts of a token. -/
def checkParts (encoded given : List Char) (now : ℤ) : Except Exn (Option JsonMembers) :=
  if isAscii encoded = false then
    .error (.valueError "'ascii' codec can't encode characters: ordinal not in range(128)")
  else if isAscii given = false then
    .error (.typeError "comparing strings with non-ASCII characters is not supported")
  else if given ≠ signature rt signingKey encoded then .ok none
  else (readPayload rt encoded).bind (checkClaims rt now)

/-- What the verifier does before an exception is handled. -/
def checkToken (token : String) (now : ℤ) : Except Exn (Option JsonMembers) :=
  (splitToken token.toList).bind fun (encoded, given) =>
    checkParts rt signingKey encoded given now

/-- `_verify_ui_session`: a value or type error means that there is no session. An overflow of the
expiry is not handled. -/
def verifyUiSession (token : String) (now : ℤ) : Except Exn (Option JsonMembers) :=
  match checkToken rt signingKey token now with
  | .error (.valueError _) | .error (.typeError _) => .ok none
  | outcome => outcome

end UiSession

end MemoryPlane
