import MemoryPlane.Api.UiSessions
import MemoryPlane.Lib.Proc
import MemoryPlane.Python.JsonOrder

/-!
# Sessions are accepted as issued

A token is accepted until it expires if its principal has a fingerprint, and never otherwise. As
long as nobody forges a signature, no other text is accepted and no text makes the verifier raise.
-/

namespace MemoryPlane

namespace UiSession

variable (rt : SessionRuntime) (signingKey : String)

/-- Whoever wrote the text has a signature under the key for nothing but what was issued. -/
def Unforged (issued : Set Issue) (token : String) : Prop :=
  ∀ encoded given, token.toList = encoded ++ '.' :: given →
    given = signature rt signingKey encoded → ∃ issue ∈ issued, ∃ result,
      issueUiSession rt signingKey issue = .ok result ∧ issue.encoded rt = encoded

/-- The claims that the verifier returns for an issued token at some second. -/
def Issue.accepted (issue : Issue) (now : ℤ) : Option JsonMembers :=
  if issue.principal.secretFingerprint.isSome ∧ now < issue.expiresAt then
    some (JsonValue.ofMembers (Json.sortedMembers issue.payload))
  else none

section Parts

variable {cs ds : List Char}

theorem splitToken_append (h : '.' ∉ cs) : splitToken (cs ++ '.' :: ds) = .ok (cs, ds) := by
  have hkeep : ∀ c ∈ cs, decide (c ≠ '.') = true := by
    intro c hc
    rw [decide_eq_true_eq]
    rintro rfl
    exact h hc
  rw [splitToken, if_pos (by simp), List.takeWhile_append_of_pos hkeep,
    List.dropWhile_append_of_pos hkeep]
  simp

theorem isAscii_urlEncode (data : List UInt8) : isAscii (Base64.urlEncode data) = true := by
  rw [isAscii, List.all_eq_true]
  exact fun c hc => decide_eq_true (Base64.mem_urlEncode hc).2

end Parts

/-- An issued session has times that can be printed. -/
theorem issueUiSession_eq_ok {issue : Issue} {result : String × String × ℤ}
    (h : issueUiSession rt signingKey issue = .ok result) :
    (Json.obj issue.payload).hasLongInt = false ∧ result.1 = issue.token rt signingKey := by
  rw [issueUiSession] at h
  cases hlong : (Json.obj issue.payload).hasLongInt with
  | true =>
    rw [hlong] at h
    cases h
  | false =>
    rw [hlong, cond_false] at h
    exact ⟨rfl, (congrArg Prod.fst (Except.ok.inj h)).symm⟩

/-- The claims of an issue are read back from what it encodes. -/
theorem Issue.readPayload_encoded (issue : Issue)
    (hshort : (Json.obj issue.payload).hasLongInt = false) :
    readPayload rt (issue.encoded rt) =
      .ok (.obj (JsonValue.ofMembers (Json.sortedMembers issue.payload))) := by
  have hfloats : (Json.obj issue.payload).FloatsIn rt.floats := by
    refine ⟨trivial, ?_, trivial, trivial, trivial, trivial⟩
    cases issue.principal.secretFingerprint <;> trivial
  have hloads : (Utf8.decode (Utf8.encode (Json.dumps rt.floats true (.obj issue.payload)))).bind
      (Json.loads rt.floats) = some (Json.obj issue.payload).sorted := by
    rw [Utf8.decode_encode, Option.bind_some, Json.loads_dumps hfloats]
  rw [readPayload, Issue.encoded, Base64.urlDecode_urlEncode, Option.elim_some, Except.ok_bind,
    loads, hloads]
  dsimp only
  rw [Json.hasLongInt_sorted hshort]
  rfl

/-- The claims of an issue have their shape if the principal has a fingerprint. -/
theorem Issue.checkClaims_payload (issue : Issue) (now : ℤ) :
    checkClaims rt now (.obj (JsonValue.ofMembers (Json.sortedMembers issue.payload))) =
      .ok (issue.accepted now) := by
  have hget : ∀ name value default, JsonObject.get issue.payload name = some value →
      JsonValue.getD (JsonValue.ofMembers (Json.sortedMembers issue.payload)) name default =
        JsonValue.ofJson value.sorted := by
    intro name value default h
    rw [JsonValue.getD_ofMembers, Json.get_sortedMembers, h]
    rfl
  have hexp : JsonValue.getD (JsonValue.ofMembers (Json.sortedMembers issue.payload)) "exp"
      (.int 0) = .int issue.expiresAt := hget "exp" (.int issue.expiresAt) _ rfl
  have hsub : JsonValue.get (JsonValue.ofMembers (Json.sortedMembers issue.payload)) "sub" =
      .str issue.principal.name := hget "sub" (.str issue.principal.name) .null rfl
  have hcsrf : JsonValue.get (JsonValue.ofMembers (Json.sortedMembers issue.payload)) "csrf" =
      .str issue.csrfToken := hget "csrf" (.str issue.csrfToken) .null rfl
  have hfp : ((JsonValue.get (JsonValue.ofMembers (Json.sortedMembers issue.payload))
      "fp").textWith fun _ => true) = issue.principal.secretFingerprint.isSome := by
    refine (congrArg (JsonValue.textWith fun _ => true) (hget "fp" _ .null rfl)).trans ?_
    cases issue.principal.secretFingerprint <;> rfl
  have hshape : (["sub", "fp", "csrf"].all fun field =>
      (JsonValue.get (JsonValue.ofMembers (Json.sortedMembers issue.payload)) field).textWith
        fun _ => true) = issue.principal.secretFingerprint.isSome := by
    simp only [List.all_cons, List.all_nil, hsub, hcsrf, hfp]
    exact Bool.and_true _
  rw [checkClaims, hexp, JsonValue.toInt, Except.ok_bind]
  simp only [hshape, Issue.accepted]
  by_cases hnow : now < issue.expiresAt
  · rw [if_neg (not_le.mpr hnow)]
    cases issue.principal.secretFingerprint with
    | none => rfl
    | some fp =>
      have haccepted : (some fp).isSome = true ∧ now < issue.expiresAt := ⟨rfl, hnow⟩
      rw [if_pos haccepted]
      rfl
  · rw [if_pos (not_lt.mp hnow), if_neg fun h => hnow h.2]
    rfl

/-- A token with a signature under the key is accepted if its payload is. -/
theorem checkToken_of_signed {encoded : List Char} (hdot : '.' ∉ encoded)
    (hascii : isAscii encoded = true) (now : ℤ) :
    checkToken rt signingKey
        (String.ofList (encoded ++ '.' :: signature rt signingKey encoded)) now =
      (readPayload rt encoded).bind (checkClaims rt now) := by
  have hsignature : isAscii (signature rt signingKey encoded) = true := isAscii_urlEncode _
  rw [checkToken, String.toList_ofList, splitToken_append hdot]
  simp only [Except.bind, checkParts, hascii, hsignature]
  rw [if_neg (Ne.symm Bool.false_ne_true), if_neg (Ne.symm Bool.false_ne_true),
    if_neg (not_not.mpr rfl)]

theorem verifyUiSession_token {issue : Issue}
    (hshort : (Json.obj issue.payload).hasLongInt = false) (now : ℤ) :
    verifyUiSession rt signingKey (issue.token rt signingKey) now = .ok (issue.accepted now) := by
  have hdot : '.' ∉ issue.encoded rt := fun h => (Base64.mem_urlEncode h).1 rfl
  rw [verifyUiSession, Issue.token, checkToken_of_signed rt signingKey hdot (isAscii_urlEncode _),
    issue.readPayload_encoded rt hshort, Except.bind, issue.checkClaims_payload rt]

/-- A text without a signature under the key is not accepted: every exception on the way to the
comparison of the signatures is handled. -/
theorem verifyUiSession_of_unsigned {token : String} {now : ℤ}
    (h : ∀ encoded, token.toList ≠ encoded ++ '.' :: signature rt signingKey encoded) :
    verifyUiSession rt signingKey token now = .ok none := by
  by_cases hdot : '.' ∈ token.toList
  · obtain ⟨encoded, given, heq, hencoded⟩ := List.eq_append_cons_of_mem hdot
    have hgiven : given ≠ signature rt signingKey encoded := fun hsame => h encoded (hsame ▸ heq)
    rw [verifyUiSession, checkToken, heq, splitToken_append hencoded]
    simp only [Except.bind, checkParts]
    by_cases hascii : isAscii encoded = false
    · rw [if_pos hascii]
    · by_cases hascii' : isAscii given = false
      · rw [if_neg hascii, if_pos hascii']
      · rw [if_neg hascii, if_neg hascii', if_pos hgiven]
  · rw [verifyUiSession, checkToken, splitToken, if_neg hdot]
    rfl

/-- An infinite expiry under a signature, which only a forger can have, makes the verifier raise. -/
theorem verifyUiSession_of_infinite {encoded : List Char} {payload : JsonMembers} {negative : Bool}
    (hdot : '.' ∉ encoded) (hascii : isAscii encoded = true)
    (hpayload : readPayload rt encoded = .ok (.obj payload))
    (hexp : JsonValue.getD payload "exp" (.int 0) = .float (.infinite negative)) (now : ℤ) :
    verifyUiSession rt signingKey
        (String.ofList (encoded ++ '.' :: signature rt signingKey encoded)) now =
      .error (.overflowError "cannot convert float infinity to integer") := by
  rw [verifyUiSession, checkToken_of_signed rt signingKey hdot hascii, hpayload, Except.bind,
    checkClaims, hexp]
  rfl

/-- A session is accepted as issued; as long as nobody forges a signature, nothing that was not
issued is accepted, and nothing makes the verifier raise. -/
theorem session_exact (issued : Set Issue) :
    (∀ (issue : Issue) (result : String × String × ℤ),
      issueUiSession rt signingKey issue = .ok result →
        ∀ now, verifyUiSession rt signingKey result.1 now = .ok (issue.accepted now)) ∧
    (∀ token, Unforged rt signingKey issued token →
      (∀ issue ∈ issued, ∀ result, issueUiSession rt signingKey issue = .ok result →
        token ≠ result.1) →
        ∀ now, verifyUiSession rt signingKey token now = .ok none) ∧
    ∀ token, Unforged rt signingKey issued token →
      ∀ now, ∃ claims, verifyUiSession rt signingKey token now = .ok claims := by
  have hissued : ∀ (issue : Issue) (result : String × String × ℤ),
      issueUiSession rt signingKey issue = .ok result →
        ∀ now, verifyUiSession rt signingKey result.1 now = .ok (issue.accepted now) := by
    intro issue result h now
    obtain ⟨hshort, htoken⟩ := issueUiSession_eq_ok rt signingKey h
    rw [htoken, verifyUiSession_token rt signingKey hshort]
  -- a signed text is the token of the issue that the signature belongs to
  have hsigned : ∀ token, Unforged rt signingKey issued token → ∀ encoded,
      token.toList = encoded ++ '.' :: signature rt signingKey encoded →
        ∃ issue ∈ issued, ∃ result, issueUiSession rt signingKey issue = .ok result ∧
          token = result.1 := by
    intro token hunforged encoded heq
    obtain ⟨issue, hissue, result, hresult, rfl⟩ := hunforged encoded _ heq rfl
    refine ⟨issue, hissue, result, hresult, ?_⟩
    rw [(issueUiSession_eq_ok rt signingKey hresult).2]
    exact String.toList_inj.mp (heq.trans String.toList_ofList.symm)
  refine ⟨hissued, fun token hunforged hother now => ?_, fun token hunforged now => ?_⟩
  · refine verifyUiSession_of_unsigned rt signingKey fun encoded heq => ?_
    obtain ⟨issue, hissue, result, hresult, htoken⟩ := hsigned token hunforged encoded heq
    exact hother issue hissue result hresult htoken
  · by_cases h : ∃ encoded, token.toList = encoded ++ '.' :: signature rt signingKey encoded
    · obtain ⟨encoded, heq⟩ := h
      obtain ⟨issue, -, result, hresult, rfl⟩ := hsigned token hunforged encoded heq
      exact ⟨_, hissued issue result hresult now⟩
    · exact ⟨none, verifyUiSession_of_unsigned rt signingKey (not_exists.mp h)⟩

/-- A signature that shows its key, with the tables of ASCII. -/
def plainSessions : SessionRuntime where
  unicode := asciiUnicode
  floats := halfText
  loadsOther _ := .error (.valueError "Expecting value")
  hmac key message := key ++ message

/-- A session of the server key, for an hour. -/
def serverSession (fingerprint : Option String) : Issue where
  principal := { name := "server", scopes := ["admin"], secretFingerprint := fingerprint }
  ttlSeconds := 3600
  now := 1767225600
  csrfToken := "csrf"

/-- A text with a foreign signature. -/
theorem unsigned_dot : ∀ encoded, ".x".toList ≠
    encoded ++ '.' :: signature plainSessions "key" encoded := by
  have hempty : signature plainSessions "key" [] ≠ ['x'] := by decide
  intro encoded heq
  cases encoded with
  | nil => exact hempty (List.cons.inj heq).2.symm
  | cons c cs =>
    have htail := (List.cons.inj heq).2
    cases cs with
    | nil => exact absurd (List.cons.inj htail).1 (by decide)
    | cons d ds => exact absurd (List.cons.inj htail).2.symm (by simp)

theorem issueUiSession_server (fingerprint : Option String) :
    issueUiSession plainSessions "key" (serverSession fingerprint) =
      .ok ((serverSession fingerprint).token plainSessions "key", "csrf", 1767229200) := by
  have hprinted : isTooLong 1767225600 = false ∧ isTooLong 1767229200 = false := by decide +kernel
  have hshort : (Json.obj (serverSession fingerprint).payload).hasLongInt = false := by
    cases fingerprint <;>
    · simp only [Issue.payload, Json.hasLongInt, Json.anyScalar, Json.anyScalarMembers,
        Json.isLongInt, Bool.false_or, Bool.or_false,
        Bool.or_eq_false_iff]
      exact ⟨rfl, hprinted⟩
  rw [issueUiSession, hshort, cond_false]
  rfl

theorem session_exact_server :
    (∀ now, verifyUiSession plainSessions "key"
      ((serverSession (some "fp")).token plainSessions "key") now =
        .ok ((serverSession (some "fp")).accepted now)) ∧
    (∀ now, verifyUiSession plainSessions "key" ".x" now = .ok none) ∧
    ∃ claims, verifyUiSession plainSessions "key" ".x" 0 = .ok claims := by
  have hexact := session_exact plainSessions "key" {serverSession (some "fp")}
  have hunforged : Unforged plainSessions "key" {serverSession (some "fp")} ".x" :=
    fun encoded given heq hgiven => absurd (hgiven ▸ heq) (unsigned_dot encoded)
  have hother : ∀ issue ∈ ({serverSession (some "fp")} : Set Issue), ∀ result,
      issueUiSession plainSessions "key" issue = .ok result → ".x" ≠ result.1 := by
    rintro issue - result hresult heq
    rw [(issueUiSession_eq_ok _ _ hresult).2] at heq
    exact unsigned_dot (issue.encoded plainSessions)
      ((congrArg String.toList heq).trans String.toList_ofList)
  have hserver := hexact.1 _ _ (issueUiSession_server (some "fp"))
  exact ⟨hserver, hexact.2.1 ".x" hunforged hother, hexact.2.2 ".x" hunforged 0⟩

/-- The session of a principal without a fingerprint is never accepted. -/
theorem session_needs_fingerprint :
    ¬∀ (rt : SessionRuntime) (signingKey : String) (issue : Issue) (result : String × String × ℤ)
      (now : ℤ), issueUiSession rt signingKey issue = .ok result → now < issue.expiresAt →
        ∃ claims, verifyUiSession rt signingKey result.1 now = .ok (some claims) := by
  intro h
  have hissued := issueUiSession_server none
  obtain ⟨claims, hclaims⟩ := h plainSessions "key" (serverSession none) _ 1767225600 hissued
    (by decide)
  obtain ⟨hshort, htoken⟩ := issueUiSession_eq_ok plainSessions "key" hissued
  rw [htoken, verifyUiSession_token plainSessions "key" hshort] at hclaims
  cases hclaims

end UiSession

end MemoryPlane
