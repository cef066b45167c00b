import MemoryPlane.Adapters.PostgresJson
import MemoryPlane.Lib.InBand
import MemoryPlane.Lib.Proc
import MemoryPlane.Python.JsonOperations

/-!
# Encryption at rest

Sensitive columns of the PostgreSQL ledger hold plaintext or ciphertext. Ciphertext is
recognized by a prefix of the text, in a JSON column by a wrapper object around such a text.
The ciphers of the database are given; the results say which values are read back. A lone
surrogate, which no `String` holds, is refused by every write.
-/

namespace MemoryPlane

/-- `_PGCRYPTO_TEXT_PREFIX`. -/
def pgcryptoTextPrefix : String := "enc:pgcrypto:v1:"

/-- `_PGCRYPTO_JSON_KEY`. -/
def pgcryptoJsonKey : String := "_uam_encrypted_json_v1"

/-- The functions of the database and the floats that the columns go through. -/
structure PgFunctions where
  Bytes : Type
  /-- `pgp_sym_encrypt(text, key)` with its random salt. -/
  encrypt : ℕ → String → String → Bytes
  /-- `pgp_sym_decrypt(bytes, key)`: `none` where it raises. -/
  decrypt : String → Bytes → Option String
  /-- `encode(bytes, 'base64')`. -/
  encode : Bytes → String
  /-- `decode(text, 'base64')`: `none` where it raises. -/
  decode : String → Option Bytes
  floats : FloatText
  /-- `json.dumps` of an object with an infinity or NaN, with and without `ensure_ascii`. -/
  dumpsOther : Bool → JsonMembers → String

/-- What the documentation of these functions says. -/
structure PgFunctions.Documented (pg : PgFunctions) : Prop where
  /-- Decryption inverts encryption under the same key and fails on everything else. -/
  decrypt_iff : ∀ key b text, pg.decrypt key b = some text ↔ ∃ salt, b = pg.encrypt salt key text
  decode_encode : ∀ b, pg.decode (pg.encode b) = some b
  /-- A ciphertext without compression is no shorter than its plaintext, nor is its spelling. -/
  decode_length : ∀ spelling salt key text,
    pg.decode spelling = some (pg.encrypt salt key text) → text.length ≤ spelling.length

/-- The configured encryption. -/
structure TextEncryption where
  /-- `UAM_MEMORY_TEXT_ENCRYPTION` is `pgcrypto`. -/
  enabled : Bool
  key : String
  /-- No scopes mean all. -/
  scopes : Option (List MemoryScope)
  key_given : enabled = true → key ≠ ""

namespace PostgresEncryption

variable (pg : PgFunctions) (cfg : TextEncryption)

/-- A text on its way to the database. -/
def sendText (text : String) : Except Exn String :=
  if text.toList.contains '\x00' then
    .error (.databaseError "PostgreSQL text fields cannot contain NUL (0x00) bytes")
  else .ok text

/-- `json.dumps(value, sort_keys=True, separators=(",", ":"))`, where `ascii` is `ensure_ascii`. -/
def dumps (ascii : Bool) (value : JsonMembers) : Except Exn String :=
  match JsonValue.toMembers value with
  | none => .ok (pg.dumpsOther ascii value)
  | some members =>
    if (Json.obj members).sorted.hasLongInt then
      .error (.valueError "Exceeds the limit (4300 digits) for integer string conversion")
    else .ok (String.ofList (Json.dumps pg.floats ascii (.obj members)))

/-- `Jsonb(value)` on its way to a column. The driver's own printing keeps the order of the members
and puts spaces between them, which the conversion drops. -/
def sendJson (value : JsonMembers) : Except Exn Json := do
  let text ← dumps pg true value
  match Json.jsonb pg.floats text.toList with
  | none => .error (.databaseError "invalid input syntax for type json")
  | some column => return column

/-- `_should_encrypt_item`. -/
def shouldEncryptItem (item : MemoryItem) : Bool :=
  cfg.enabled && cfg.scopes.all fun scopes => scopes.contains item.scope

/-- `_stored_sensitive_text`. -/
def storedSensitiveText (salt : ℕ) (value : Option String) : Except Exn (Option String) :=
  match value with
  | none => .ok none
  | some text =>
    if cfg.enabled then do
      let sent ← sendText text
      return some (pgcryptoTextPrefix ++ pg.encode (pg.encrypt salt cfg.key sent))
    else .ok (some text)

/-- `_stored_memory_text`. -/
def storedMemoryText (salt : ℕ) (item : MemoryItem) : Except Exn String :=
  if shouldEncryptItem cfg item then do
    match ← storedSensitiveText pg cfg salt (some item.text) with
    | none => .error (.runtimeError "pgcrypto did not return encrypted memory text")
    | some stored => return stored
  else .ok item.text

/-- `_stored_sensitive_json`. -/
def storedSensitiveJson (salt : ℕ) (value : JsonMembers) : Except Exn JsonMembers :=
  if cfg.enabled then do
    let plaintext ← dumps pg false value
    match ← storedSensitiveText pg cfg salt (some plaintext) with
    | none => .error (.runtimeError "pgcrypto did not return encrypted JSON")
    | some ciphertext => return [(pgcryptoJsonKey, .str ciphertext)]
  else .ok value

/-- The text column after a value was written. -/
def writeText (salt : ℕ) (value : Option String) : Except Exn (Option String) := do
  match ← storedSensitiveText pg cfg salt value with
  | none => return none
  | some stored => return some (← sendText stored)

/-- `memory_items.text` after an item was written. -/
def writeMemoryText (salt : ℕ) (item : MemoryItem) : Except Exn (Option String) := do
  return some (← sendText (← storedMemoryText pg cfg salt item))

/-- The JSON column after an object was written. -/
def writeJson (salt : ℕ) (value : JsonMembers) : Except Exn Json := do
  sendJson pg (← storedSensitiveJson pg cfg salt value)

/-- The spelled ciphertext of a text column. -/
def textPayload (s : String) : Option String :=
  if pgcryptoTextPrefix.toList <+: s.toList then
    some (String.ofList (s.toList.drop pgcryptoTextPrefix.toList.length))
  else none

/-- Marked texts begin with the prefix. -/
def markedText : InBand String String where
  wrap c := pgcryptoTextPrefix ++ c
  payload := textPayload
  payload_wrap c := by simp [textPayload]

/-- Marked objects have the wrapper key alone, with a marked text. -/
def markedJson : InBand Json String where
  wrap c := .obj [(pgcryptoJsonKey, .str (pgcryptoTextPrefix ++ c))]
  payload v :=
    match v with
    | .obj [(name, .str s)] => if name = pgcryptoJsonKey then textPayload s else none
    | _ => none
  payload_wrap c := by simp [textPayload]

/-- `pgp_sym_decrypt(decode(..., 'base64'), nullif(current_setting(...), ''))`: nothing without a
key. -/
def decipher (spelling : String) : Except Exn (Option String) :=
  match pg.decode spelling with
  | none => .error (.databaseError "invalid base64 data")
  | some b =>
    if cfg.key = "" then .ok none
    else
      match pg.decrypt cfg.key b with
      | none => .error (.databaseError "Wrong key or corrupt data")
      | some text => .ok (some text)

/-- The same with `::jsonb`. -/
def decipherJson (spelling : String) : Except Exn (Option Json) := do
  match ← decipher pg cfg spelling with
  | none => return none
  | some text =>
    match Json.jsonb pg.floats text.toList with
    | none => .error (.databaseError "invalid input syntax for type json")
    | some v => return some v

/-- A text column as the ledger reads it. -/
def readText (column : Option String) : Except Exn (Option String) :=
  match column with
  | none => .ok none
  | some s => markedText.read (decipher pg cfg) s

/-- A JSON column as the ledger reads it. -/
def readJson (column : Json) : Except Exn (Option Json) :=
  markedJson.read (decipherJson pg cfg) column

/-- `w == value`, where `w` was read from a column. -/
def Equals (w : Json) (value : JsonMembers) : Prop :=
  ∃ members, JsonValue.toMembers value = some members ∧
    w.byValue = (Json.obj members).sorted.byValue

/-- The objects that are read back: they have no infinity, no NaN and no float that is merely the
nearest one of an integer it prints as, no text with NUL where they are encrypted, and do not look
like a ciphertext where they are not. -/
def ReadBack (value : JsonMembers) : Prop :=
  ∃ members, JsonValue.toMembers value = some members ∧
    (Json.obj members).sorted.anyScalar (Json.isInexact pg.floats) = false ∧
    if cfg.enabled then (Json.obj members).sorted.hasNul = false
    else ¬ markedJson.Marked (Json.obj members).sorted

/-- All finite floats of the object are floats. -/
def FloatsIn (value : JsonMembers) : Prop :=
  ∀ members, JsonValue.toMembers value = some members → (Json.obj members).FloatsIn pg.floats

variable {pg cfg}

theorem textPayload_eq_some {s c : String} :
    textPayload s = some c ↔ s = pgcryptoTextPrefix ++ c := by
  unfold textPayload
  constructor
  · intro h
    split at h
    · rename_i hprefix
      obtain ⟨rest, hrest⟩ := hprefix
      rw [← Option.some.inj h]
      apply String.toList_injective
      rw [String.toList_append, String.toList_ofList, ← hrest, List.drop_left]
    · cases h
  · rintro rfl
    simp

/-- The payload of a marked text is shorter than the text. -/
theorem length_of_textPayload {s c : String} (h : textPayload s = some c) :
    c.length < s.length := by
  rw [textPayload_eq_some.mp h, String.length_append]
  have hprefix : pgcryptoTextPrefix.length = 16 := by decide
  omega

theorem payload_markedJson_eq_some {v : Json} {c : String} :
    markedJson.payload v = some c ↔
      ∃ s, v = .obj [(pgcryptoJsonKey, .str s)] ∧ textPayload s = some c := by
  simp only [markedJson]
  constructor
  · intro h
    split at h
    · rename_i name s
      split at h
      · rename_i hname
        exact ⟨s, by rw [hname], h⟩
      · cases h
    · cases h
  · rintro ⟨s, rfl, h⟩
    simpa using h

/-- A written ciphertext is deciphered. -/
theorem decipher_encode (h : pg.Documented) (hkey : cfg.key ≠ "") (salt : ℕ) (text : String) :
    decipher pg cfg (pg.encode (pg.encrypt salt cfg.key text)) = .ok (some text) := by
  have hdecrypt := (h.decrypt_iff cfg.key (pg.encrypt salt cfg.key text) text).mpr ⟨salt, rfl⟩
  unfold decipher
  rw [h.decode_encode]
  simp only [if_neg hkey, hdecrypt]

/-- What is deciphered is no longer than its ciphertext. -/
theorem length_of_decipher (h : pg.Documented) {spelling text : String}
    (hd : decipher pg cfg spelling = .ok (some text)) : text.length ≤ spelling.length := by
  unfold decipher at hd
  split at hd
  · cases hd
  · rename_i b hb
    split at hd
    · cases hd
    · split at hd
      · cases hd
      · rename_i found hfound
        cases hd
        obtain ⟨salt, rfl⟩ := (h.decrypt_iff ..).mp hfound
        exact h.decode_length _ _ _ _ hb

/-- No text is the plaintext of the ciphertext it carries. -/
theorem decipher_ne_self (h : pg.Documented) {s c : String} (hc : textPayload s = some c) :
    decipher pg cfg c ≠ .ok (some s) := by
  intro hd
  have hlt := length_of_textPayload hc
  have hle := length_of_decipher h hd
  omega

/-- Nor has any object that carries a ciphertext the value of what is opened. -/
theorem byValue_ne_of_decipherJson (h : pg.Documented) {v w : Json} {c : String}
    (hc : markedJson.payload v = some c) (hd : decipherJson pg cfg c = .ok (some w)) :
    w.byValue ≠ v.byValue := by
  obtain ⟨s, rfl, hs⟩ := payload_markedJson_eq_some.mp hc
  intro heq
  have hw := Json.byValue_eq_text_iff.mp heq
  unfold decipherJson at hd
  obtain ⟨found, hfound, hd⟩ := Except.bind_eq_ok.mp hd
  cases found with
  | none => cases hd
  | some text =>
    simp only at hd
    split at hd
    · cases hd
    · rename_i value hvalue
      cases hd
      have hlt := length_of_textPayload hs
      have hle := length_of_decipher h hfound
      have hwithin := Json.textsWithin_jsonb hvalue
      rw [hw] at hwithin
      have hshort : s.length ≤ text.length := by
        have hmembers := (Bool.or_eq_false_iff.mp hwithin).1
        have hlength := of_decide_eq_false (Bool.or_eq_false_iff.mp hmembers).2
        rw [String.length_toList] at hlength
        exact Nat.le_of_not_lt hlength
      omega

theorem sendText_eq_ok {s t : String} (h : sendText s = .ok t) : t = s := by
  unfold sendText at h
  split at h
  · cases h
  · cases h
    rfl

/-- Where encryption is on, a text column holds a ciphertext of its text. -/
theorem storedSensitiveText_on {salt : ℕ} {text : String} {stored : Option String}
    (hon : cfg.enabled = true)
    (h : storedSensitiveText pg cfg salt (some text) = .ok stored) :
    stored = some (pgcryptoTextPrefix ++ pg.encode (pg.encrypt salt cfg.key text)) := by
  simp only [storedSensitiveText, hon, if_true] at h
  obtain ⟨sent, hsent, h⟩ := Except.bind_eq_ok.mp h
  cases h
  rw [sendText_eq_ok hsent]

theorem storedSensitiveText_off {salt : ℕ} (value : Option String) (hoff : cfg.enabled = false) :
    storedSensitiveText pg cfg salt value = .ok value := by
  cases value <;> simp [storedSensitiveText, hoff]

/-- Ciphertexts are read back. -/
theorem readText_ciphertext (h : pg.Documented) (hkey : cfg.key ≠ "") (salt : ℕ) (text : String) :
    readText pg cfg (some (pgcryptoTextPrefix ++ pg.encode (pg.encrypt salt cfg.key text))) =
      .ok (some text) :=
  (InBand.read_wrap (F := markedText) _).trans (decipher_encode h hkey salt text)

/-- Plain texts are read back exactly when they do not begin with the prefix. -/
theorem readText_plain_iff (h : pg.Documented) (text : String) :
    readText pg cfg (some text) = .ok (some text) ↔ ¬ markedText.Marked text :=
  InBand.read_eq_self_iff fun _ hc => decipher_ne_self h hc

/-- Memory text: read back where it is encrypted, or does not begin with the prefix. -/
theorem memoryText_iff (h : pg.Documented) {salt : ℕ} {item : MemoryItem} {column : Option String}
    (hw : writeMemoryText pg cfg salt item = .ok column) :
    readText pg cfg column = .ok (some item.text) ↔
      (shouldEncryptItem cfg item = true ∨ ¬ markedText.Marked item.text) := by
  unfold writeMemoryText at hw
  obtain ⟨stored, hstored, hw⟩ := Except.bind_eq_ok.mp hw
  obtain ⟨sent, hsent, hw⟩ := Except.bind_eq_ok.mp hw
  cases hw
  rw [sendText_eq_ok hsent]
  unfold storedMemoryText at hstored
  by_cases henc : shouldEncryptItem cfg item = true
  · rw [if_pos henc] at hstored
    have hon : cfg.enabled = true := (Bool.and_eq_true _ _ ▸ henc).1
    obtain ⟨found, hfound, hstored⟩ := Except.bind_eq_ok.mp hstored
    rw [storedSensitiveText_on hon hfound] at hstored
    cases hstored
    rw [readText_ciphertext h (cfg.key_given hon)]
    simp [henc]
  · rw [if_neg henc] at hstored
    cases hstored
    rw [readText_plain_iff h]
    simp [henc]

/-- Other sensitive texts: read back where encryption is on, or they do not begin with the
prefix. -/
theorem sensitiveText_iff (h : pg.Documented) {salt : ℕ} {value column : Option String}
    (hw : writeText pg cfg salt value = .ok column) :
    readText pg cfg column = .ok value ↔
      (cfg.enabled = true ∨ ∀ s ∈ value, ¬ markedText.Marked s) := by
  unfold writeText at hw
  obtain ⟨stored, hstored, hsend⟩ := Except.bind_eq_ok.mp hw
  cases value with
  | none =>
    cases hstored
    cases hsend
    simp [readText]
  | some text =>
    cases hon : cfg.enabled with
    | true =>
      rw [storedSensitiveText_on hon hstored] at hsend
      obtain ⟨sent, hsent, hsend⟩ := Except.bind_eq_ok.mp hsend
      cases hsend
      rw [sendText_eq_ok hsent, readText_ciphertext h (cfg.key_given hon)]
      simp
    | false =>
      rw [storedSensitiveText_off _ hon] at hstored
      cases hstored
      obtain ⟨sent, hsent, hsend⟩ := Except.bind_eq_ok.mp hsend
      cases hsend
      rw [sendText_eq_ok hsent, readText_plain_iff h]
      simp

/-- What is written of an object without infinities is its JSON text. -/
theorem dumps_eq_ok {ascii : Bool} {value : JsonMembers} {members : JsonObject} {text : String}
    (hmembers : JsonValue.toMembers value = some members)
    (h : dumps pg ascii value = .ok text) :
    text.toList = Json.dumps pg.floats ascii (.obj members) := by
  unfold dumps at h
  rw [hmembers] at h
  dsimp only at h
  split at h
  · cases h
  · cases h
    exact String.toList_ofList

/-- A column after an object without infinities was sent. -/
theorem sendJson_eq_ok {value : JsonMembers} {members : JsonObject} {column : Json}
    (hmembers : JsonValue.toMembers value = some members)
    (hfloats : (Json.obj members).FloatsIn pg.floats) (h : sendJson pg value = .ok column) :
    column = (Json.obj members).sorted.stored pg.floats := by
  unfold sendJson at h
  obtain ⟨text, htext, h⟩ := Except.bind_eq_ok.mp h
  rw [dumps_eq_ok hmembers htext, Json.jsonb_dumps hfloats] at h
  cases hnul : (Json.obj members).sorted.hasNul with
  | true =>
    rw [hnul] at h
    cases h
  | false =>
    rw [hnul] at h
    cases h
    rfl

/-- A column carries the mark when the value that was written does. -/
theorem payload_stored (v : Json) :
    markedJson.payload (v.stored pg.floats) = markedJson.payload v := by
  ext c
  rw [payload_markedJson_eq_some, payload_markedJson_eq_some]
  simp only [Json.stored_eq_text_iff]

/-- A column holds the ciphertext of an object that was encrypted. -/
theorem writeJson_on {salt : ℕ} {value : JsonMembers} {column : Json} (hon : cfg.enabled = true)
    (hw : writeJson pg cfg salt value = .ok column) :
    ∃ text, dumps pg false value = .ok text ∧
      column = markedJson.wrap (pg.encode (pg.encrypt salt cfg.key text)) := by
  unfold writeJson at hw
  obtain ⟨sent, hsent, hw⟩ := Except.bind_eq_ok.mp hw
  unfold storedSensitiveJson at hsent
  rw [if_pos hon] at hsent
  obtain ⟨text, htext, hsent⟩ := Except.bind_eq_ok.mp hsent
  obtain ⟨found, hfound, hsent⟩ := Except.bind_eq_ok.mp hsent
  rw [storedSensitiveText_on hon hfound] at hsent
  cases hsent
  have hfloats : (Json.obj [(pgcryptoJsonKey, .str (pgcryptoTextPrefix ++
      pg.encode (pg.encrypt salt cfg.key text)))]).FloatsIn pg.floats := ⟨trivial, trivial⟩
  exact ⟨text, htext, sendJson_eq_ok rfl hfloats hw⟩

/-- Objects: those that are read back. -/
theorem sensitiveJson_iff (h : pg.Documented) {salt : ℕ} {value : JsonMembers} {column : Json}
    (hfloats : FloatsIn pg value) (hw : writeJson pg cfg salt value = .ok column) :
    (∃ w, readJson pg cfg column = .ok (some w) ∧ Equals w value) ↔ ReadBack pg cfg value := by
  cases hmembers : JsonValue.toMembers value with
  | none =>
    constructor
    · rintro ⟨w, -, members, hsome, -⟩
      rw [hmembers] at hsome
      cases hsome
    · rintro ⟨members, hsome, -⟩
      rw [hmembers] at hsome
      cases hsome
  | some members =>
    have hequals : ∀ w, Equals w value ↔ w.byValue = (Json.obj members).sorted.byValue := by
      intro w
      constructor
      · rintro ⟨found, hfound, hw⟩
        rw [hmembers] at hfound
        cases hfound
        exact hw
      · exact fun hw => ⟨members, hmembers, hw⟩
    have hread : ReadBack pg cfg value ↔
        (Json.obj members).sorted.anyScalar (Json.isInexact pg.floats) = false ∧
          if cfg.enabled then (Json.obj members).sorted.hasNul = false
          else ¬ markedJson.Marked (Json.obj members).sorted := by
      constructor
      · rintro ⟨found, hfound, hboth⟩
        rw [hmembers] at hfound
        cases hfound
        exact hboth
      · exact fun hboth => ⟨members, hmembers, hboth⟩
    have hexact := Json.byValue_stored_iff (t := pg.floats) (Json.obj members).sorted
    simp only [hequals, hread]
    cases hon : cfg.enabled with
    | true =>
      obtain ⟨text, htext, rfl⟩ := writeJson_on hon hw
      have hcipher : readJson pg cfg (markedJson.wrap (pg.encode (pg.encrypt salt cfg.key text))) =
          decipherJson pg cfg (pg.encode (pg.encrypt salt cfg.key text)) :=
        InBand.read_wrap (F := markedJson) _
      rw [hcipher, decipherJson, decipher_encode h (cfg.key_given hon), Except.ok_bind]
      simp only [dumps_eq_ok hmembers htext, Json.jsonb_dumps (hfloats members hmembers), if_true]
      cases hnul : (Json.obj members).sorted.hasNul with
      | true => simp
      | false => simp [pure, Except.pure, hexact]
    | false =>
      unfold writeJson storedSensitiveJson at hw
      rw [hon] at hw
      have hcolumn := sendJson_eq_ok hmembers (hfloats members hmembers) hw
      have hpayload : markedJson.payload ((Json.obj members).sorted.stored pg.floats) =
          markedJson.payload (Json.obj members).sorted := payload_stored _
      have hmarked : markedJson.Marked column ↔ markedJson.Marked (Json.obj members).sorted := by
        unfold InBand.Marked
        rw [hcolumn, hpayload]
      rw [readJson, InBand.exists_read_iff, hmarked, hcolumn, hexact]
      · simp only [Bool.false_eq_true, if_false]
        exact and_comm
      · intro c w hc hd
        rw [hcolumn, hpayload] at hc
        exact byValue_ne_of_decipherJson h hc hd

end PostgresEncryption

open PostgresEncryption in
/-- Which values the sensitive columns give back: every encrypted text, every plain text that does
not begin with the prefix, and the objects whose numbers and texts a JSON column keeps and that do
not look like a ciphertext in the plain. -/
theorem encrypted_columns_read_back_iff (pg : PgFunctions) (h : pg.Documented)
    (cfg : TextEncryption) (salt : ℕ) :
    (∀ item column, writeMemoryText pg cfg salt item = .ok column →
      (readText pg cfg column = .ok (some item.text) ↔
        (shouldEncryptItem cfg item = true ∨ ¬ markedText.Marked item.text))) ∧
    (∀ value column, writeText pg cfg salt value = .ok column →
      (readText pg cfg column = .ok value ↔
        (cfg.enabled = true ∨ ∀ s ∈ value, ¬ markedText.Marked s))) ∧
    ∀ value column, FloatsIn pg value → writeJson pg cfg salt value = .ok column →
      ((∃ w, readJson pg cfg column = .ok (some w) ∧ Equals w value) ↔ ReadBack pg cfg value) :=
  ⟨fun _ _ => memoryText_iff h, fun _ _ => sensitiveText_iff h, fun _ _ => sensitiveJson_iff h⟩

/-- The text behind the letter that a ciphertext of the small runs begins with. -/
def afterLetter : List Char → Option String
  | 'c' :: text => some (String.ofList text)
  | _ => none

theorem afterLetter_eq_some {b : List Char} {text : String} :
    afterLetter b = some text ↔ b = 'c' :: text.toList := by
  constructor
  · intro h
    unfold afterLetter at h
    split at h
    · rw [← Option.some.inj h, String.toList_ofList]
    · cases h
  · rintro rfl
    simp [afterLetter]

/-- Functions for small runs: a ciphertext is the text behind one letter. -/
def toyFunctions : PgFunctions where
  Bytes := List Char
  encrypt _ _ text := 'c' :: text.toList
  decrypt _ b := afterLetter b
  encode b := String.ofList b
  decode s := some s.toList
  floats := halfText
  dumpsOther _ _ := "Infinity"

theorem toyFunctions_documented : toyFunctions.Documented where
  decrypt_iff _ _ _ :=
    ⟨fun h => ⟨0, afterLetter_eq_some.mp h⟩, fun ⟨_, h⟩ => afterLetter_eq_some.mpr h⟩
  decode_encode b := congrArg some String.toList_ofList
  decode_length spelling salt key text h := by
    simp only [toyFunctions, Option.some.injEq] at h
    rw [← String.length_toList, ← String.length_toList, h, List.length_cons]
    omega

/-- Encryption switched off, without a key. -/
def encryptionOff : TextEncryption where
  enabled := false
  key := ""
  scopes := none
  key_given := by decide

/-- Encryption of everything. -/
def encryptionOn : TextEncryption where
  enabled := true
  key := "k"
  scopes := none
  key_given := by decide

open PostgresEncryption in
/-- A plain text that begins with the prefix is stored and not read back. -/
theorem prefixed_text_lost :
    writeText toyFunctions encryptionOff 0 (some "enc:pgcrypto:v1:hello") =
        .ok (some "enc:pgcrypto:v1:hello") ∧
      readText toyFunctions encryptionOff (some "enc:pgcrypto:v1:hello") ≠
        .ok (some "enc:pgcrypto:v1:hello") := by decide +kernel

/-- An object with a float and a text that looks like a ciphertext. -/
def scoredText : JsonMembers :=
  [("score", .float (.finite (1 / 2))), ("text", .str "enc:pgcrypto:v1:hello")]

open PostgresEncryption in
/-- Encrypted, both the text and the object are read back. -/
theorem encrypted_columns_read_back_iff_example :
    (∃ column, writeText toyFunctions encryptionOn 0 (some "enc:pgcrypto:v1:hello") = .ok column ∧
      readText toyFunctions encryptionOn column = .ok (some "enc:pgcrypto:v1:hello")) ∧
    ∃ column, writeJson toyFunctions encryptionOn 0 scoredText = .ok column ∧
      ∃ w, readJson toyFunctions encryptionOn column = .ok (some w) ∧ Equals w scoredText := by
  have hboth := encrypted_columns_read_back_iff toyFunctions toyFunctions_documented encryptionOn 0
  obtain ⟨text, htext⟩ := Except.exists_of_isOk
    (x := writeText toyFunctions encryptionOn 0 (some "enc:pgcrypto:v1:hello")) (by decide +kernel)
  obtain ⟨column, hcolumn⟩ := Except.exists_of_isOk
    (x := writeJson toyFunctions encryptionOn 0 scoredText) (by decide +kernel)
  refine ⟨⟨text, htext, (hboth.2.1 _ text htext).mpr (.inl rfl)⟩, column, hcolumn, ?_⟩
  refine (hboth.2.2 scoredText column ?_ hcolumn).mpr ?_
  · intro members hmembers
    cases hmembers
    exact ⟨rfl, trivial, trivial⟩
  · exact ⟨_, rfl, by decide +kernel, by decide +kernel⟩

end MemoryPlane
