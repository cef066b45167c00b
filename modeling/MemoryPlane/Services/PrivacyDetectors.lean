import Mathlib.Algebra.GroupWithZero.Nat
import MemoryPlane.Lib.Patterns
import MemoryPlane.Services.Privacy

/-!
# Privacy detectors

The patterns of the guard: keys and tokens by their prefixes, assignments of passwords and keys,
social security numbers, and payment cards, whose digits must pass a checksum. The classes of
digits, of word characters and of letters under case folding are those of the runtime's tables.
-/

namespace MemoryPlane

/-- The value of a decimal digit of any script, which is also what `\d` matches. -/
def Unicode.digit (u : Unicode) (c : Char) : Option ℕ :=
  if c.isDigit then some (c.toNat - '0'.toNat)
  else if c.toNat < 128 then none
  else u.decimal c

/-- `\d`. -/
def Unicode.isDigit (u : Unicode) (c : Char) : Bool := (u.digit c).isSome

namespace PrivacyGuard

/-- `_luhn_valid`: every other digit is doubled, so that the last one is not. -/
def luhnValid (u : Unicode) (raw : List Char) : Bool :=
  let digits := raw.filterMap u.digit
  let checksum := (digits.zipIdx.map fun d =>
    if d.2 % 2 = digits.length % 2 then if 9 < 2 * d.1 then 2 * d.1 - 9 else 2 * d.1 else d.1).sum
  13 ≤ digits.length && digits.length ≤ 19 && checksum % 10 = 0

/-- The characters of a text in a row, under `(?i)`. -/
def literalIgnoringCase (u : Unicode) (text : String) : Pattern Char :=
  .sequence (text.toList.map fun c => .char (u.sameIgnoringCase c))

/-- `[A-Za-z]` under `(?i)`. -/
def isLetter (u : Unicode) (c : Char) : Bool :=
  "abcdefghijklmnopqrstuvwxyz".toList.any fun p => u.sameIgnoringCase p c

/-- `[A-Za-z0-9._~+/=-]` under `(?i)`. -/
def isTokenChar (u : Unicode) (c : Char) : Bool :=
  isLetter u c || c.isDigit || "._~+/=-".toList.contains c

/-- `\s`. -/
def space : Pattern Char := .char isSpace

/-- `['"]`. -/
def isQuote (c : Char) : Bool := c = '\'' || c = '"'

/-- `[:=]`. -/
def isAssign (c : Char) : Bool := c = ':' || c = '='

/-- `[A-Z ]*`. -/
def keyLabel : Pattern Char := .star (.char fun c => c.isUpper || c = ' ')

/-- `-----BEGIN [A-Z ]*PRIVATE KEY-----[\s\S]+?-----END [A-Z ]*PRIVATE KEY-----`. -/
def privateKey : Pattern Char :=
  .sequence [.literal "-----BEGIN ".toList, keyLabel, .literal "PRIVATE KEY-----".toList,
    .rounds false 1 none (.char fun _ => true),
    .literal "-----END ".toList, keyLabel, .literal "PRIVATE KEY-----".toList]

/-- `\bsk-[A-Za-z0-9_-]{20,}\b`. -/
def openaiApiKey (u : Unicode) : Pattern Char :=
  .sequence [.boundary u.isWord, .literal "sk-".toList,
    .atLeast 20 (.char fun c => c.isAlphanum || c = '_' || c = '-'), .boundary u.isWord]

/-- `\bAKIA[0-9A-Z]{16}\b`. -/
def awsAccessKey (u : Unicode) : Pattern Char :=
  .sequence [.boundary u.isWord, .literal "AKIA".toList,
    .times 16 (.char fun c => c.isDigit || c.isUpper), .boundary u.isWord]

/-- `(?i)\bbearer\s+[A-Za-z0-9._~+/=-]{16,}`. -/
def bearerToken (u : Unicode) : Pattern Char :=
  .sequence [.boundary u.isWord, literalIgnoringCase u "bearer", .atLeast 1 space,
    .atLeast 16 (.char (isTokenChar u))]

/-- `(?i)\bpassword\s*[:=]\s*['"]?[^'"\s]{8,}`. -/
def passwordAssignment (u : Unicode) : Pattern Char :=
  .sequence [.boundary u.isWord, literalIgnoringCase u "password", .star space, .char isAssign,
    .star space, .optional (.char isQuote), .atLeast 8 (.char fun c => !isQuote c && !isSpace c)]

/-- `(?i)\b(?:api[_-]?key|token)\s*[:=]\s*['"]?[A-Za-z0-9._~+/=-]{16,}`. -/
def apiKeyAssignment (u : Unicode) : Pattern Char :=
  .sequence [.boundary u.isWord,
    .alt (.sequence [literalIgnoringCase u "api", .optional (.char fun c => c = '_' || c = '-'),
      literalIgnoringCase u "key"]) (literalIgnoringCase u "token"),
    .star space, .char isAssign, .star space, .optional (.char isQuote),
    .atLeast 16 (.char (isTokenChar u))]

/-- `\b\d{3}-\d{2}-\d{4}\b`. -/
def ssn (u : Unicode) : Pattern Char :=
  .sequence [.boundary u.isWord, .times 3 (.char u.isDigit), .literal "-".toList,
    .times 2 (.char u.isDigit), .literal "-".toList, .times 4 (.char u.isDigit),
    .boundary u.isWord]

/-- `[ -]`. -/
def isSeparator (c : Char) : Bool := c = ' ' || c = '-'

/-- `\d[ -]*?`. -/
def cardRound (u : Unicode) : Pattern Char :=
  .seq (.char u.isDigit) (.rounds false 0 none (.char isSeparator))

/-- `\b(?:\d[ -]*?){13,19}\b`. -/
def paymentCard (u : Unicode) : Pattern Char :=
  .sequence [.boundary u.isWord, .rounds true 13 (some 6) (cardRound u), .boundary u.isWord]

/-- `_DETECTORS`. -/
def standardDetectors (u : Unicode) : List Detector :=
  [⟨"private_key", privateKey.finditer, fun _ => true⟩,
    ⟨"openai_api_key", (openaiApiKey u).finditer, fun _ => true⟩,
    ⟨"aws_access_key", (awsAccessKey u).finditer, fun _ => true⟩,
    ⟨"bearer_token", (bearerToken u).finditer, fun _ => true⟩,
    ⟨"password_assignment", (passwordAssignment u).finditer, fun _ => true⟩,
    ⟨"api_key_assignment", (apiKeyAssignment u).finditer, fun _ => true⟩,
    ⟨"ssn", (ssn u).finditer, fun _ => true⟩,
    ⟨"payment_card", (paymentCard u).finditer, luhnValid u⟩]

/-- The guard of a deployment that redacts. -/
def standardGuard (u : Unicode) : PrivacyGuard := { detectors := standardDetectors u }

end PrivacyGuard

end MemoryPlane
