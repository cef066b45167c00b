import MemoryPlane.Domain.Models
import MemoryPlane.Python.Lines
import MemoryPlane.Python.Numbers
import MemoryPlane.Python.Utf8

/-!
# URLs

`urlsplit`, `urlunsplit`, `quote` and `unquote` on lists of characters. Bytes that are no UTF-8 are
read as the replacement character, one for each part that cannot go on.
-/

namespace MemoryPlane

/-- What the URL functions take from the interpreter: lower case and the checks of a host part, for
IP literals in brackets and for characters that normalize to a delimiter. -/
structure UrlRuntime where
  lower : List Char → List Char
  netlocAllowed : List Char → Bool

/-- The parts of a URL. -/
structure SplitResult where
  scheme : List Char
  netloc : List Char
  path : List Char
  query : List Char
  fragment : List Char
  deriving DecidableEq

namespace Urls

/-- `s.partition(sep)` of one character: what is behind it is `none` where it does not occur. -/
def partition (sep : Char) : List Char → List Char × Option (List Char)
  | [] => ([], none)
  | c :: cs =>
    if c = sep then ([], some cs)
    else ((c :: (partition sep cs).1), (partition sep cs).2)

/-- `s.rpartition(sep)` of one character: what is before it is `none` where it does not occur. -/
def rpartition (sep : Char) (s : List Char) : Option (List Char) × List Char :=
  match partition sep s.reverse with
  | (behind, none) => (none, behind.reverse)
  | (behind, some front) => (some front.reverse, behind.reverse)

/-- A character of a scheme. -/
def isSchemeChar (c : Char) : Bool := c.isAlphanum || c = '+' || c = '-' || c = '.'

/-- The scheme and the rest of a URL; a text before the first colon that is no scheme stays. -/
def splitScheme (url : List Char) : List Char × List Char :=
  match partition ':' url with
  | (c :: cs, some rest) =>
    if c.isAlpha && (c :: cs).all isSchemeChar then
      ((c :: cs).map Char.toLower, rest)
    else ([], url)
  | _ => ([], url)

/-- `_splitnetloc`. -/
def splitNetloc (url : List Char) : List Char × List Char :=
  url.span fun c => c ≠ '/' && c ≠ '?' && c ≠ '#'

/-- Leading control characters and blanks are dropped, and tabs and line breaks everywhere. -/
def cleaned (url : List Char) : List Char :=
  (url.dropWhile fun c => c.toNat ≤ 32).filter fun c => c ≠ '\t' && c ≠ '\r' && c ≠ '\n'

/-- `urlsplit(url)`. -/
def urlsplit (py : UrlRuntime) (url : List Char) : Except Exn SplitResult :=
  let (scheme, afterScheme) := splitScheme (cleaned url)
  let (netloc, rest) :=
    match afterScheme with
    | '/' :: '/' :: behind => splitNetloc behind
    | _ => ([], afterScheme)
  if '[' ∈ netloc ↔ ']' ∈ netloc then
    if py.netlocAllowed netloc then
      let (front, fragment) := partition '#' rest
      let (path, query) := partition '?' front
      .ok ⟨scheme, netloc, path, query.getD [], fragment.getD []⟩
    else .error (.valueError "netloc contains invalid characters")
  else .error (.valueError "Invalid IPv6 URL")

/-- `urlunsplit(parts)` of parts with a host part. -/
def urlunsplit (s : SplitResult) : List Char :=
  let path := if s.path ≠ [] ∧ s.path.head? ≠ some '/' then '/' :: s.path else s.path
  (if s.scheme = [] then [] else s.scheme ++ [':']) ++ '/' :: '/' :: s.netloc ++ path ++
    (if s.query = [] then [] else '?' :: s.query) ++
    (if s.fragment = [] then [] else '#' :: s.fragment)

end Urls

namespace SplitResult

open Urls

variable (s : SplitResult)

/-- `_userinfo`. -/
def userinfo : Option (List Char) × Option (List Char) :=
  match (rpartition '@' s.netloc).1 with
  | none => (none, none)
  | some info => (some (partition ':' info).1, (partition ':' info).2)

def username : Option (List Char) := s.userinfo.1

def password : Option (List Char) := s.userinfo.2

/-- `_hostinfo`; an empty port is none. -/
def hostinfo : List Char × Option (List Char) :=
  let hostinfo := (rpartition '@' s.netloc).2
  let (hostname, port) :=
    match partition '[' hostinfo with
    | (_, some bracketed) =>
      ((partition ']' bracketed).1, (partition ':' ((partition ']' bracketed).2.getD [])).2)
    | (_, none) => partition ':' hostinfo
  (hostname, port.filter (· ≠ []))

/-- The zone of a scoped address keeps its case; an empty host is none. -/
def hostname (py : UrlRuntime) : Option (List Char) :=
  match s.hostinfo.1 with
  | [] => none
  | host =>
    match partition '%' host with
    | (address, none) => some (py.lower address)
    | (address, some zone) => some (py.lower address ++ '%' :: zone)

def port : Except Exn (Option ℕ) :=
  match s.hostinfo.2 with
  | none => .ok none
  | some text =>
    if text.all isDigit = false then .error (.valueError "Port could not be cast to integer value")
    else if 65535 < digitsValue text then .error (.valueError "Port out of range 0-65535")
    else .ok (some (digitsValue text))

end SplitResult

namespace Urls

/-- A hexadecimal digit, in upper case. -/
def hexDigit (n : ℕ) : Char := Char.ofNat (if n < 10 then 48 + n else 55 + n)

/-- The value of a hexadecimal digit. -/
def hexValue (c : Char) : Option ℕ :=
  if isDigit c then some (c.toNat - 48)
  else if 'a' ≤ c ∧ c ≤ 'f' then some (c.toNat - 87)
  else if 'A' ≤ c ∧ c ≤ 'F' then some (c.toNat - 55)
  else none

/-- A character that `quote` never quotes. -/
def alwaysSafe (c : Char) : Bool := c.isAlphanum || c = '_' || c = '.' || c = '-' || c = '~'

/-- A byte as `quote` writes it. -/
def quoteByte (b : UInt8) : List Char :=
  let c := Char.ofNat b.toNat
  if b.toNat < 128 && alwaysSafe c then [c]
  else ['%', hexDigit (b.toNat / 16), hexDigit (b.toNat % 16)]

/-- `quote(text, safe="")`. -/
def quote (text : List Char) : List Char := (Utf8.encode text).flatMap quoteByte

/-- `unquote_to_bytes` of ASCII text. -/
def unquoteToBytes : List Char → List UInt8
  | '%' :: a :: b :: rest =>
    match hexValue a, hexValue b with
    | some high, some low => UInt8.ofNat (16 * high + low) :: unquoteToBytes rest
    | _, _ => UInt8.ofNat '%'.toNat :: unquoteToBytes (a :: b :: rest)
  | c :: rest => UInt8.ofNat c.toNat :: unquoteToBytes rest
  | [] => []

/-- A character of several bytes that is being read: the bounds of the next byte, the bits so far
and how many bytes are still to come. -/
structure Pending where
  low : ℕ
  high : ℕ
  bits : ℕ
  left : ℕ

/-- What the first byte of a character starts. -/
def startByte (b : ℕ) : List Char × Option Pending :=
  if b < 128 then ([Char.ofNat b], none)
  else if 0xC2 ≤ b ∧ b ≤ 0xDF then ([], some ⟨0x80, 0xBF, b - 0xC0, 1⟩)
  else if 0xE0 ≤ b ∧ b ≤ 0xEF then
    ([], some ⟨if b = 0xE0 then 0xA0 else 0x80, if b = 0xED then 0x9F else 0xBF, b - 0xE0, 2⟩)
  else if 0xF0 ≤ b ∧ b ≤ 0xF4 then
    ([], some ⟨if b = 0xF0 then 0x90 else 0x80, if b = 0xF4 then 0x8F else 0xBF, b - 0xF0, 3⟩)
  else (['\uFFFD'], none)

/-- `data.decode("utf-8", "replace")`, with a character that is being read. -/
def decodeReplace (pending : Option Pending) : List UInt8 → List Char
  | [] => if pending.isSome then ['\uFFFD'] else []
  | b :: bs =>
    match pending with
    | none => (startByte b.toNat).1 ++ decodeReplace (startByte b.toNat).2 bs
    | some p =>
      if p.low ≤ b.toNat ∧ b.toNat ≤ p.high then
        let bits := 64 * p.bits + (b.toNat - 0x80)
        if p.left = 1 then Char.ofNat bits :: decodeReplace none bs
        else decodeReplace (some ⟨0x80, 0xBF, bits, p.left - 1⟩) bs
      else '\uFFFD' :: (startByte b.toNat).1 ++ decodeReplace (startByte b.toNat).2 bs

/-- `unquote(text)`: the runs of ASCII text are read as bytes; `run` is the current one, reversed.
-/
def unquoteFrom (run : List Char) : List Char → List Char
  | [] => decodeReplace none (unquoteToBytes run.reverse)
  | c :: cs =>
    if c.toNat < 128 then unquoteFrom (c :: run) cs
    else decodeReplace none (unquoteToBytes run.reverse) ++ c :: unquoteFrom [] cs

def unquote (text : List Char) : List Char := unquoteFrom [] text

theorem alwaysSafe_hexDigit : ∀ n < 16, alwaysSafe (hexDigit n) = true := by decide

/-- What is quoted has safe characters and percent signs only. -/
theorem mem_quote {text : List Char} {c : Char} (h : c ∈ quote text) :
    alwaysSafe c = true ∨ c = '%' := by
  obtain ⟨b, -, hc⟩ := List.mem_flatMap.mp h
  have hbyte : b.toNat < 256 := b.toNat_lt
  rw [quoteByte] at hc
  split at hc
  · next hsafe =>
    rw [List.mem_singleton.mp hc]
    exact .inl (Bool.and_eq_true_iff.mp hsafe).2
  · simp only [List.mem_cons, List.not_mem_nil, or_false] at hc
    rcases hc with rfl | rfl | rfl
    · exact .inr rfl
    · exact .inl (alwaysSafe_hexDigit _ (by omega))
    · exact .inl (alwaysSafe_hexDigit _ (by omega))

end Urls

end MemoryPlane
