import MemoryPlane.Lib.Proc
import MemoryPlane.Python.Pieces
import MemoryPlane.Python.Urls

/-!
# Connections for the processes of the database

A database URL is taken apart into a URL without the password, for the command line, and the entry
of a password file.
-/

namespace MemoryPlane

/-- Non-secret command DSN plus a private libpq environment. -/
structure PostgresProcessConnection where
  dsn : List Char
  environment : List (String × String)
  password : Option (List Char)

/-- The temporary file that the environment points to. -/
structure PasswordFile where
  name : String
  mode : ℕ
  text : List Char

namespace PostgresProcess

open Urls

/-- `_pgpass_escape`. -/
def pgpassEscape (value : List Char) : List Char :=
  Text.replace [':'] ['\\', ':'] (Text.replace ['\\'] ['\\', '\\'] value)

/-- A text, or another one where it is not given or empty. -/
def orElse (text : Option (List Char)) (default : List Char) : List Char :=
  if text.getD [] = [] then default else text.getD []

/-- The port of the URL, where the override leaves it to the URL: a port 0 does. -/
def urlPort (parsed : SplitResult) (port : Option ℤ) : Except Exn (Option ℕ) :=
  if port.getD 0 = 0 then parsed.port else .ok none

/-- `port or parsed.port or 5432`. -/
def targetPort (port : Option ℤ) (urlPort : Option ℕ) : ℤ :=
  if port.getD 0 = 0 then if urlPort.getD 0 = 0 then 5432 else urlPort.getD 0 else port.getD 0

/-- What is shown of the port: an override 0 without a port in the URL is shown as `None`. -/
def portSuffix (port : Option ℤ) (urlPort : Option ℕ) : List Char :=
  if port.getD 0 ≠ 0 then ':' :: (toString (port.getD 0)).toList
  else if port.isSome ∨ urlPort.getD 0 ≠ 0 then
    ':' :: (urlPort.elim "None" fun p => toString p).toList
  else []

/-- An address with colons is shown in brackets. -/
def displayHost (host : List Char) : List Char := if ':' ∈ host then '[' :: host ++ [']'] else host

/-- `parsed.path.lstrip("/")`. -/
def databasePath (parsed : SplitResult) : List Char := parsed.path.dropWhile (· = '/')

/-- The decoded user of a URL. -/
def username (parsed : SplitResult) : List Char := unquote (parsed.username.getD [])

/-- What stands before the host without the password. -/
def userPrefix (parsed : SplitResult) : List Char :=
  if username parsed = [] then [] else quote (username parsed) ++ ['@']

/-- The URL without its password, for a host and a port. -/
def sanitize (parsed : SplitResult) (host suffix : List Char) : List Char :=
  urlunsplit { parsed with netloc := userPrefix parsed ++ displayHost host ++ suffix }

/-- The schemes of the database. -/
def schemes : List (List Char) := ["postgres".toList, "postgresql".toList]

/-- A URL without its password, the password and the fields of its password entry. -/
structure SplitDsn where
  sanitized : List Char
  password : Option (List Char)
  pgpassFields : List (List Char)

/-- `host or parsed.hostname`. -/
def targetHost (py : UrlRuntime) (parsed : SplitResult) (host : Option (List Char)) : List Char :=
  orElse host ((parsed.hostname py).getD [])

/-- What a URL is split into, with the port that it gives. -/
def splitParts (py : UrlRuntime) (parsed : SplitResult) (host : Option (List Char))
    (port : Option ℤ) (fromUrl : Option ℕ) : SplitDsn where
  sanitized := sanitize parsed (targetHost py parsed host) (portSuffix port fromUrl)
  password := parsed.password.map unquote
  pgpassFields := [targetHost py parsed host, (toString (targetPort port fromUrl)).toList,
    orElse (some (unquote (databasePath parsed))) ['*'], orElse (some (username parsed)) ['*'],
    (parsed.password.map unquote).getD []]

/-- `_split_dsn`. -/
def splitDsn (py : UrlRuntime) (dsn : List Char) (host : Option (List Char)) (port : Option ℤ) :
    Except Exn SplitDsn := do
  let parsed ← urlsplit py dsn
  if parsed.scheme ∉ schemes ∨ (parsed.hostname py).getD [] = [] then
    .error (.valueError "database URL must be an absolute PostgreSQL URL")
  else do
    let fromUrl ← urlPort parsed port
    .ok (splitParts py parsed host port fromUrl)

/-- The text of the password file. -/
def pgpassText (fields : List (List Char)) : List Char :=
  [':'].intercalate (fields.map pgpassEscape) ++ ['\n']

/-- `postgres_process_connection`: what is yielded and the file that is there meanwhile. -/
def postgresProcessConnection (py : UrlRuntime) (dsn : List Char)
    (baseEnvironment : List (String × String)) (host : Option (List Char)) (port : Option ℤ)
    (name : String) : Except Exn (PostgresProcessConnection × Option PasswordFile) := do
  let parts ← splitDsn py dsn host port
  let environment := baseEnvironment.filter fun entry => entry.1 ≠ "PGPASSWORD"
  match parts.password with
  | none => .ok (⟨parts.sanitized, environment, none⟩, none)
  | some password =>
    .ok (⟨parts.sanitized, environment.filter (fun entry => entry.1 ≠ "PGPASSFILE") ++
        [("PGPASSFILE", name)], some password⟩,
      some ⟨name, 0o600, pgpassText parts.pgpassFields⟩)

/-- `password_free_postgres_dsn`. -/
def passwordFreePostgresDsn (py : UrlRuntime) (dsn : List Char) (host : Option (List Char))
    (port : Option ℤ) : Except Exn (List Char × Option (List Char)) := do
  let parts ← splitDsn py dsn host port
  .ok (parts.sanitized, parts.password)

/-- What an accepted URL is split into. -/
theorem splitDsn_eq_ok {py : UrlRuntime} {dsn : List Char} {host : Option (List Char)}
    {port : Option ℤ} {parts : SplitDsn} : splitDsn py dsn host port = .ok parts ↔
      ∃ parsed fromUrl, urlsplit py dsn = .ok parsed ∧ parsed.scheme ∈ schemes ∧
        (parsed.hostname py).getD [] ≠ [] ∧ urlPort parsed port = .ok fromUrl ∧
        parts = splitParts py parsed host port fromUrl := by
  rw [splitDsn]
  constructor
  · intro h
    obtain ⟨parsed, hparsed, h⟩ := Except.bind_eq_ok.mp h
    split at h
    · cases h
    · next hvalid =>
      rw [not_or, not_not] at hvalid
      obtain ⟨fromUrl, hport, h⟩ := Except.bind_eq_ok.mp h
      cases h
      exact ⟨parsed, fromUrl, hparsed, hvalid.1, hvalid.2, hport, rfl⟩
  · rintro ⟨parsed, fromUrl, hparsed, hscheme, hhost, hport, rfl⟩
    rw [hparsed, Except.ok_bind, if_neg (not_or.mpr ⟨not_not.mpr hscheme, hhost⟩), hport,
      Except.ok_bind]

end PostgresProcess

end MemoryPlane
