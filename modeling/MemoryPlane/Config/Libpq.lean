import MemoryPlane.Lib.Escapes
import MemoryPlane.Python.Pieces
import MemoryPlane.Python.Urls

/-!
# What the database library reads

The password file and the connection URI as the client library of the database reads them: the
entries of the file, and the passwords in the user part and among the parameters of the URI.
-/

namespace MemoryPlane

namespace Libpq

open Urls

/-- The lines of a text, each of which ends with a line feed. -/
def lines (text : List Char) : List (List Char) := Text.dropEmptyEnd (text.splitOnP (· = '\n'))

/-- The fields of the entries of a password file. -/
def entries (text : List Char) : List (List (List Char)) :=
  ((lines text).filter fun line => line.head? ≠ some '#').map (Escapes.fields '\\' ':' false)

/-- The text behind the prefix of a connection URI. -/
def uriRest (dsn : List Char) : Option (List Char) :=
  (dsn.dropPrefix? "postgresql://".toList).or (dsn.dropPrefix? "postgres://".toList)

/-- The user part, which ends at the first `@` that comes before a slash, and what is behind it. -/
def splitUser (rest : List Char) : Option (List Char) × List Char :=
  match rest.span fun c => c ≠ '@' && c ≠ '/' with
  | (info, '@' :: behind) => (some info, behind)
  | _ => (none, rest)

/-- The password in the user part. -/
def userPassword (rest : List Char) : List Char :=
  ((splitUser rest).1.bind fun info => (partition ':' info).2).getD []

/-- Where a reader of hosts is: at the start of a host, in brackets, or in a name or port. -/
inductive HostScan where
  | start | address | plain

/-- What is behind the hosts, from the first slash or question mark on. -/
def afterHosts : HostScan → List Char → List Char
  | _, [] => []
  | .address, c :: cs => afterHosts (if c = ']' then .plain else .address) cs
  | .start, c :: cs =>
    if c = '/' ∨ c = '?' then c :: cs
    else afterHosts (if c = '[' then .address else if c = ',' then .start else .plain) cs
  | .plain, c :: cs =>
    if c = '/' ∨ c = '?' then c :: cs else afterHosts (if c = ',' then .start else .plain) cs

/-- The text of the parameters behind the hosts and the database. -/
def parameterText (hosts : List Char) : List Char :=
  (partition '?' (afterHosts .start hosts)).2.getD []

/-- A decoded word of a URI: `none` where it has a broken escape or an escaped zero. -/
def uriDecode : List Char → Option (List UInt8)
  | [] => some []
  | ['%'] => none
  | ['%', _] => none
  | '%' :: a :: b :: rest =>
    match hexValue a, hexValue b with
    | some high, some low =>
      if 16 * high + low = 0 then none
      else (uriDecode rest).map (UInt8.ofNat (16 * high + low) :: ·)
    | _, _ => none
  | c :: rest => (uriDecode rest).map (Utf8.encode [c] ++ ·)

/-- The parameter is a password that is not empty. -/
def isPassword (parameter : List Char) : Bool :=
  uriDecode (partition '=' parameter).1 = some (Utf8.encode "password".toList) &&
    (partition '=' parameter).2.getD [] ≠ []

/-- A parameter behind the hosts is a password. -/
def PasswordParameter (hosts : List Char) : Prop :=
  ∃ parameter ∈ (parameterText hosts).splitOnP (· = '&'), isPassword parameter = true

/-- The text behind the prefix has a password. -/
def CarriesPassword (rest : List Char) : Prop :=
  userPassword rest ≠ [] ∨ PasswordParameter (splitUser rest).2

end Libpq

end MemoryPlane
