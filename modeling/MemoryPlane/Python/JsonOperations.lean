import MemoryPlane.Domain.Models
import MemoryPlane.Python.JsonValue

/-!
# Operations on decoded JSON

What Python's own operations make of a value whose type nobody has checked: looking a member up
with a default, iterating, and comparing.
-/

namespace MemoryPlane

namespace JsonValue

/-- `members.get(name, default)`: a member that is null is not the default. -/
def getD (members : JsonMembers) (name : String) (default : JsonValue) : JsonValue :=
  ((members.reverse.find? fun m => m.1 = name).map Prod.snd).getD default

mutual

/-- A value all of whose floats are finite. -/
def ofJson : Json → JsonValue
  | .null => .null
  | .bool b => .bool b
  | .int n => .int n
  | .float q => .float (.finite q)
  | .str s => .str s
  | .arr xs => .arr (ofItems xs)
  | .obj members => .obj (ofMembers members)

def ofItems : List Json → List JsonValue
  | [] => []
  | x :: xs => ofJson x :: ofItems xs

def ofMembers : List (String × Json) → JsonMembers
  | [] => []
  | (name, v) :: ms => (name, ofJson v) :: ofMembers ms

end

theorem ofMembers_eq_map (ms : JsonObject) : ofMembers ms = ms.map fun m => (m.1, ofJson m.2) := by
  induction ms with
  | nil => rfl
  | cons m ms ih => exact congrArg ((m.1, ofJson m.2) :: ·) ih

/-- A member is looked up as before. -/
theorem getD_ofMembers (ms : JsonObject) (name : String) (default : JsonValue) :
    getD (ofMembers ms) name default = ((ms.get name).map ofJson).getD default := by
  rw [getD, JsonObject.get, ofMembers_eq_map, ← List.map_reverse, List.find?_map, Option.map_map,
    Option.map_map]
  rfl

mutual

/-- The value without infinities and NaN: `none` where there is one. -/
def toJson : JsonValue → Option Json
  | .null => some .null
  | .bool b => some (.bool b)
  | .int n => some (.int n)
  | .float (.finite q) => some (.float q)
  | .float _ => none
  | .str s => some (.str s)
  | .arr xs => (toItems xs).map .arr
  | .obj members => (toMembers members).map .obj

def toItems : List JsonValue → Option (List Json)
  | [] => some []
  | x :: xs => (toJson x).bind fun y => (toItems xs).map fun ys => y :: ys

def toMembers : JsonMembers → Option (List (String × Json))
  | [] => some []
  | (name, v) :: ms => (toJson v).bind fun w => (toMembers ms).map fun ns => (name, w) :: ns

end

/-- `int(value)`. -/
def toInt (u : Unicode) : JsonValue → Except Exn ℤ
  | .int n => .ok n
  | .bool b => .ok (if b then 1 else 0)
  | .float (.finite q) => .ok (if 0 ≤ q then q.floor else -(-q).floor)
  | .float (.infinite _) => .error (.overflowError "cannot convert float infinity to integer")
  | .float .nan => .error (.valueError "cannot convert float NaN to integer")
  | .str s =>
    match parseInt u s.toList with
    | some n => .ok n
    | none => .error (.valueError "invalid literal for int() with base 10")
  | .null | .arr _ | .obj _ =>
    .error (.typeError "int() argument must be a string, a bytes-like object or a real number")

/-- The value is a text that satisfies a predicate. -/
def textWith (p : String → Bool) : JsonValue → Bool
  | .str s => p s
  | _ => false

/-- `value is True` or `value is False`. -/
def isBool (expected : Bool) : JsonValue → Bool
  | .bool b => b == expected
  | _ => false

/-- A dictionary, or the empty one for any other value. -/
def members : JsonValue → JsonMembers
  | .obj ms => ms
  | _ => []

/-- A value that can be iterated over. -/
def iterable : JsonValue → Bool
  | .str _ | .arr _ | .obj _ => true
  | _ => false

/-- `iter(value)`: the characters of a text, the items of a list, the names of a dictionary. -/
def iterate : JsonValue → Except Exn (List JsonValue)
  | .str s => .ok (s.toList.map fun c => .str (String.ofList [c]))
  | .arr xs => .ok xs
  | .obj ms => .ok (ms.map fun m => .str m.1)
  | _ => .error (.typeError "object is not iterable")

/-- A number as a float of any size; a truth value is a number. -/
def number : JsonValue → Option PyFloat
  | .bool b => some (.finite (if b then 1 else 0))
  | .int n => some (.finite n)
  | .float f => some f
  | _ => none

/-- `a == b` of two values that are no texts, lists or dictionaries: NaN equals nothing. -/
def equalScalars (a b : JsonValue) : Bool :=
  match a, b with
  | .null, .null => true
  | a, b =>
    match number a, number b with
    | some x, some y => x = y && x ≠ .nan
    | _, _ => false

/-- The decoder returns one and the same object for every NaN. -/
def bothNan : JsonValue → JsonValue → Bool
  | .float .nan, .float .nan => true
  | _, _ => false

mutual

/-- `a == b`. Lists and dictionaries compare identical items as equal without asking them. -/
def equal : JsonValue → JsonValue → Bool
  | .str s, .str t => s = t
  | .arr xs, .arr ys => equalItems xs ys
  | .obj ms, .obj ns => ms.length = ns.length && equalMembers ms ns
  | a, b => equalScalars a b

def equalItems : List JsonValue → List JsonValue → Bool
  | [], [] => true
  | x :: xs, y :: ys => (bothNan x y || equal x y) && equalItems xs ys
  | _, _ => false

def equalMembers : List (String × JsonValue) → JsonMembers → Bool
  | [], _ => true
  | (name, v) :: ms, ns =>
    (match ns.reverse.find? fun m => m.1 = name with
      | some m => bothNan v m.2 || equal v m.2
      | none => false) && equalMembers ms ns

end

mutual

/-- A name or a text in the value satisfies a predicate. -/
def anyText (p : String → Bool) : JsonValue → Bool
  | .str s => p s
  | .arr xs => anyTextItems p xs
  | .obj ms => anyTextMembers p ms
  | _ => false

def anyTextItems (p : String → Bool) : List JsonValue → Bool
  | [] => false
  | x :: xs => anyText p x || anyTextItems p xs

def anyTextMembers (p : String → Bool) : List (String × JsonValue) → Bool
  | [] => false
  | (name, v) :: ms => p name || anyText p v || anyTextMembers p ms

end

/-- A text equals that text only. -/
theorem equal_str {v : JsonValue} {s : String} : equal v (.str s) = true ↔ v = .str s := by
  cases v <;> simp [equal, equalScalars, number]

theorem iterate_eq_ok {v : JsonValue} : (∃ xs, iterate v = .ok xs) ↔ v.iterable = true := by
  cases v <;> simp [iterate, iterable]

end JsonValue

end MemoryPlane
