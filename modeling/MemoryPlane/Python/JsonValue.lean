import MemoryPlane.Python.Numbers

/-!
# What the JSON decoder returns

Decoded JSON with the floats of the decoder: it reads `Infinity` and `NaN`, and a number beyond the
floats as an infinity.
-/

namespace MemoryPlane

/-- A value of the JSON decoder. -/
inductive JsonValue : Type
  | null
  | bool (b : Bool)
  | int (n : ℤ)
  | float (f : PyFloat)
  | str (s : String)
  | arr (xs : List JsonValue)
  | obj (members : List (String × JsonValue))

/-- A dictionary of the decoder. -/
abbrev JsonMembers := List (String × JsonValue)

namespace JsonValue

/-- `bool(value)`. -/
def truthy : JsonValue → Bool
  | .null => false
  | .bool b => b
  | .int n => n ≠ 0
  | .float f => f ≠ .finite 0
  | .str s => s ≠ ""
  | .arr xs => !xs.isEmpty
  | .obj members => !members.isEmpty

/-- `value.get(name)`, where a missing member is the same as null. -/
def get (members : JsonMembers) (name : String) : JsonValue :=
  ((members.reverse.find? fun m => m.1 = name).map Prod.snd).getD .null

/-- The value is a list or a dictionary, which no set can hold. -/
def isContainer : JsonValue → Bool
  | .arr _ | .obj _ => true
  | _ => false

/-- The value is an infinity. -/
def isInfinite : JsonValue → Bool
  | .float (.infinite _) => true
  | _ => false

end JsonValue

end MemoryPlane
