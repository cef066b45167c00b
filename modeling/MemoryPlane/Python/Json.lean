import Mathlib.Data.List.Induction
import Mathlib.Data.Rat.Defs

/-!
# JSON values

Decoded JSON, as it stands in metadata and in request bodies. An object keeps its members in
order; reading a member takes the last one of that name, as the decoder's dictionary does.
-/

namespace MemoryPlane

/-- A decoded JSON value; a float is given by its exact value. -/
inductive Json : Type
  | null
  | bool (b : Bool)
  | int (n : ℤ)
  | float (q : ℚ)
  | str (s : String)
  | arr (xs : List Json)
  | obj (members : List (String × Json))

namespace Json

/-- `bool(value)`. -/
def truthy : Json → Bool
  | .null => false
  | .bool b => b
  | .int n => n ≠ 0
  | .float q => q ≠ 0
  | .str s => s ≠ ""
  | .arr xs => !xs.isEmpty
  | .obj members => !members.isEmpty

mutual
/-- Equality of values is decidable, member by member. -/
def decEq : (a b : Json) → Decidable (a = b)
  | .null, .null => isTrue rfl
  | .bool a, .bool b => decidable_of_iff (a = b) (by simp)
  | .int a, .int b => decidable_of_iff (a = b) (by simp)
  | .float a, .float b => decidable_of_iff (a = b) (by simp)
  | .str a, .str b => decidable_of_iff (a = b) (by simp)
  | .arr a, .arr b =>
    match decEqList a b with
    | isTrue h => isTrue (by rw [h])
    | isFalse h => isFalse (by simpa using h)
  | .obj a, .obj b =>
    match decEqMembers a b with
    | isTrue h => isTrue (by rw [h])
    | isFalse h => isFalse (by simpa using h)
  | .null, .bool _ | .null, .int _ | .null, .float _ | .null, .str _ | .null, .arr _
  | .null, .obj _ | .bool _, .null | .bool _, .int _ | .bool _, .float _ | .bool _, .str _
  | .bool _, .arr _ | .bool _, .obj _ | .int _, .null | .int _, .bool _ | .int _, .float _
  | .int _, .str _ | .int _, .arr _ | .int _, .obj _ | .float _, .null | .float _, .bool _
  | .float _, .int _ | .float _, .str _ | .float _, .arr _ | .float _, .obj _ | .str _, .null
  | .str _, .bool _ | .str _, .int _ | .str _, .float _ | .str _, .arr _ | .str _, .obj _
  | .arr _, .null | .arr _, .bool _ | .arr _, .int _ | .arr _, .float _ | .arr _, .str _
  | .arr _, .obj _ | .obj _, .null | .obj _, .bool _ | .obj _, .int _ | .obj _, .float _
  | .obj _, .str _ | .obj _, .arr _ => isFalse (by simp)

/-- Lists are compared element by element. -/
def decEqList : (a b : List Json) → Decidable (a = b)
  | [], [] => isTrue rfl
  | [], _ :: _ | _ :: _, [] => isFalse (by simp)
  | x :: xs, y :: ys =>
    match decEq x y, decEqList xs ys with
    | isTrue h, isTrue hs => isTrue (by rw [h, hs])
    | isFalse h, _ => isFalse fun he => h (List.cons.inj he).1
    | _, isFalse hs => isFalse fun he => hs (List.cons.inj he).2

/-- Members are compared by name and value. -/
def decEqMembers : (a b : List (String × Json)) → Decidable (a = b)
  | [], [] => isTrue rfl
  | [], _ :: _ | _ :: _, [] => isFalse (by simp)
  | (k, x) :: xs, (l, y) :: ys =>
    match decEq x y, decEqMembers xs ys with
    | isTrue h, isTrue hs =>
      decidable_of_iff (k = l) (by simp [h, hs])
    | isFalse h, _ => isFalse fun he => h (Prod.mk.inj (List.cons.inj he).1).2
    | _, isFalse hs => isFalse fun he => hs (List.cons.inj he).2
end

instance : DecidableEq Json := decEq

/-- Insert a member into sorted members, unless its name is there. -/
def insertMember (name : String) (value : Json) : List (String × Json) → List (String × Json)
  | [] => [(name, value)]
  | m :: rest =>
    if name = m.1 then m :: rest
    else if name < m.1 then (name, value) :: m :: rest
    else m :: insertMember name value rest

mutual
/-- The value with the members of its objects in one fixed order and each name once, the last
member of a name prevailing. Two objects are equal as dictionaries when these are equal. -/
def sorted : Json → Json
  | .arr xs => .arr (sortedList xs)
  | .obj members => .obj (sortedMembers members)
  | v => v

def sortedList : List Json → List Json
  | [] => []
  | x :: xs => sorted x :: sortedList xs

def sortedMembers : List (String × Json) → List (String × Json)
  | [] => []
  | (name, value) :: rest => insertMember name (sorted value) (sortedMembers rest)
end

mutual
/-- A character occurs in a text of the value, names included. -/
def mentions (c : Char) : Json → Bool
  | .str s => s.toList.contains c
  | .arr xs => mentionsList c xs
  | .obj members => mentionsMembers c members
  | _ => false

def mentionsList (c : Char) : List Json → Bool
  | [] => false
  | x :: xs => mentions c x || mentionsList c xs

def mentionsMembers (c : Char) : List (String × Json) → Bool
  | [] => false
  | (name, value) :: rest => name.toList.contains c || mentions c value || mentionsMembers c rest
end

end Json

/-- A Python dictionary with string keys, as JSON metadata is. -/
abbrev JsonObject := List (String × Json)

namespace JsonObject

/-- `d.get(name)`. -/
def get (d : JsonObject) (name : String) : Option Json :=
  (d.reverse.find? fun m => m.1 = name).map Prod.snd

@[simp] theorem get_nil (name : String) : get [] name = none := rfl

/-- A later member of the same name hides an earlier one. -/
theorem get_cons (key : String) (value : Json) (d : JsonObject) (name : String) :
    get ((key, value) :: d) name = (d.get name).or (if key = name then some value else none) := by
  unfold get
  rw [List.reverse_cons, List.find?_append]
  cases d.reverse.find? fun m => m.1 = name with
  | some m => rfl
  | none => by_cases h : key = name <;> simp [h]

/-- `d[name] = value`: an existing member is replaced where it stands. -/
def set (d : JsonObject) (name : String) (value : Json) : JsonObject :=
  if d.any (fun m => m.1 = name) then d.map fun m => if m.1 = name then (name, value) else m
  else d ++ [(name, value)]

/-- `{**d, **e}`. -/
def merge (d e : JsonObject) : JsonObject := e.foldl (fun acc m => set acc m.1 m.2) d

/-- A member that was just written is read back. -/
@[simp] theorem get_set_self (d : JsonObject) (name : String) (value : Json) :
    (set d name value).get name = some value := by
  unfold set get
  split
  · rename_i h
    obtain ⟨m, hm, hn⟩ : ∃ m ∈ d, m.1 = name := by simpa [List.any_eq_true] using h
    set e := d.map fun m => if m.1 = name then (name, value) else m with he
    have hval : ∀ m ∈ e, m.1 = name → m.2 = value := by
      intro m hm hmn
      obtain ⟨m', -, rfl⟩ := List.mem_map.mp hm
      by_cases hk : m'.1 = name
      · simp [hk]
      · simp [hk] at hmn
    have hex : (name, value) ∈ e := List.mem_map.mpr ⟨m, hm, by simp [hn]⟩
    cases hf : e.reverse.find? fun m => m.1 = name with
    | none => simpa using List.find?_eq_none.mp hf (name, value) (List.mem_reverse.mpr hex)
    | some m' =>
      have hmem := List.mem_reverse.mp (List.mem_of_find?_eq_some hf)
      have hkey : m'.1 = name := by simpa using List.find?_some hf
      simp [hval m' hmem hkey]
  · simp

/-- Other members stay. -/
theorem get_set_of_ne {d : JsonObject} {name other : String} (h : other ≠ name) (value : Json) :
    (set d other value).get name = d.get name := by
  unfold set get
  split
  · rw [← List.map_reverse, List.find?_map, Option.map_map]
    have hp : ((fun m : String × Json => decide (m.1 = name)) ∘
        fun m => if m.1 = other then (other, value) else m) = fun m => decide (m.1 = name) := by
      ext m
      by_cases hm : m.1 = other
      · simp [hm]
      · simp [hm]
    rw [hp]
    cases hf : d.reverse.find? fun m => m.1 = name with
    | none => rfl
    | some m =>
      have hm : m.1 = name := by simpa using List.find?_some hf
      have hne : m.1 ≠ other := fun he => h (he.symm.trans hm)
      simp [hne]
  · simp [h]

/-- Members of the second dictionary replace those of the first. -/
theorem get_merge (d e : JsonObject) (name : String) :
    (merge d e).get name = (e.get name).or (d.get name) := by
  induction e using List.reverseRecOn with
  | nil => rfl
  | append_singleton e m ih =>
    have hmerge : merge d (e ++ [m]) = set (merge d e) m.1 m.2 := by simp [merge]
    rw [hmerge]
    by_cases hm : m.1 = name
    · rw [← hm, get_set_self]
      simp [get]
    · rw [get_set_of_ne hm, ih]
      simp [get, hm]

end JsonObject

end MemoryPlane
