import MemoryPlane.Python.JsonBounds
import MemoryPlane.Python.JsonOrder

/-!
# JSON columns

What the driver's decoder returns of a JSON column. The database keeps a number as a decimal
without an exponent, so a float that prints without digits behind the point comes back as the
integer that was printed, and a text with the character NUL is refused.
-/

namespace MemoryPlane

namespace Json

variable (t : FloatText)

/-- What the decoder makes of a number that went through a column. -/
def columnNumber (n : NumberText) : Option Json :=
  if n.scale ≤ 0 then some (.int n.shifted) else (t.round n.value).map .float

/-- A text in the value mentions the character that the database refuses. -/
def hasNul (v : Json) : Bool := v.anyText fun s => s.toList.contains '\x00'

/-- `text::jsonb`, read back by the decoder: `none` where the conversion raises. The range of a
decimal, which no float and no printed integer leaves, is not modelled. -/
def jsonb (cs : List Char) : Option Json :=
  ((parse (columnNumber t) cs).filter fun v => !v.hasNul).map sorted

mutual
/-- The value with other numbers in place of its floats. -/
def mapFloats (f : ℚ → Json) : Json → Json
  | .float q => f q
  | .arr xs => .arr (mapFloatsItems f xs)
  | .obj members => .obj (mapFloatsMembers f members)
  | v => v

def mapFloatsItems (f : ℚ → Json) : List Json → List Json
  | [] => []
  | x :: xs => mapFloats f x :: mapFloatsItems f xs

def mapFloatsMembers (f : ℚ → Json) : List (String × Json) → List (String × Json)
  | [] => []
  | (name, value) :: rest => (name, mapFloats f value) :: mapFloatsMembers f rest
end

/-- A float after it went through a column. -/
def storedFloat (q : ℚ) : Json :=
  if (t.repr q).scale ≤ 0 then .int (t.repr q).shifted else .float q

/-- The value is a number. -/
def isNumber : Json → Bool
  | .int _ | .float _ => true
  | _ => false

/-- A value after it went through a column. -/
def stored (v : Json) : Json := v.mapFloats (storedFloat t)

/-- A whole float as the integer that it is equal to. -/
def floatByValue (q : ℚ) : Json := if q.den = 1 then .int q.num else .float q

/-- A value with its numbers as they compare. -/
def byValue (v : Json) : Json := v.mapFloats floatByValue

/-- A float that comes back with another value: it prints without digits behind the point, and the
integer it prints as is merely the one it is the nearest float of. -/
def isInexact : Json → Bool
  | .float q => decide ((t.repr q).scale ≤ 0) && decide (((t.repr q).shifted : ℚ) ≠ q)
  | _ => false

section Numbers

variable {t : FloatText} {n : NumberText} {q : ℚ}

/-- Integers stay. -/
theorem columnNumber_ofInt (n : ℤ) : columnNumber t (NumberText.ofInt n) = some (.int n) := by
  have hscale : (NumberText.ofInt n).scale = 0 := rfl
  have hdigits : (NumberText.ofInt n).significand = (NumberText.ofInt n).toInt := by
    unfold NumberText.significand
    rw [NumberText.ofInt, List.tail_nil, List.append_nil]
    rfl
  rw [columnNumber, if_pos hscale.le, NumberText.shifted, hscale, hdigits, NumberText.toInt_ofInt]
  simp

/-- A float is read as itself, or as the integer it prints as. -/
theorem columnNumber_repr (h : t.isFloat q) :
    columnNumber t (t.repr q) = some (storedFloat t q) := by
  rw [columnNumber, storedFloat, t.round_repr q h]
  split <;> rfl

/-- A float comes back from the column as some number. -/
theorem isNumber_storedFloat (q : ℚ) : (storedFloat t q).isNumber = true := by
  unfold storedFloat
  split <;> rfl

/-- A float compared by value is some number. -/
theorem isNumber_floatByValue (q : ℚ) : (floatByValue q).isNumber = true := by
  unfold floatByValue
  split <;> rfl

/-- An integer is the value of a float. -/
theorem int_eq_floatByValue_iff {m : ℤ} : Json.int m = floatByValue q ↔ (m : ℚ) = q := by
  unfold floatByValue
  constructor
  · intro h
    split at h
    · rename_i hden
      rw [Json.int.inj h]
      exact Rat.coe_int_num_of_den_eq_one hden
    · cases h
  · intro h
    rw [← h, if_pos (Rat.den_intCast m), Rat.num_intCast]

/-- A float comes back with its value unless it is inexact. -/
theorem byValue_storedFloat :
    (storedFloat t q).byValue = floatByValue q ↔ isInexact t (.float q) = false := by
  rw [storedFloat, isInexact, Bool.and_eq_false_imp, decide_eq_true_eq]
  split
  · rename_i hscale
    rw [decide_eq_false_iff_not, not_not, imp_iff_right hscale]
    exact int_eq_floatByValue_iff
  · rename_i hscale
    exact iff_of_true rfl fun h => absurd h hscale

end Numbers

section Values

variable {t : FloatText} {ascii : Bool} {p : String → Bool} {v : Json} {f : ℚ → Json}

mutual
/-- What the decoder returns of the text of a value. -/
theorem reread_columnNumber : ∀ v : Json, v.FloatsIn t →
    reread (columnNumber t) t v = some (v.mapFloats (storedFloat t))
  | .null, _ | .bool _, _ | .str _, _ => rfl
  | .int n, _ => columnNumber_ofInt n
  | .float _, h => columnNumber_repr h
  | .arr xs, h => by rw [reread, rereadItems_columnNumber xs h, Option.map_some, mapFloats]
  | .obj members, h => by
    rw [reread, rereadMembers_columnNumber members h, Option.map_some, mapFloats]

/-- Reading back printed items gives the items that the column keeps. -/
theorem rereadItems_columnNumber : ∀ xs : List Json, FloatsInItems t xs →
    rereadItems (columnNumber t) t xs = some (mapFloatsItems (storedFloat t) xs)
  | [], _ => rfl
  | x :: xs, h => by
    rw [rereadItems, reread_columnNumber x h.1, rereadItems_columnNumber xs h.2, Option.bind_some,
      Option.map_some, mapFloatsItems]

/-- Reading back printed members gives the members that the column keeps. -/
theorem rereadMembers_columnNumber : ∀ members : List (String × Json), FloatsInMembers t members →
    rereadMembers (columnNumber t) t members = some (mapFloatsMembers (storedFloat t) members)
  | [], _ => rfl
  | (name, value) :: rest, h => by
    rw [rereadMembers, reread_columnNumber value h.1, rereadMembers_columnNumber rest h.2,
      Option.bind_some, Option.map_some, mapFloatsMembers]
end

section Floats

/-- Numbers have no texts and no members. -/
theorem of_isNumber (h : v.isNumber = true) :
    (∀ p, v.anyText p = false) ∧ v.sorted = v ∧ (∀ s, v ≠ .str s) ∧
      ∀ members, v ≠ .obj members := by
  cases v with
  | int _ | float _ =>
    refine ⟨fun _ => rfl, rfl, ?_, ?_⟩ <;> rintro _ ⟨⟩
  | _ => cases h

mutual
/-- The texts of a value stay where its floats become numbers. -/
theorem anyText_mapFloats (hf : ∀ q, (f q).isNumber = true) :
    ∀ v : Json, (v.mapFloats f).anyText p = v.anyText p
  | .null | .bool _ | .int _ | .str _ => rfl
  | .float q => (of_isNumber (hf q)).1 p
  | .arr xs => anyText_mapFloatsItems hf xs
  | .obj members => anyText_mapFloatsMembers hf members

/-- Changing the floats among the items changes none of their texts. -/
theorem anyText_mapFloatsItems (hf : ∀ q, (f q).isNumber = true) :
    ∀ xs : List Json, anyTextItems p (mapFloatsItems f xs) = anyTextItems p xs
  | [] => rfl
  | x :: xs => congrArg₂ or (anyText_mapFloats hf x) (anyText_mapFloatsItems hf xs)

/-- Changing the floats among the members changes none of their texts. -/
theorem anyText_mapFloatsMembers (hf : ∀ q, (f q).isNumber = true) :
    ∀ members : List (String × Json),
      anyTextMembers p (mapFloatsMembers f members) = anyTextMembers p members
  | [] => rfl
  | (name, value) :: rest =>
    congrArg₂ or (congrArg (p name || ·) (anyText_mapFloats hf value))
      (anyText_mapFloatsMembers hf rest)
end

/-- Changing the floats commutes with inserting a member in order. -/
theorem mapFloatsMembers_insertMember (name : String) (value : Json)
    (members : List (String × Json)) : mapFloatsMembers f (insertMember name value members) =
      insertMember name (value.mapFloats f) (mapFloatsMembers f members) := by
  induction members with
  | nil => rfl
  | cons m rest ih =>
    rw [insertMember, mapFloatsMembers, insertMember]
    dsimp only
    split
    · rfl
    · split
      · rfl
      · rw [mapFloatsMembers, ih]

mutual
/-- The members stay in their order. -/
theorem sorted_mapFloats (hf : ∀ q, (f q).isNumber = true) :
    ∀ v : Json, (v.mapFloats f).sorted = v.sorted.mapFloats f
  | .null | .bool _ | .int _ | .str _ => rfl
  | .float q => (of_isNumber (hf q)).2.1
  | .arr xs => congrArg Json.arr (sortedList_mapFloats hf xs)
  | .obj members => congrArg Json.obj (sortedMembers_mapFloats hf members)

/-- Sorting inside the items commutes with changing their floats. -/
theorem sortedList_mapFloats (hf : ∀ q, (f q).isNumber = true) :
    ∀ xs : List Json, sortedList (mapFloatsItems f xs) = mapFloatsItems f (sortedList xs)
  | [] => rfl
  | x :: xs => congrArg₂ List.cons (sorted_mapFloats hf x) (sortedList_mapFloats hf xs)

/-- Sorting the members commutes with changing their floats. -/
theorem sortedMembers_mapFloats (hf : ∀ q, (f q).isNumber = true) :
    ∀ members : List (String × Json),
      sortedMembers (mapFloatsMembers f members) = mapFloatsMembers f (sortedMembers members)
  | [] => rfl
  | (name, value) :: rest => by
    rw [mapFloatsMembers, sortedMembers, sorted_mapFloats hf value, sortedMembers_mapFloats hf rest,
      sortedMembers, mapFloatsMembers_insertMember]
end

/-- An object with one text is told by its texts. -/
theorem mapFloats_eq_text_iff (hf : ∀ q, (f q).isNumber = true) {name s : String} :
    v.mapFloats f = .obj [(name, .str s)] ↔ v = .obj [(name, .str s)] := by
  constructor
  · intro h
    cases v with
    | float q => exact absurd h ((of_isNumber (hf q)).2.2.2 _)
    | obj members =>
      cases members with
      | nil => cases h
      | cons m rest =>
        obtain ⟨key, value⟩ := m
        rw [mapFloats, mapFloatsMembers, Json.obj.injEq, List.cons.injEq, Prod.mk.injEq] at h
        obtain ⟨⟨rfl, hvalue⟩, hrest⟩ := h
        have hnil : rest = [] := by
          cases rest with
          | nil => rfl
          | cons m rest => cases hrest
        have hstr : value = .str s := by
          cases value with
          | str s => exact hvalue
          | float q =>
            exact absurd hvalue ((of_isNumber (hf q)).2.2.1 s)
          | _ => cases hvalue
        rw [hnil, hstr]
    | _ => cases h
  · rintro rfl
    rfl

end Floats

mutual
/-- Which values come back equal: those without inexact floats. -/
theorem byValue_stored_iff : ∀ v : Json,
    (v.stored t).byValue = v.byValue ↔ v.anyScalar (isInexact t) = false
  | .null | .bool _ | .int _ | .str _ => iff_of_true rfl rfl
  | .float _ => byValue_storedFloat
  | .arr xs => Json.arr.injEq _ _ ▸ byValue_storedItems_iff xs
  | .obj members => Json.obj.injEq _ _ ▸ byValue_storedMembers_iff members

/-- Items keep their value in the column exactly when no float among them is inexact. -/
theorem byValue_storedItems_iff : ∀ xs : List Json,
    mapFloatsItems floatByValue (mapFloatsItems (storedFloat t) xs) =
      mapFloatsItems floatByValue xs ↔ anyScalarItems (isInexact t) xs = false
  | [] => iff_of_true rfl rfl
  | x :: xs =>
    (List.cons.injEq _ _ _ _ ▸ and_congr (byValue_stored_iff x) (byValue_storedItems_iff xs)).trans
      Bool.or_eq_false_iff.symm

/-- Members keep their value in the column exactly when no float among them is inexact. -/
theorem byValue_storedMembers_iff : ∀ members : List (String × Json),
    mapFloatsMembers floatByValue (mapFloatsMembers (storedFloat t) members) =
      mapFloatsMembers floatByValue members ↔ anyScalarMembers (isInexact t) members = false
  | [] => iff_of_true rfl rfl
  | (name, value) :: rest => by
    have hvalue := byValue_stored_iff value
    unfold byValue stored at hvalue
    rw [mapFloatsMembers, mapFloatsMembers, mapFloatsMembers, List.cons.injEq, Prod.mk.injEq,
      byValue_storedMembers_iff rest, anyScalarMembers, Bool.or_eq_false_iff, hvalue]
    simp only [true_and]
end

/-- The column neither adds nor removes a null character. -/
theorem hasNul_stored (v : Json) : (v.stored t).hasNul = v.hasNul :=
  anyText_mapFloats isNumber_storedFloat v

/-- Sorting the keys commutes with storing in the column. -/
theorem sorted_stored (v : Json) : (v.stored t).sorted = v.sorted.stored t :=
  sorted_mapFloats isNumber_storedFloat v

/-- A column holds an object with one text when that was written. -/
theorem stored_eq_text_iff {name s : String} :
    v.stored t = .obj [(name, .str s)] ↔ v = .obj [(name, .str s)] :=
  mapFloats_eq_text_iff isNumber_storedFloat

/-- Only the object with this one text equals it by value. -/
theorem byValue_eq_text_iff {name s : String} :
    v.byValue = .obj [(name, .str s)] ↔ v = .obj [(name, .str s)] :=
  mapFloats_eq_text_iff isNumber_floatByValue

/-- What comes back of the text of a value. -/
theorem jsonb_dumps (h : v.FloatsIn t) :
    jsonb t (dumps t ascii v) = if v.sorted.hasNul then none else some (v.sorted.stored t) := by
  have hnul : (v.sorted.mapFloats (storedFloat t)).hasNul = v.sorted.hasNul :=
    hasNul_stored v.sorted
  rw [jsonb, dumps, parse_print, reread_columnNumber _ (floatsIn_sorted v h), Option.filter_some,
    hnul]
  cases v.sorted.hasNul with
  | true => rfl
  | false => exact congrArg some ((sorted_stored _).trans (congrArg (stored t) (sorted_sorted v)))

/-- No text of a column is longer than the text it was converted from. -/
theorem textsWithin_jsonb {cs : List Char} (h : jsonb t cs = some v) : TextsWithin cs.length v := by
  obtain ⟨w, hw, rfl⟩ := Option.map_eq_some_iff.mp h
  refine anyText_sorted w (textsWithin_parse ?_ (Option.filter_eq_some_iff.mp hw).1)
  intro m number hnumber
  unfold columnNumber at hnumber
  split at hnumber
  · cases hnumber
    rfl
  · obtain ⟨q, -, hq⟩ := Option.map_eq_some_iff.mp hnumber
    cases hq
    rfl

end Values

end Json

end MemoryPlane
