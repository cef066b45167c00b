import MemoryPlane.Python.Json

/-!
# Members in order

Sorting the members of a value a second time changes nothing, and a member is found after sorting
as before.
-/

namespace MemoryPlane

namespace Json

/-- Names ascend. -/
def NamesAscend (members : List (String × Json)) : Prop :=
  members.Pairwise fun a b => a.1 < b.1

variable {name : String} {value : Json} {members : List (String × Json)}

theorem lt_of_not_lt {a b : String} (hne : a ≠ b) (h : ¬ a < b) : b < a := by
  by_contra hba
  exact hne (String.le_antisymm (String.not_lt.mp hba) (String.not_lt.mp h))

theorem mem_insertMember {m : String × Json} (h : m ∈ insertMember name value members) :
    m = (name, value) ∨ m ∈ members := by
  induction members with
  | nil => exact .inl (List.mem_singleton.mp h)
  | cons first rest ih =>
    rw [insertMember] at h
    split at h
    · exact .inr h
    · split at h
      · exact List.mem_cons.mp h
      · obtain rfl | h := List.mem_cons.mp h
        · exact .inr (List.mem_cons_self ..)
        · exact (ih h).imp_right (List.mem_cons_of_mem _)

theorem namesAscend_insertMember (h : NamesAscend members) :
    NamesAscend (insertMember name value members) := by
  induction members with
  | nil => exact List.pairwise_singleton _ _
  | cons first rest ih =>
    obtain ⟨hfirst, hrest⟩ := List.pairwise_cons.mp h
    rw [insertMember]
    split
    · exact h
    · rename_i hne
      split
      · rename_i hlt
        refine List.pairwise_cons.mpr ⟨fun m hm => ?_, h⟩
        obtain rfl | hm := List.mem_cons.mp hm
        · exact hlt
        · exact String.lt_trans hlt (hfirst m hm)
      · rename_i hlt
        refine List.pairwise_cons.mpr ⟨fun m hm => ?_, ih hrest⟩
        obtain rfl | hm := mem_insertMember hm
        · exact lt_of_not_lt hne hlt
        · exact hfirst m hm

theorem namesAscend_sortedMembers : ∀ members : List (String × Json),
    NamesAscend (sortedMembers members)
  | [] => List.Pairwise.nil
  | (_, _) :: rest => namesAscend_insertMember (namesAscend_sortedMembers rest)

/-- A name below all others is inserted at the front. -/
theorem insertMember_of_lt (h : ∀ m ∈ members, name < m.1) :
    insertMember name value members = (name, value) :: members := by
  cases members with
  | nil => rfl
  | cons first rest =>
    have hlt := h first (List.mem_cons_self ..)
    have hne : name ≠ first.1 := fun heq => String.lt_irrefl _ (heq ▸ hlt)
    rw [insertMember, if_neg hne, if_pos hlt]

/-- Members in order whose values are sorted stay. -/
theorem sortedMembers_eq_self (hnames : NamesAscend members)
    (hvalues : ∀ m ∈ members, m.2.sorted = m.2) : sortedMembers members = members := by
  induction members with
  | nil => rfl
  | cons first rest ih =>
    obtain ⟨hfirst, hrest⟩ := List.pairwise_cons.mp hnames
    rw [sortedMembers, ih hrest fun m hm => hvalues m (List.mem_cons_of_mem _ hm),
      hvalues first (List.mem_cons_self ..), insertMember_of_lt hfirst]

theorem sorted_values_insertMember (hvalue : value.sorted = value)
    (h : ∀ m ∈ members, m.2.sorted = m.2) :
    ∀ m ∈ insertMember name value members, m.2.sorted = m.2 := by
  intro m hm
  obtain rfl | hm := mem_insertMember hm
  · exact hvalue
  · exact h m hm

mutual
/-- Sorting again changes nothing. -/
theorem sorted_sorted : ∀ v : Json, v.sorted.sorted = v.sorted
  | .null | .bool _ | .int _ | .float _ | .str _ => rfl
  | .arr xs => congrArg Json.arr (sorted_sortedList xs)
  | .obj members =>
    congrArg Json.obj (sortedMembers_eq_self (namesAscend_sortedMembers members)
      (sorted_values_sortedMembers members))

theorem sorted_sortedList : ∀ xs : List Json, sortedList (sortedList xs) = sortedList xs
  | [] => rfl
  | x :: xs => congrArg₂ List.cons (sorted_sorted x) (sorted_sortedList xs)

theorem sorted_values_sortedMembers : ∀ members : List (String × Json),
    ∀ m ∈ sortedMembers members, m.2.sorted = m.2
  | [], _, h => by cases h
  | (_, value) :: rest, m, h =>
    sorted_values_insertMember (sorted_sorted value) (sorted_values_sortedMembers rest) m h
end

/-- An inserted member is hidden by one of its name. -/
theorem get_insertMember (key : String) :
    JsonObject.get (insertMember name value members) key =
      (JsonObject.get members key).or (if name = key then some value else none) := by
  induction members with
  | nil => exact JsonObject.get_cons name value [] key
  | cons first rest ih =>
    rw [insertMember]
    split
    · rename_i heq
      rw [JsonObject.get_cons first.1 first.2 rest key]
      by_cases hkey : name = key
      · rw [if_pos (heq ▸ hkey), Option.or_assoc, Option.some_or]
      · rw [if_neg hkey, Option.or_none]
    · rename_i hne
      split
      · exact JsonObject.get_cons name value (first :: rest) key
      · rw [JsonObject.get_cons first.1 first.2 _ key, ih,
          JsonObject.get_cons first.1 first.2 rest key, Option.or_assoc, Option.or_assoc]
        by_cases hkey : name = key
        · have hfirst : ¬ first.1 = key := fun h => hne (hkey.trans h.symm)
          rw [if_pos hkey, if_neg hfirst, Option.or_none, Option.none_or]
        · rw [if_neg hkey, Option.none_or, Option.or_none]

/-- A member is found after sorting as before. -/
theorem get_sortedMembers (key : String) : ∀ members : List (String × Json),
    JsonObject.get (sortedMembers members) key = (JsonObject.get members key).map sorted
  | [] => rfl
  | (name, value) :: rest => by
    rw [sortedMembers, get_insertMember, get_sortedMembers key rest, JsonObject.get_cons,
      Option.map_or]
    split <;> rfl

end Json

end MemoryPlane
