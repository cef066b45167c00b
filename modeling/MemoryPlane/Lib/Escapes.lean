import Mathlib.Data.List.Basic

/-!
# Fields between separators, with an escape letter

Fields are joined by a separator after every separator and escape letter in them got an escape
letter before it. A reader that splits at the separators without an escape and drops the escapes
gives the fields back.
-/

namespace MemoryPlane

namespace Escapes

variable {α : Type}

/-- A letter put before the first list keeps what all letters have. -/
theorem forall_mem_modifyHead {p : α → Prop} {c : α} {rows : List (List α)} (hc : p c)
    (h : ∀ row ∈ rows, ∀ d ∈ row, p d) : ∀ row ∈ rows.modifyHead (c :: ·), ∀ d ∈ row, p d := by
  cases rows with
  | nil => simp
  | cons first rows =>
    rw [List.modifyHead_cons]
    intro row hrow d hd
    obtain rfl | hrow := List.mem_cons.mp hrow
    · obtain rfl | hd := List.mem_cons.mp hd
      · exact hc
      · exact h first List.mem_cons_self d hd
    · exact h row (List.mem_cons_of_mem _ hrow) d hd

variable [DecidableEq α] {esc sep : α}

/-- An escape letter stands before each escape letter and each separator. -/
def escape (esc sep : α) (field : List α) : List α :=
  field.flatMap fun c => if c = esc ∨ c = sep then [esc, c] else [c]

/-- The fields of a text; `escaped` tells that an escape letter was read. -/
def fields (esc sep : α) (escaped : Bool) : List α → List (List α)
  | [] => [if escaped then [esc] else []]
  | c :: cs =>
    if escaped then (fields esc sep false cs).modifyHead (c :: ·)
    else if c = esc then fields esc sep true cs
    else if c = sep then [] :: fields esc sep false cs
    else (fields esc sep false cs).modifyHead (c :: ·)

/-- The escaped fields with separators between them. -/
def join (esc sep : α) (rows : List (List α)) : List α :=
  [sep].intercalate (rows.map (escape esc sep))

theorem escape_cons (c : α) (field : List α) : escape esc sep (c :: field) =
    (if c = esc ∨ c = sep then [esc, c] else [c]) ++ escape esc sep field := by
  rw [escape, List.flatMap_cons, escape]

theorem join_singleton (row : List α) : join esc sep [row] = escape esc sep row := by
  rw [join, List.map_singleton, List.intercalate_singleton]

theorem join_cons (row next : List α) (rows : List (List α)) :
    join esc sep (row :: next :: rows) =
      escape esc sep row ++ sep :: join esc sep (next :: rows) := by
  simp [join, List.intercalate]

/-- The letters of an escaped field. -/
theorem forall_mem_escape {p : α → Prop} (hesc : p esc) {field : List α} (h : ∀ c ∈ field, p c) :
    ∀ c ∈ escape esc sep field, p c := by
  intro c hc
  obtain ⟨d, hd, hc⟩ := List.mem_flatMap.mp hc
  split at hc
  · obtain rfl | hc := List.mem_cons.mp hc
    · exact hesc
    · exact List.mem_singleton.mp hc ▸ h d hd
  · exact List.mem_singleton.mp hc ▸ h d hd

/-- The letters of joined fields. -/
theorem forall_mem_join {p : α → Prop} (hesc : p esc) (hsep : p sep) {rows : List (List α)}
    (h : ∀ row ∈ rows, ∀ c ∈ row, p c) : ∀ c ∈ join esc sep rows, p c := by
  induction rows with
  | nil => simp [join]
  | cons row rows ih =>
    have hrow : ∀ c ∈ escape esc sep row, p c := forall_mem_escape hesc (h row List.mem_cons_self)
    have hrows := ih fun r hr => h r (List.mem_cons_of_mem _ hr)
    cases rows with
    | nil => rwa [join_singleton]
    | cons next rows =>
      rw [join_cons]
      intro c hc
      obtain hc | hc := List.mem_append.mp hc
      · exact hrow c hc
      · obtain rfl | hc := List.mem_cons.mp hc
        · exact hsep
        · exact hrows c hc

/-- Joined fields start with a letter of their own exactly if the first field does. -/
theorem head?_join {c : α} (hesc : c ≠ esc) (hsep : c ≠ sep) (row : List α) (rows : List (List α)) :
    (join esc sep (row :: rows)).head? = some c ↔ row.head? = some c := by
  cases row with
  | nil =>
    cases rows with
    | nil => simp [join_singleton, escape]
    | cons next rows => simp [join_cons, escape, hsep.symm]
  | cons d row =>
    have hfront : ∃ rest, join esc sep ((d :: row) :: rows) =
        (if d = esc ∨ d = sep then [esc, d] else [d]) ++ rest := by
      cases rows with
      | nil => exact ⟨escape esc sep row, by rw [join_singleton, escape_cons]⟩
      | cons next rows =>
        exact ⟨escape esc sep row ++ sep :: join esc sep (next :: rows), by
          rw [join_cons, escape_cons, List.append_assoc]⟩
    obtain ⟨rest, hfront⟩ := hfront
    rw [hfront]
    by_cases hd : d = esc ∨ d = sep
    · rw [if_pos hd]
      have hne : d ≠ c := by
        rintro rfl
        exact hd.elim hesc hsep
      simp [hne, hesc.symm]
    · rw [if_neg hd]
      simp

/-- An escaped letter is read as itself. -/
theorem fields_escape_letter (c : α) (rest : List α) :
    fields esc sep false ((if c = esc ∨ c = sep then [esc, c] else [c]) ++ rest) =
      (fields esc sep false rest).modifyHead (c :: ·) := by
  by_cases hc : c = esc ∨ c = sep
  · rw [if_pos hc]
    simp [fields]
  · rw [if_neg hc]
    rw [not_or] at hc
    simp [fields, hc.1, hc.2]

/-- An escaped field is the start of the first field read. -/
theorem fields_escape_append (field rest : List α) :
    fields esc sep false (escape esc sep field ++ rest) =
      (fields esc sep false rest).modifyHead (field ++ ·) := by
  induction field with
  | nil => cases h : fields esc sep false rest <;> simp [escape, h]
  | cons c field ih =>
    rw [escape_cons, List.append_assoc, fields_escape_letter, ih, List.modifyHead_modifyHead]
    rfl

/-- A reader gives back the fields that were joined. -/
theorem fields_join (hne : esc ≠ sep) {rows : List (List α)} (hrows : rows ≠ []) :
    fields esc sep false (join esc sep rows) = rows := by
  induction rows with
  | nil => exact absurd rfl hrows
  | cons row rows ih =>
    cases rows with
    | nil =>
      have h : fields esc sep false (escape esc sep row ++ []) = _ := fields_escape_append row []
      rw [List.append_nil] at h
      rw [join_singleton, h]
      simp [fields]
    | cons next rows =>
      have hsep : fields esc sep false (sep :: join esc sep (next :: rows)) =
          [] :: next :: rows := by
        rw [fields, if_neg Bool.false_ne_true, if_neg hne.symm, if_pos rfl, ih (by simp)]
      rw [join_cons, fields_escape_append, hsep]
      simp

/-- What is read consists of letters of the text, and of the escape letter at its end. -/
theorem forall_mem_fields {p : α → Prop} (hesc : p esc) {text : List α} (h : ∀ c ∈ text, p c)
    (escaped : Bool) : ∀ field ∈ fields esc sep escaped text, ∀ c ∈ field, p c := by
  induction text generalizing escaped with
  | nil =>
    intro field hfield c hc
    rw [fields, List.mem_singleton] at hfield
    rw [hfield] at hc
    split at hc
    · rwa [List.mem_singleton.mp hc]
    · cases hc
  | cons c cs ih =>
    have hc := h c List.mem_cons_self
    have hcs := ih fun d hd => h d (List.mem_cons_of_mem _ hd)
    rw [fields]
    split_ifs
    · exact forall_mem_modifyHead hc (hcs false)
    · exact hcs true
    · intro field hfield
      obtain rfl | hfield := List.mem_cons.mp hfield
      · simp
      · exact hcs false field hfield
    · exact forall_mem_modifyHead hc (hcs false)

end Escapes

end MemoryPlane
