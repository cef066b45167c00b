import Mathlib.Data.List.Nodup

/-!
# Insertion-ordered tables

A table holds at most one row for each key and keeps the rows in the order in which their
keys first appeared. Writing a row under a present key replaces the old row where it stands;
a new key goes to the end. Uniqueness of keys is a field, so no later proof restates it.
-/

/-- Rows of type `α`, indexed by the key that each row carries. -/
structure Table (α : Type) {κ : Type} (key : α → κ) where
  /-- Rows in order of first insertion. -/
  rows : List α
  /-- No key occurs twice. -/
  nodup : (rows.map key).Nodup

namespace Table

variable {α κ : Type} {key : α → κ}

/-- Tables with the same rows are equal. -/
theorem ext_rows {t u : Table α key} (h : t.rows = u.rows) : t = u := by
  cases t
  cases u
  congr

/-- The table without rows. -/
def empty : Table α key := ⟨[], List.nodup_nil⟩

/-- An empty table has no rows. -/
@[simp] theorem rows_empty : (empty : Table α key).rows = [] := rfl

/-- Two stored rows with the same key are the same row. -/
theorem eq_of_key_eq (t : Table α key) {a b : α} (ha : a ∈ t.rows) (hb : b ∈ t.rows)
    (h : key a = key b) : a = b :=
  List.inj_on_of_nodup_map t.nodup ha hb h

variable [DecidableEq κ]

instance [DecidableEq α] : DecidableEq (Table α key) := fun t u =>
  decidable_of_iff (t.rows = u.rows) ⟨ext_rows, congrArg rows⟩

/-- The row stored under a key. -/
def find (t : Table α key) (k : κ) : Option α := t.rows.find? fun a => key a = k

/-- Nothing is found in an empty table. -/
@[simp] theorem find_empty (k : κ) : (empty : Table α key).find k = none := rfl

/-- Lookup returns exactly the stored rows. -/
theorem find_eq_some {t : Table α key} {k : κ} {a : α} :
    t.find k = some a ↔ a ∈ t.rows ∧ key a = k := by
  constructor
  · intro h
    exact ⟨List.mem_of_find?_eq_some h, by simpa using List.find?_some h⟩
  · rintro ⟨ha, rfl⟩
    cases hf : t.find (key a) with
    | none => simpa using List.find?_eq_none.mp hf a ha
    | some b =>
      have hb : b ∈ t.rows := List.mem_of_find?_eq_some hf
      have hk : key b = key a := by simpa using List.find?_some hf
      rw [t.eq_of_key_eq hb ha hk]

/-- A key is not found exactly when no row has it. -/
theorem find_eq_none {t : Table α key} {k : κ} :
    t.find k = none ↔ ∀ a ∈ t.rows, key a ≠ k := by
  simp [find, List.find?_eq_none]

/-- A stored row is found under its own key. -/
theorem find_key {t : Table α key} {a : α} (ha : a ∈ t.rows) : t.find (key a) = some a :=
  find_eq_some.mpr ⟨ha, rfl⟩

/-- The rows after `d[key a] = a`. -/
def putRows (key : α → κ) (rows : List α) (a : α) : List α :=
  if rows.any (fun b => key b = key a) then
    rows.map fun b => if key b = key a then a else b
  else rows ++ [a]

/-- Writing one row keeps the keys distinct. -/
theorem putRows_nodup {rows : List α} (h : (rows.map key).Nodup) (a : α) :
    ((putRows key rows a).map key).Nodup := by
  unfold putRows
  split
  · have hk : (rows.map fun b => if key b = key a then a else b).map key = rows.map key := by
      rw [List.map_map]
      refine List.map_congr_left fun b _ => ?_
      by_cases hb : key b = key a <;> simp [hb]
    rwa [hk]
  · rename_i hn
    have hnew : key a ∉ rows.map key := by
      simpa [List.any_eq_true] using hn
    rw [List.map_append]
    exact List.Nodup.append h (by simp) (by simpa using hnew)

/-- `d[key a] = a`. -/
def put (t : Table α key) (a : α) : Table α key := ⟨putRows key t.rows a, putRows_nodup t.nodup a⟩

/-- A row under a new key is appended at the end. -/
theorem rows_put_of_fresh {t : Table α key} {a : α} (h : t.find (key a) = none) :
    (t.put a).rows = t.rows ++ [a] := by
  have hn : t.rows.any (fun b => key b = key a) = false := by
    simpa [List.any_eq_false] using find_eq_none.mp h
  simp [put, putRows, hn]

/-- The rows after a write: the written one and every row under another key. -/
theorem mem_put {t : Table α key} {a b : α} :
    b ∈ (t.put a).rows ↔ b = a ∨ (b ∈ t.rows ∧ key b ≠ key a) := by
  by_cases h : t.rows.any (fun b => key b = key a) = true
  · obtain ⟨c, hc, hca⟩ := by simpa [List.any_eq_true] using h
    simp only [put, putRows, h, if_true, List.mem_map]
    constructor
    · rintro ⟨d, hd, rfl⟩
      by_cases hda : key d = key a
      · simp [hda]
      · simp [hda, hd]
    · rintro (rfl | ⟨hb, hne⟩)
      · exact ⟨c, hc, by simp [hca]⟩
      · exact ⟨b, hb, by simp [hne]⟩
  · have hn : ∀ c ∈ t.rows, key c ≠ key a := by simpa [List.any_eq_true] using h
    rw [rows_put_of_fresh (find_eq_none.mpr hn), List.mem_append, List.mem_singleton]
    constructor
    · rintro (hb | rfl)
      · exact .inr ⟨hb, hn b hb⟩
      · exact .inl rfl
    · rintro (rfl | ⟨hb, -⟩)
      · exact .inr rfl
      · exact .inl hb

/-- A row just put is found under its key. -/
@[simp] theorem find_put_self (t : Table α key) (a : α) : (t.put a).find (key a) = some a :=
  find_eq_some.mpr ⟨mem_put.mpr (.inl rfl), rfl⟩

/-- Writing a row that is stored changes nothing. -/
theorem put_of_mem {t : Table α key} {a : α} (ha : a ∈ t.rows) : t.put a = t := by
  have hany : (t.rows.any fun b => key b = key a) = true :=
    List.any_eq_true.mpr ⟨a, ha, decide_eq_true rfl⟩
  have hsame : ∀ b ∈ t.rows, (if key b = key a then a else b) = id b := by
    intro b hb
    split
    · rename_i h
      exact t.eq_of_key_eq ha hb h.symm
    · rfl
  apply ext_rows
  simp only [put, putRows, hany, if_true]
  rw [List.map_congr_left hsame, List.map_id]

/-- Other keys are untouched by a write. -/
theorem find_put_of_ne {t : Table α key} {a : α} {k : κ} (h : k ≠ key a) :
    (t.put a).find k = t.find k := by
  cases hf : t.find k with
  | none =>
    rw [find_eq_none] at hf ⊢
    intro b hb
    rcases mem_put.mp hb with rfl | ⟨hb', -⟩
    · exact Ne.symm h
    · exact hf b hb'
  | some b =>
    obtain ⟨hb, rfl⟩ := find_eq_some.mp hf
    exact find_key (mem_put.mpr (.inr ⟨hb, h⟩))

/-- Putting a row changes what is found under its own key only. -/
theorem find_put (t : Table α key) (a : α) (k : κ) :
    (t.put a).find k = if k = key a then some a else t.find k := by
  by_cases h : k = key a
  · subst h
    simp
  · simp [h, find_put_of_ne h]

/-- `d.setdefault(key a, a)`. -/
def setDefault (t : Table α key) (a : α) : Table α key :=
  if (t.find (key a)).isSome then t else t.put a

/-- A default row is stored only under a new key. -/
theorem mem_setDefault {t : Table α key} {a b : α} :
    b ∈ (t.setDefault a).rows ↔ b ∈ t.rows ∨ (b = a ∧ t.find (key a) = none) := by
  unfold setDefault
  cases hf : t.find (key a) with
  | some c => simp
  | none =>
    rw [Option.isSome_none, if_neg Bool.false_ne_true, rows_put_of_fresh hf, List.mem_append,
      List.mem_singleton]
    simp

/-- `d.pop(k, None)`. -/
def erase (t : Table α key) (k : κ) : Table α key :=
  ⟨t.rows.filter fun a => key a ≠ k, (t.nodup.filter fun x => x ≠ k).sublist (by
    rw [List.filter_map]
    exact (List.Sublist.refl _))⟩

/-- Erasing a key removes exactly the row that has it. -/
theorem mem_erase {t : Table α key} {k : κ} {a : α} :
    a ∈ (t.erase k).rows ↔ a ∈ t.rows ∧ key a ≠ k := by
  simp [erase]

/-- The rows that meet a condition. -/
def filter (t : Table α key) (p : α → Bool) : Table α key :=
  ⟨t.rows.filter p, t.nodup.sublist (List.filter_sublist.map key)⟩

/-- `UPDATE ... SET ... WHERE p`: the rows that meet a condition change in place and keep their
keys. -/
def updateWhere (t : Table α key) (p : α → Bool) (f : α → α) (h : ∀ a, key (f a) = key a) :
    Table α key :=
  ⟨t.rows.map fun a => if p a then f a else a, by
    have hk : (t.rows.map fun a => if p a then f a else a).map key = t.rows.map key := by
      rw [List.map_map]
      refine List.map_congr_left fun a _ => ?_
      by_cases ha : p a <;> simp [ha, h]
    rw [hk]
    exact t.nodup⟩

section Update

variable {t : Table α key} {p : α → Bool} {f : α → α} {h : ∀ a, key (f a) = key a}

omit [DecidableEq κ] in
/-- An update changes the rows selected and keeps the others. -/
theorem mem_updateWhere {b : α} :
    b ∈ (t.updateWhere p f h).rows ↔ ∃ a ∈ t.rows, (if p a then f a else a) = b := List.mem_map

omit [DecidableEq κ] in
/-- A row that does not meet the condition stays. -/
theorem mem_updateWhere_of_not {a : α} (ha : a ∈ t.rows) (hp : p a = false) :
    a ∈ (t.updateWhere p f h).rows := mem_updateWhere.mpr ⟨a, ha, by simp [hp]⟩

omit [DecidableEq κ] in
/-- Without a row that meets the condition nothing changes. -/
theorem updateWhere_of_none (hn : ∀ a ∈ t.rows, p a = false) : t.updateWhere p f h = t := by
  refine ext_rows ?_
  have hid : (t.rows.map fun a => if p a then f a else a) = t.rows.map id :=
    List.map_congr_left fun a ha => by simp [hn a ha]
  simpa [updateWhere] using hid

end Update

/-- After rows with distinct keys were written: those rows, and the others under other keys. -/
theorem mem_foldl_put {as : List α} (hn : (as.map key).Nodup) {t : Table α key} {b : α} :
    b ∈ (as.foldl put t).rows ↔ b ∈ as ∨ (b ∈ t.rows ∧ key b ∉ as.map key) := by
  induction as generalizing t with
  | nil => simp
  | cons a rest ih =>
    rw [List.map_cons, List.nodup_cons] at hn
    rw [List.foldl_cons, ih hn.2, mem_put, List.mem_cons, List.map_cons, List.mem_cons]
    constructor
    · rintro (h | ⟨rfl | ⟨h, hne⟩, hk⟩)
      · exact .inl (.inr h)
      · exact .inl (.inl rfl)
      · exact .inr ⟨h, not_or.mpr ⟨hne, hk⟩⟩
    · rintro ((rfl | h) | ⟨h, hk⟩)
      · exact .inr ⟨.inl rfl, hn.1⟩
      · exact .inl h
      · obtain ⟨hne, hk⟩ := not_or.mp hk
        exact .inr ⟨.inr ⟨h, hne⟩, hk⟩

/-- Erasing several keys removes exactly the rows that have one of them. -/
theorem mem_foldl_erase {ks : List κ} {t : Table α key} {b : α} :
    b ∈ (ks.foldl erase t).rows ↔ b ∈ t.rows ∧ key b ∉ ks := by
  induction ks generalizing t with
  | nil => simp
  | cons k rest ih =>
    rw [List.foldl_cons, ih, mem_erase, List.mem_cons]
    constructor
    · rintro ⟨⟨h, hne⟩, hk⟩
      exact ⟨h, not_or.mpr ⟨hne, hk⟩⟩
    · rintro ⟨h, hk⟩
      exact ⟨⟨h, (not_or.mp hk).1⟩, (not_or.mp hk).2⟩

end Table
