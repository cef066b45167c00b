import MemoryPlane.Lib.Sequences

/-!
# Scans in pages

Rows that are read page by page in the order of a key, each page starting behind the last key of
the one before. A scan that finds an empty page has visited every row behind the cursor that it
started from, and it finds one as soon as it may read more pages than there are such rows.
-/

namespace MemoryPlane

namespace Paging

variable {α κ : Type} [LinearOrder κ] (key : α → κ)

/-- The row lies behind the cursor; without a cursor every row does. -/
def behind (cursor : Option κ) (x : α) : Bool := cursor.all fun k => k < key x

/-- The next rows in the order of their keys, at most so many. -/
def page (size : ℕ) (cursor : Option κ) (rows : List α) : List α :=
  (sortedBy key (rows.filter (behind key cursor))).take size

/-- The pages that a scan read, the cursor behind the last of them, and whether it came to an
empty page. -/
structure Scan (α κ : Type) where
  pages : List (List α)
  cursor : Option κ
  complete : Bool

/-- Read at most so many pages. -/
def scan (size : ℕ) (rows : List α) : ℕ → Option κ → Scan α κ
  | 0, cursor => ⟨[], cursor, false⟩
  | limit + 1, cursor =>
    match (page key size cursor rows).getLast? with
    | none => ⟨[], cursor, true⟩
    | some last =>
      let rest := scan size rows limit (some (key last))
      ⟨page key size cursor rows :: rest.pages, rest.cursor, rest.complete⟩

/-- The rows that a scan read. -/
def Scan.visited (s : Scan α κ) : List α := s.pages.flatten

variable {key} {size : ℕ} {rows : List α} {cursor : Option κ}

theorem behind_some {k : κ} {x : α} : behind key (some k) x = true ↔ k < key x := by simp [behind]

theorem mem_page {x : α} (h : x ∈ page key size cursor rows) :
    x ∈ rows ∧ behind key cursor x = true := by
  have hmem := (mem_sortedBy ..).mp (List.mem_of_mem_take h)
  exact List.mem_filter.mp hmem

theorem sortedBy_pairwise (key : α → κ) (xs : List α) :
    (sortedBy key xs).Pairwise fun a b => key a ≤ key b := by
  have : Std.Total fun a b : α => key a ≤ key b := ⟨fun a b => le_total (key a) (key b)⟩
  have : IsTrans α fun a b => key a ≤ key b := ⟨fun _ _ _ h₁ h₂ => le_trans h₁ h₂⟩
  exact List.pairwise_insertionSort _ _

/-- The last row of a page has its largest key. -/
theorem key_le_last {last x : α} (hlast : (page key size cursor rows).getLast? = some last)
    (hx : x ∈ page key size cursor rows) : key x ≤ key last := by
  have hsorted : (page key size cursor rows).Pairwise fun a b => key a ≤ key b :=
    (sortedBy_pairwise key _).sublist (List.take_sublist _ _)
  obtain ⟨front, hfront⟩ := List.getLast?_eq_some_iff.mp hlast
  rw [hfront] at hsorted hx
  obtain hx | hx := List.mem_append.mp hx
  · exact (List.pairwise_append.mp hsorted).2.2 x hx last (List.mem_singleton.mpr rfl)
  · rw [List.mem_singleton.mp hx]

/-- Every row behind the cursor is in the page or behind its last row. -/
theorem mem_page_or_behind (hkeys : ∀ x ∈ rows, ∀ y ∈ rows, key x = key y → x = y) {last x : α}
    (hlast : (page key size cursor rows).getLast? = some last) (hx : x ∈ rows)
    (hbehind : behind key cursor x = true) :
    x ∈ page key size cursor rows ∨ behind key (some (key last)) x = true := by
  have hsorted := sortedBy_pairwise key (rows.filter (behind key cursor))
  have hmem : x ∈ sortedBy key (rows.filter (behind key cursor)) :=
    (mem_sortedBy ..).mpr (List.mem_filter.mpr ⟨hx, hbehind⟩)
  have hlastMem : last ∈ page key size cursor rows := List.mem_of_getLast? hlast
  rw [← List.take_append_drop size (sortedBy key _)] at hsorted hmem
  obtain hmem | hmem := List.mem_append.mp hmem
  · exact .inl hmem
  · have hle := (List.pairwise_append.mp hsorted).2.2 last hlastMem x hmem
    by_cases heq : key last = key x
    · rw [← hkeys last (mem_page hlastMem).1 x hx heq]
      exact .inl hlastMem
    · exact .inr (behind_some.mpr (lt_of_le_of_ne hle heq))

/-- An empty page leaves no row behind the cursor. -/
theorem not_behind_of_page_nil (hsize : 0 < size) (h : page key size cursor rows = []) {x : α}
    (hx : x ∈ rows) : behind key cursor x = false := by
  by_contra hbehind
  rw [Bool.not_eq_false] at hbehind
  have hmem : x ∈ sortedBy key (rows.filter (behind key cursor)) :=
    (mem_sortedBy ..).mpr (List.mem_filter.mpr ⟨hx, hbehind⟩)
  rw [page, List.take_eq_nil_iff] at h
  obtain h | h := h
  · omega
  · rw [h] at hmem
    cases hmem

/-- A row behind a later cursor is behind every earlier one. -/
theorem behind_mono {last x : α} (hlast : (page key size cursor rows).getLast? = some last)
    (hx : behind key (some (key last)) x = true) : behind key cursor x = true := by
  have hbehind := (mem_page (List.mem_of_getLast? hlast)).2
  cases cursor with
  | none => rfl
  | some k => exact behind_some.mpr ((behind_some.mp hbehind).trans (behind_some.mp hx))

/-- A scan reads rows behind the cursor that it starts from. -/
theorem mem_visited {limit : ℕ} {x : α} (hx : x ∈ (scan key size rows limit cursor).visited) :
    x ∈ rows ∧ behind key cursor x = true := by
  induction limit generalizing cursor with
  | zero => cases hx
  | succ limit ih =>
    rw [scan] at hx
    split at hx
    · cases hx
    · rename_i last hlast
      obtain hx | hx := List.mem_append.mp hx
      · exact mem_page hx
      · obtain ⟨hmem, hbehind⟩ := ih hx
        exact ⟨hmem, behind_mono hlast hbehind⟩

/-- A row behind the cursor is read or is still behind it at the end. -/
theorem mem_visited_or_behind (hkeys : ∀ x ∈ rows, ∀ y ∈ rows, key x = key y → x = y)
    (size limit : ℕ) {x : α} (hx : x ∈ rows) (hbehind : behind key cursor x = true) :
    x ∈ (scan key size rows limit cursor).visited ∨
      behind key (scan key size rows limit cursor).cursor x = true := by
  induction limit generalizing cursor with
  | zero => exact .inr hbehind
  | succ limit ih =>
    rw [scan]
    split
    · exact .inr hbehind
    · rename_i last hlast
      obtain h | h := mem_page_or_behind hkeys hlast hx hbehind
      · exact .inl (List.mem_append_left _ h)
      · exact (ih h).imp (List.mem_append_right _) id

/-- After a complete scan no row is behind the cursor. -/
theorem not_behind_of_complete (hsize : 0 < size) {limit : ℕ}
    (h : (scan key size rows limit cursor).complete = true) {x : α} (hx : x ∈ rows) :
    behind key (scan key size rows limit cursor).cursor x = false := by
  induction limit generalizing cursor with
  | zero => cases h
  | succ limit ih =>
    rw [scan] at h ⊢
    split
    · rename_i hnone
      exact not_behind_of_page_nil hsize (List.getLast?_eq_none_iff.mp hnone) hx
    · rename_i last hlast
      simp only [hlast] at h
      exact ih h

/-- A complete scan has read every row behind the cursor that it started from. -/
theorem visited_of_complete (hkeys : ∀ x ∈ rows, ∀ y ∈ rows, key x = key y → x = y)
    (hsize : 0 < size) {limit : ℕ} (h : (scan key size rows limit cursor).complete = true) {x : α}
    (hx : x ∈ rows) (hbehind : behind key cursor x = true) :
    x ∈ (scan key size rows limit cursor).visited := by
  have hend := not_behind_of_complete hsize h hx
  obtain hvisited | hlater := mem_visited_or_behind hkeys size limit hx hbehind
  · exact hvisited
  · rw [hend] at hlater
    cases hlater

/-- A scan that may read more pages than there are rows behind its cursor comes to an empty one. -/
theorem complete_of_lt {limit : ℕ}
    (h : (rows.filter (behind key cursor)).length < limit) :
    (scan key size rows limit cursor).complete = true := by
  induction limit generalizing cursor with
  | zero => cases h
  | succ limit ih =>
    rw [scan]
    split
    · rfl
    · rename_i last hlast
      apply ih
      have hmem := mem_page (List.mem_of_getLast? hlast)
      have hsub : (rows.filter (behind key (some (key last)))).length <
          (rows.filter (behind key cursor)).length := by
        have hfilter : rows.filter (behind key (some (key last))) =
            (rows.filter (behind key cursor)).filter (behind key (some (key last))) := by
          rw [List.filter_filter]
          apply List.filter_congr
          intro x _
          rw [Bool.eq_iff_iff, Bool.and_eq_true]
          exact ⟨fun h => ⟨h, behind_mono hlast h⟩, And.left⟩
        rw [hfilter, List.length_filter_lt_length_iff_exists]
        exact ⟨last, List.mem_filter.mpr hmem, by simp [behind]⟩
      omega

end Paging

end MemoryPlane
