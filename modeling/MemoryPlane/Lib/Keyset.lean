import MemoryPlane.Lib.Paging

/-!
# Pages with a sentinel row

A listing that asks its store for one row more than a page holds learns from the extra row whether
another page follows, and hands out the key of the last row of the page as the next cursor. Where
the store returns every row that was asked for, following the cursors reads the whole listing.
-/

namespace MemoryPlane

namespace Paging

/-- One page of a listing, whether more rows follow, and the cursor to follow. -/
structure Page (α κ : Type) where
  rows : List α
  hasMore : Bool
  next : Option κ

variable {α κ : Type}

/-- The page that is cut from fetched rows: a row beyond its size is the sentinel. -/
def cutPage (key : α → κ) (size : ℕ) (fetched : List α) : Page α κ :=
  let hasMore := decide (size < fetched.length)
  let rows := fetched.take size
  ⟨rows, hasMore, if hasMore then rows.getLast?.map key else none⟩

/-- Without a row beyond its size the page shows everything and ends the listing. -/
theorem cutPage_of_length_le (key : α → κ) {size : ℕ} {fetched : List α}
    (h : fetched.length ≤ size) : cutPage key size fetched = ⟨fetched, false, none⟩ := by
  have hmore : decide (size < fetched.length) = false := by
    rw [decide_eq_false_iff_not]
    omega
  rw [cutPage, hmore, List.take_of_length_le h]
  rfl

/-- The pages that a reader receives who follows the cursors until no more rows are reported. -/
inductive Follows {ε : Type} (fetch : Option κ → Except ε (Page α κ)) :
    Option κ → List (List α) → Prop
  | last {cursor : Option κ} {page : Page α κ} (hpage : fetch cursor = .ok page)
      (hmore : page.hasMore = false) : Follows fetch cursor [page.rows]
  | more {cursor : Option κ} {page : Page α κ} {pages : List (List α)}
      (hpage : fetch cursor = .ok page) (hmore : page.hasMore = true)
      (rest : Follows fetch page.next pages) : Follows fetch cursor (page.rows :: pages)

variable {ε : Type} {fetch : Option κ → Except ε (Page α κ)} {cursor : Option κ}

/-- Following the cursors is deterministic. -/
theorem Follows.unique {pages others : List (List α)} (h : Follows fetch cursor pages)
    (h' : Follows fetch cursor others) : pages = others := by
  induction h generalizing others with
  | last hpage hlast =>
    cases h' with
    | last hpage' _ =>
      rw [hpage] at hpage'
      cases hpage'
      rfl
    | more hpage' hmore _ =>
      rw [hpage] at hpage'
      cases hpage'
      rw [hlast] at hmore
      cases hmore
  | more hpage hmore _ ih =>
    cases h' with
    | last hpage' hlast =>
      rw [hpage] at hpage'
      cases hpage'
      rw [hlast] at hmore
      cases hmore
    | more hpage' _ hrest =>
      rw [hpage] at hpage'
      cases hpage'
      rw [ih hrest]

variable [LinearOrder κ] {key : α → κ} {rows : List α} {size : ℕ}

/-- Sorted rows with distinct keys are determined by their members. -/
theorem eq_of_perm_of_sorted {xs ys : List α} (hperm : xs.Perm ys)
    (hkeys : ∀ x ∈ xs, ∀ y ∈ xs, key x = key y → x = y)
    (hxs : xs.Pairwise fun a b => key a ≤ key b) (hys : ys.Pairwise fun a b => key a ≤ key b) :
    xs = ys := by
  apply List.Perm.eq_of_pairwise _ hxs hys hperm
  intro a b ha hb hab hba
  exact hkeys a ha b (hperm.mem_iff.mpr hb) (le_antisymm hab hba)

/-- The rows behind a cursor, in the order of their keys. -/
def remaining (key : α → κ) (rows : List α) (cursor : Option κ) : List α :=
  sortedBy key (rows.filter (behind key cursor))

/-- Without a cursor no row is left out. -/
@[simp] theorem filter_behind_none : rows.filter (behind key none) = rows :=
  List.filter_eq_self.mpr fun _ _ => rfl

theorem page_eq_take : page key size cursor rows = (remaining key rows cursor).take size := rfl

theorem mem_remaining {x : α} :
    x ∈ remaining key rows cursor ↔ x ∈ rows ∧ behind key cursor x = true := by
  rw [remaining, mem_sortedBy, List.mem_filter]

/-- What lies behind the last row of a page is what the page has left over. -/
theorem remaining_last (hkeys : ∀ x ∈ rows, ∀ y ∈ rows, key x = key y → x = y)
    (hnodup : rows.Nodup) {last : α}
    (hlast : ((remaining key rows cursor).take size).getLast? = some last) :
    remaining key rows (some (key last)) = (remaining key rows cursor).drop size := by
  have hsorted : (remaining key rows cursor).Pairwise fun a b => key a ≤ key b :=
    sortedBy_pairwise key _
  have hsplit := hsorted
  rw [← List.take_append_drop size (remaining key rows cursor), List.pairwise_append] at hsplit
  have hpage : (page key size cursor rows).getLast? = some last := hlast
  have hnd : (remaining key rows cursor).Nodup :=
    (sortedBy_perm key _).nodup_iff.mpr (hnodup.filter _)
  have hmem : ∀ x, x ∈ remaining key rows (some (key last)) ↔
      x ∈ (remaining key rows cursor).drop size := by
    intro x
    constructor
    · intro hx
      obtain ⟨hxrows, hbehind⟩ := mem_remaining.mp hx
      have hrem : x ∈ remaining key rows cursor :=
        mem_remaining.mpr ⟨hxrows, behind_mono hpage hbehind⟩
      rw [← List.take_append_drop size (remaining key rows cursor)] at hrem
      obtain htake | hdrop := List.mem_append.mp hrem
      · have hle := key_le_last hlast htake
        exact absurd (behind_some.mp hbehind) (not_lt.mpr hle)
      · exact hdrop
    · intro hx
      have hxmem := mem_remaining.mp (List.mem_of_mem_drop hx)
      have hlastMem := List.mem_of_getLast? hlast
      have hle := hsplit.2.2 last hlastMem x hx
      have hne : key last ≠ key x := by
        intro heq
        have hsame := hkeys last (mem_remaining.mp (List.mem_of_mem_take hlastMem)).1 x hxmem.1 heq
        rw [← List.take_append_drop size (remaining key rows cursor), List.nodup_append] at hnd
        exact hnd.2.2 last hlastMem x hx hsame
      exact mem_remaining.mpr ⟨hxmem.1, behind_some.mpr (lt_of_le_of_ne hle hne)⟩
  have hperm : (remaining key rows (some (key last))).Perm
      ((remaining key rows cursor).drop size) := by
    apply (List.perm_ext_iff_of_nodup _ (hnd.sublist (List.drop_sublist _ _))).mpr hmem
    exact (sortedBy_perm key _).nodup_iff.mpr (hnodup.filter _)
  apply eq_of_perm_of_sorted hperm _ (sortedBy_pairwise key _) hsplit.2.1
  intro x hx y hy heq
  exact hkeys x (mem_remaining.mp hx).1 y (mem_remaining.mp hy).1 heq

/-- A listing whose store returns the sentinel row is read whole and in order, whatever its page
size. -/
theorem exists_follows (hkeys : ∀ x ∈ rows, ∀ y ∈ rows, key x = key y → x = y)
    (hnodup : rows.Nodup) (hsize : 0 < size)
    (hfetch : ∀ cursor,
      fetch cursor = .ok (cutPage key size (page key (size + 1) cursor rows)))
    (cursor : Option κ) :
    ∃ pages, Follows fetch cursor pages ∧ pages.flatten = remaining key rows cursor := by
  generalize hn : (remaining key rows cursor).length = n
  induction n using Nat.strong_induction_on generalizing cursor with
  | _ n ih =>
    have hrows : (cutPage key size (page key (size + 1) cursor rows)).rows =
        (remaining key rows cursor).take size := by
      rw [cutPage, page_eq_take]
      simp only [List.take_take]
      rw [Nat.min_eq_left (by omega)]
    have hmore : (cutPage key size (page key (size + 1) cursor rows)).hasMore =
        decide (size < n) := by
      rw [cutPage, page_eq_take, List.length_take, hn, decide_eq_decide]
      omega
    by_cases hlt : size < n
    · obtain ⟨last, hlast⟩ : ∃ last,
          ((remaining key rows cursor).take size).getLast? = some last := by
        apply Option.ne_none_iff_exists'.mp
        rw [ne_eq, List.getLast?_eq_none_iff, List.take_eq_nil_iff, not_or]
        exact ⟨by omega, List.ne_nil_of_length_pos (by omega)⟩
      have hnext : (cutPage key size (page key (size + 1) cursor rows)).next =
          some (key last) := by
        simp only [cutPage] at hrows hmore ⊢
        rw [hmore, if_pos (decide_eq_true hlt), hrows, hlast, Option.map_some]
      have hdrop := remaining_last hkeys hnodup hlast
      obtain ⟨pages, hpages, hflat⟩ := ih ((remaining key rows (some (key last))).length)
        (by rw [hdrop, List.length_drop]; omega) (some (key last)) rfl
      rw [← hnext] at hpages
      refine ⟨_, .more (hfetch cursor) (by rw [hmore, decide_eq_true hlt]) hpages, ?_⟩
      rw [List.flatten_cons, hrows, hflat, hdrop, List.take_append_drop]
    · refine ⟨_, .last (hfetch cursor) (by rw [hmore, decide_eq_false hlt]), ?_⟩
      rw [List.flatten_singleton, hrows, List.take_of_length_le (by omega)]

/-- The row lies before the cursor in the order of the keys. -/
def before (key : α → κ) (cursor : Option κ) (x : α) : Bool := cursor.all fun k => key x < k

@[simp] theorem filter_before_none : rows.filter (before key none) = rows :=
  List.filter_eq_self.mpr fun _ _ => rfl

/-- What lies before the last row of a page is what the page has left over. -/
theorem sortedByDesc_before_last (hkeys : ∀ x ∈ rows, ∀ y ∈ rows, key x = key y → x = y)
    (hnodup : rows.Nodup) {last : α}
    (hlast : ((sortedByDesc key (rows.filter (before key cursor))).take size).getLast? =
      some last) :
    sortedByDesc key (rows.filter (before key (some (key last)))) =
      (sortedByDesc key (rows.filter (before key cursor))).drop size :=
  @remaining_last α κᵒᵈ cursor _ (fun x => OrderDual.toDual (key x)) rows size hkeys hnodup last
    hlast

/-- Among the greatest keys, or below the least of them. -/
theorem mem_take_desc_or_lt (hkeys : ∀ x ∈ rows, ∀ y ∈ rows, key x = key y → x = y) {last x : α}
    (hlast : ((sortedByDesc key rows).take size).getLast? = some last) (hx : x ∈ rows) :
    x ∈ (sortedByDesc key rows).take size ∨ key x < key last := by
  have hcases := @mem_page_or_behind α κᵒᵈ _ (fun x => OrderDual.toDual (key x)) size rows none
    hkeys last x
  simp only [page, filter_behind_none] at hcases
  refine (hcases hlast hx rfl).imp_right fun hbehind => ?_
  exact OrderDual.toDual_lt_toDual.mp (behind_some.mp hbehind)

/-- A row among the least keys has fewer rows below it than are taken. -/
theorem countP_lt_of_mem_take {x : α} (hx : x ∈ (sortedBy key rows).take size) :
    (rows.countP fun y => key y < key x) < size := by
  obtain ⟨front, back, hsplit⟩ := List.append_of_mem hx
  have hall : sortedBy key rows = front ++ x :: (back ++ (sortedBy key rows).drop size) := by
    rw [← List.cons_append, ← List.append_assoc, ← hsplit, List.take_append_drop]
  have hsorted := sortedBy_pairwise key rows
  rw [hall, List.pairwise_append, List.pairwise_cons] at hsorted
  have hlater : (x :: (back ++ (sortedBy key rows).drop size)).countP
      (fun y => decide (key y < key x)) = 0 := by
    rw [List.countP_eq_zero]
    intro y hy
    rw [decide_eq_true_eq, not_lt]
    obtain rfl | hy := List.mem_cons.mp hy
    · exact le_refl _
    · exact hsorted.2.1.1 y hy
  have hlength := congrArg List.length hsplit
  rw [List.length_append, List.length_cons] at hlength
  have htake := List.length_take_le size (sortedBy key rows)
  rw [← (sortedBy_perm key rows).countP_eq, hall, List.countP_append, hlater]
  have hfront := List.countP_le_length (l := front) (p := fun y => decide (key y < key x))
  omega

/-- A listing with the greatest key first is read whole and in order as well. -/
theorem exists_follows_desc (hkeys : ∀ x ∈ rows, ∀ y ∈ rows, key x = key y → x = y)
    (hnodup : rows.Nodup) (hsize : 0 < size)
    (hfetch : ∀ cursor, fetch cursor = .ok (cutPage key size
      ((sortedByDesc key (rows.filter (before key cursor))).take (size + 1))))
    (cursor : Option κ) :
    ∃ pages, Follows fetch cursor pages ∧
      pages.flatten = sortedByDesc key (rows.filter (before key cursor)) :=
  @exists_follows α κᵒᵈ ε fetch _ (fun x => OrderDual.toDual (key x)) rows size
    hkeys hnodup hsize hfetch cursor

end Paging

end MemoryPlane
