import Mathlib.Data.List.Sort
import Mathlib.Data.List.MinMax

/-!
# Grouping and stable sorting

Dictionaries of lists, filled row by row, the choice of a greatest row, and stable sorting by a
key. A group holds exactly the rows of its key in their order, groups stand in the order in which
their keys first appeared, and sorting permutes.
-/

section Pairing

variable {α β : Type} {R : α → β → Prop} {xs : List α} {ys : List β}

/-- Each left element has a related one on the right. -/
theorem List.Forall₂.exists_of_mem_left (h : List.Forall₂ R xs ys) {x : α} (hx : x ∈ xs) :
    ∃ y ∈ ys, R x y := by
  induction h with
  | nil => cases hx
  | cons hr _ ih =>
    rcases List.mem_cons.mp hx with rfl | hx
    · exact ⟨_, List.mem_cons_self .., hr⟩
    · obtain ⟨y, hy, hxy⟩ := ih hx
      exact ⟨y, List.mem_cons_of_mem _ hy, hxy⟩

/-- Each right element has a related one on the left. -/
theorem List.Forall₂.exists_of_mem_right (h : List.Forall₂ R xs ys) {y : β} (hy : y ∈ ys) :
    ∃ x ∈ xs, R x y := h.flip.exists_of_mem_left hy

/-- Lists of one length are related when the entries at each place are. -/
theorem List.forall₂_iff_of_getElem? {Q : ℕ → β → Prop} (hlength : xs.length = ys.length)
    (h : ∀ k x y, xs[k]? = some x → ys[k]? = some y → (R x y ↔ Q k y)) :
    List.Forall₂ R xs ys ↔ ∀ k y, ys[k]? = some y → Q k y := by
  rw [List.forall₂_iff_get]
  constructor
  · rintro ⟨-, hall⟩ k y hy
    obtain ⟨hk, rfl⟩ := List.getElem?_eq_some_iff.mp hy
    have hk' : k < xs.length := by omega
    exact (h k _ _ (List.getElem?_eq_getElem hk') hy).mp (hall k hk' hk)
  · intro hall
    refine ⟨hlength, fun k hk' hk => ?_⟩
    have hy := List.getElem?_eq_getElem hk
    exact (h k _ _ (List.getElem?_eq_getElem hk') hy).mpr (hall k _ hy)

end Pairing

section Choice

variable {α β : Type} [LinearOrder β] {f : α → β} {p : α → Bool} {xs : List α} {m : α}

/-- The first greatest row is the first greatest among the rows of its own kind. -/
theorem List.argmax_filter (h : xs.argmax f = some m) (hp : p m = true) :
    (xs.filter p).argmax f = some m := by
  induction xs using List.reverseRecOn generalizing m with
  | nil => simp at h
  | append_singleton xs a ih =>
    rw [List.argmax_concat] at h
    rw [List.filter_append]
    cases hc : xs.argmax f with
    | none =>
      rw [hc] at h
      cases h
      rw [List.argmax_eq_none.mp hc]
      simp [hp]
    | some c =>
      rw [hc] at h
      simp only at h
      split at h
      · rename_i hlt
        cases h
        rw [List.filter_singleton, hp, cond_true, List.argmax_concat]
        cases hc' : (xs.filter p).argmax f with
        | none => rfl
        | some c' =>
          have hmem := (List.mem_filter.mp (List.argmax_mem hc')).1
          have hle : f c' ≤ f c := List.le_of_mem_argmax hmem hc
          simp only
          rw [if_pos (lt_of_le_of_lt hle hlt)]
      · rename_i hlt
        cases h
        have hfil := ih hc hp
        cases ha : p a with
        | true => simp [ha, List.argmax_concat, hfil, hlt]
        | false => simpa [ha] using hfil

/-- A text that ends in a mark and a rest without the mark splits in one way only. -/
theorem List.append_cons_inj_of_not_mem {c : α} {a a' b b' : List α}
    (h : a ++ c :: b = a' ++ c :: b') (hb : c ∉ b) (hb' : c ∉ b') : a = a' ∧ b = b' := by
  rcases List.append_eq_append_iff.mp h with ⟨rest, rfl, hr⟩ | ⟨rest, rfl, hr⟩
  · cases rest with
    | nil => simpa using hr
    | cons x xs =>
      refine absurd ?_ hb
      rw [(List.cons.inj hr).2]
      simp
  · cases rest with
    | nil => simpa using hr.symm
    | cons x xs =>
      refine absurd ?_ hb'
      rw [(List.cons.inj hr).2]
      simp

/-- Two different elements need a list of two. -/
theorem List.two_le_length_of_ne {a b : α} (ha : a ∈ xs) (hb : b ∈ xs) (h : a ≠ b) :
    2 ≤ xs.length := by
  cases xs with
  | nil => cases ha
  | cons x rest =>
    cases rest with
    | nil =>
      rw [List.mem_singleton] at ha hb
      exact absurd (ha.trans hb.symm) h
    | cons y rest => simp

end Choice

section Grouping

variable {α κ : Type} [DecidableEq κ]

/-- `groups[k].append(x)` on a dictionary that creates missing groups. -/
def addToGroup (k : κ) (x : α) : List (κ × List α) → List (κ × List α)
  | [] => [(k, [x])]
  | (l, ys) :: rest => if l = k then (l, ys ++ [x]) :: rest else (l, ys) :: addToGroup k x rest

/-- Rows collected under their keys, one after the other. -/
def groupBy (key : α → κ) (xs : List α) : List (κ × List α) :=
  xs.foldl (fun groups x => addToGroup (key x) x groups) []

/-- The rows stored under a key. -/
def groupOf (k : κ) : List (κ × List α) → List α
  | [] => []
  | (l, ys) :: rest => if l = k then ys else groupOf k rest

/-- An element joins the group of its own key, at the end. -/
theorem groupOf_addToGroup (k l : κ) (x : α) (groups : List (κ × List α)) :
    groupOf l (addToGroup k x groups) =
      if k = l then groupOf l groups ++ [x] else groupOf l groups := by
  induction groups with
  | nil => by_cases h : k = l <;> simp [addToGroup, groupOf, h]
  | cons g rest ih =>
    obtain ⟨m, ys⟩ := g
    by_cases hm : m = k
    · subst hm
      by_cases h : m = l <;> simp [addToGroup, groupOf, h]
    · by_cases hl : m = l
      · subst hl
        simp [addToGroup, groupOf, hm, Ne.symm hm]
      · simp [addToGroup, groupOf, hm, hl, ih]

/-- A new key comes behind the others, a known one keeps its place. -/
theorem keys_addToGroup (k : κ) (x : α) (groups : List (κ × List α)) :
    (addToGroup k x groups).map Prod.fst =
      if k ∈ groups.map Prod.fst then groups.map Prod.fst else groups.map Prod.fst ++ [k] := by
  induction groups with
  | nil => simp [addToGroup]
  | cons g rest ih =>
    obtain ⟨m, ys⟩ := g
    by_cases hm : m = k
    · simp [addToGroup, hm]
    · have hm' : ¬ k = m := fun h => hm h.symm
      by_cases hk : k ∈ rest.map Prod.fst
      · simp only [addToGroup, hm, if_false, List.map_cons, ih, hk, if_true, List.mem_cons,
          or_true]
      · simp only [addToGroup, hm, if_false, List.map_cons, ih, hk, List.mem_cons, hm', or_self,
          List.cons_append]

/-- What filling a dictionary row by row maintains. -/
private theorem foldl_addToGroup (key : α → κ) (xs : List α) (groups : List (κ × List α))
    (hn : (groups.map Prod.fst).Nodup) (hne : ∀ g ∈ groups, g.2 ≠ []) :
    let out := xs.foldl (fun groups x => addToGroup (key x) x groups) groups
    (out.map Prod.fst).Nodup ∧ (∀ g ∈ out, g.2 ≠ []) ∧
      ∀ l, groupOf l out = groupOf l groups ++ xs.filter fun x => key x = l := by
  induction xs generalizing groups with
  | nil => exact ⟨hn, hne, by simp⟩
  | cons x rest ih =>
    have hn' : ((addToGroup (key x) x groups).map Prod.fst).Nodup := by
      rw [keys_addToGroup]
      split
      · exact hn
      · rename_i hk
        exact hn.append (by simp) (by simpa using hk)
    have hne' : ∀ g ∈ addToGroup (key x) x groups, g.2 ≠ [] := by
      clear ih hn hn'
      induction groups with
      | nil => simp [addToGroup]
      | cons g gs ihg =>
        obtain ⟨m, ys⟩ := g
        intro g' hg'
        by_cases hm : m = key x
        · simp only [addToGroup, hm, if_true, List.mem_cons] at hg'
          rcases hg' with rfl | hg'
          · simp
          · exact hne g' (List.mem_cons_of_mem _ hg')
        · simp only [addToGroup, hm, if_false, List.mem_cons] at hg'
          rcases hg' with rfl | hg'
          · exact hne _ (List.mem_cons_self ..)
          · exact ihg (fun g hg => hne g (List.mem_cons_of_mem _ hg)) g' hg'
    obtain ⟨h₁, h₂, h₃⟩ := ih _ hn' hne'
    refine ⟨h₁, h₂, fun l => ?_⟩
    rw [List.foldl_cons, h₃ l, groupOf_addToGroup]
    by_cases h : key x = l <;> simp [h]

/-- Grouping lists every key once. -/
theorem groupBy_keys_nodup (key : α → κ) (xs : List α) :
    ((groupBy key xs).map Prod.fst).Nodup :=
  (foldl_addToGroup key xs [] List.nodup_nil (by simp)).1

/-- With distinct keys the group of a key is the one listed. -/
theorem groupOf_of_mem {groups : List (κ × List α)} (hn : (groups.map Prod.fst).Nodup)
    {k : κ} {ys : List α} (h : (k, ys) ∈ groups) : groupOf k groups = ys := by
  induction groups with
  | nil => simp at h
  | cons g rest ih =>
    obtain ⟨m, zs⟩ := g
    rw [List.map_cons, List.nodup_cons] at hn
    rcases List.mem_cons.mp h with h | h
    · cases h
      simp [groupOf]
    · have hne : m ≠ k := by
        rintro rfl
        exact hn.1 (List.mem_map.mpr ⟨_, h, rfl⟩)
      rw [groupOf, if_neg hne, ih hn.2 h]

/-- A group holds the rows of its key in their order, and is not empty. -/
theorem mem_groupBy {key : α → κ} {xs : List α} {k : κ} {ys : List α}
    (h : (k, ys) ∈ groupBy key xs) : ys = (xs.filter fun x => key x = k) ∧ ys ≠ [] := by
  obtain ⟨hn, hne, hof⟩ := foldl_addToGroup key xs [] List.nodup_nil (by simp)
  refine ⟨?_, hne _ h⟩
  rw [← groupOf_of_mem hn h, hof k]
  rfl

/-- Every row lies in the group of its key. -/
theorem exists_groupBy {key : α → κ} {xs : List α} {x : α} (hx : x ∈ xs) :
    ∃ ys, (key x, ys) ∈ groupBy key xs ∧ x ∈ ys := by
  obtain ⟨hn, -, hof⟩ := foldl_addToGroup key xs [] List.nodup_nil (by simp)
  have hmem : x ∈ groupOf (key x) (groupBy key xs) := by
    unfold groupBy
    rw [hof (key x)]
    simp [groupOf, hx]
  suffices ∀ groups : List (κ × List α), x ∈ groupOf (key x) groups →
      ∃ ys, (key x, ys) ∈ groups ∧ x ∈ ys from this _ hmem
  intro groups hg
  induction groups with
  | nil => simp [groupOf] at hg
  | cons g rest ih =>
    obtain ⟨m, ys⟩ := g
    by_cases hm : m = key x
    · rw [groupOf, if_pos hm] at hg
      exact ⟨ys, by simp [hm], hg⟩
    · rw [groupOf, if_neg hm] at hg
      obtain ⟨ys, h₁, h₂⟩ := ih hg
      exact ⟨ys, List.mem_cons_of_mem _ h₁, h₂⟩

end Grouping

section Sorting

variable {α κ : Type} [LinearOrder κ]

/-- `sorted(xs, key=key)`: stable, smallest key first. -/
def sortedBy (key : α → κ) (xs : List α) : List α := xs.insertionSort fun a b => key a ≤ key b

/-- `sorted(xs, key=key, reverse=True)`: stable, largest key first. -/
def sortedByDesc (key : α → κ) (xs : List α) : List α :=
  xs.insertionSort fun a b => key b ≤ key a

variable (key : α → κ) (xs : List α)

/-- Sorting keeps the elements with their multiplicity. -/
theorem sortedBy_perm : (sortedBy key xs).Perm xs := List.perm_insertionSort _ _

/-- Sorting downwards keeps the elements with their multiplicity. -/
theorem sortedByDesc_perm : (sortedByDesc key xs).Perm xs := List.perm_insertionSort _ _

/-- Sorting keeps the elements. -/
@[simp] theorem mem_sortedBy {x : α} : x ∈ sortedBy key xs ↔ x ∈ xs :=
  (sortedBy_perm key xs).mem_iff

/-- Sorting downwards keeps the elements. -/
@[simp] theorem mem_sortedByDesc {x : α} : x ∈ sortedByDesc key xs ↔ x ∈ xs :=
  (sortedByDesc_perm key xs).mem_iff

/-- In a list sorted downwards no key is below a later one. -/
theorem sortedByDesc_pairwise : (sortedByDesc key xs).Pairwise fun a b => key b ≤ key a := by
  have : Std.Total fun a b : α => key b ≤ key a := ⟨fun a b => le_total (key b) (key a)⟩
  have : IsTrans α fun a b => key b ≤ key a := ⟨fun _ _ _ h₁ h₂ => le_trans h₂ h₁⟩
  exact List.pairwise_insertionSort _ _

end Sorting
