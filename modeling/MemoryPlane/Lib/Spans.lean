import Mathlib.Data.List.Basic
import Mathlib.Data.List.Pairwise
import Mathlib.Data.Nat.Find
import Mathlib.Order.Lattice

/-!
# Selecting spans from left to right

Spans of positions are gone through in the order of their starts, longer spans first among equal
starts, and a span is kept unless it starts before the end of the last one kept. The kept spans are
disjoint and reach the start of every span. They reach every position of every span exactly when
the spans have a tiling: disjoint spans, each the longest at its start, that do. Of a stretch whose
spans start at marked positions they reach every mark exactly when the marks are read from span to
span.
-/

namespace MemoryPlane

namespace Spans

section Select

variable {α : Type} (start stop : α → ℕ)

/-- Keep each span that starts at or after the end of the last one kept. -/
def select (covered : ℕ) : List α → List α
  | [] => []
  | x :: xs =>
    if start x < covered then select covered xs else x :: select (stop x) xs

/-- A position lies in a span. -/
def Within (x : α) (i : ℕ) : Prop := start x ≤ i ∧ i < stop x

/-- Some of the spans reach a position. -/
def Reached (xs : List α) (i : ℕ) : Prop := ∃ x ∈ xs, Within start stop x i

/-- The first spans start first, and are the longest of those that start there. -/
def Ranked (xs : List α) : Prop :=
  xs.Pairwise fun x y => start x < start y ∨ start x = start y ∧ stop y ≤ stop x

/-- Disjoint spans, each the longest at its start, that reach every position of every span. -/
structure Tiling (xs tiles : List α) : Prop where
  subset : ∀ t ∈ tiles, t ∈ xs
  longest : ∀ t ∈ tiles, ∀ x ∈ xs, start x = start t → stop x ≤ stop t
  disjoint : ∀ t ∈ tiles, ∀ u ∈ tiles, ∀ i, Within start stop t i → Within start stop u i →
    start t = start u
  reached : ∀ x ∈ xs, ∀ i, Within start stop x i → Reached start stop tiles i

variable {start stop} {covered i : ℕ} {xs tiles : List α} {x y s : α}

theorem select_sublist (covered : ℕ) (xs : List α) :
    (select start stop covered xs).Sublist xs := by
  induction xs generalizing covered with
  | nil => exact List.Sublist.refl _
  | cons x xs ih =>
    rw [select]
    split
    · exact (ih covered).cons x
    · exact (ih (stop x)).cons_cons x

/-- What is kept starts behind what was covered. -/
theorem covered_le (hproper : ∀ x ∈ xs, start x < stop x)
    (hs : s ∈ select start stop covered xs) : covered ≤ start s := by
  induction xs generalizing covered with
  | nil => cases hs
  | cons x xs ih =>
    obtain ⟨hx, hxs⟩ := List.forall_mem_cons.mp hproper
    rw [select] at hs
    split at hs
    · exact ih hxs hs
    · obtain rfl | hs := List.mem_cons.mp hs
      · omega
      · have hlater := ih hxs hs
        omega

/-- The kept spans follow each other. -/
theorem select_pairwise (hproper : ∀ x ∈ xs, start x < stop x) :
    (select start stop covered xs).Pairwise fun x y => stop x ≤ start y := by
  induction xs generalizing covered with
  | nil => exact .nil
  | cons x xs ih =>
    have hxs : ∀ y ∈ xs, start y < stop y := fun y hy => hproper y (List.mem_cons_of_mem _ hy)
    rw [select]
    split
    · exact ih hxs
    · exact List.pairwise_cons.mpr ⟨fun y hy => covered_le hxs hy, ih hxs⟩

/-- The start of every span that starts behind what was covered is reached. -/
theorem reached_start (hranked : Ranked start stop xs) (hproper : ∀ x ∈ xs, start x < stop x)
    (hx : x ∈ xs) (hcovered : covered ≤ start x) :
    ∃ s ∈ select start stop covered xs, Within start stop s (start x) := by
  induction xs generalizing covered with
  | nil => cases hx
  | cons y xs ih =>
    obtain ⟨hy, hproper⟩ := List.forall_mem_cons.mp hproper
    obtain ⟨hfirst, hranked⟩ := List.pairwise_cons.mp hranked
    rw [select]
    obtain rfl | hx := List.mem_cons.mp hx
    · rw [if_neg (by omega)]
      exact ⟨x, List.mem_cons_self, le_refl _, hy⟩
    · split
      · exact ih hranked hproper hx hcovered
      · by_cases hlater : stop y ≤ start x
        · obtain ⟨s, hs, hwithin⟩ := ih hranked hproper hx hlater
          exact ⟨s, List.mem_cons_of_mem _ hs, hwithin⟩
        · have hle := hfirst x hx
          exact ⟨y, List.mem_cons_self, by omega, by omega⟩

/-- A kept span is the longest of those that start where it starts. -/
theorem longest_of_mem_select (hranked : Ranked start stop xs)
    (hproper : ∀ x ∈ xs, start x < stop x) (hs : s ∈ select start stop covered xs) (hx : x ∈ xs)
    (hstart : start x = start s) : stop x ≤ stop s := by
  induction xs generalizing covered with
  | nil => cases hx
  | cons y xs ih =>
    obtain ⟨hy, htail⟩ := List.forall_mem_cons.mp hproper
    obtain ⟨hfirst, hranked⟩ := List.pairwise_cons.mp hranked
    have hbound := covered_le hproper hs
    rw [select] at hs
    split at hs
    · obtain rfl | hx := List.mem_cons.mp hx
      · omega
      · exact ih hranked htail hs hx
    · obtain rfl | hs := List.mem_cons.mp hs
      · obtain rfl | hx := List.mem_cons.mp hx
        · exact le_refl _
        · have hle := hfirst x hx
          omega
      · have hlater := covered_le htail hs
        obtain rfl | hx := List.mem_cons.mp hx
        · omega
        · exact ih hranked htail hs hx

/-- Kept spans that share a position are the same. -/
theorem eq_of_within (hproper : ∀ x ∈ xs, start x < stop x)
    (hx : x ∈ select start stop covered xs) (hy : y ∈ select start stop covered xs)
    (hxi : Within start stop x i) (hyi : Within start stop y i) : x = y := by
  have hsymm : Std.Symm fun x y => stop x ≤ start y ∨ stop y ≤ start x := ⟨fun _ _ h => h.symm⟩
  have hapart : (select start stop covered xs).Pairwise fun x y =>
      stop x ≤ start y ∨ stop y ≤ start x := (select_pairwise hproper).imp .inl
  by_contra hne
  have hxy := hapart.forall hx hy hne
  unfold Within at hxi hyi
  omega

/-- The kept spans reach every position exactly when the spans have a tiling. -/
theorem reached_iff (hranked : Ranked start stop xs) (hproper : ∀ x ∈ xs, start x < stop x) :
    (∀ x ∈ xs, ∀ i, Within start stop x i → Reached start stop (select start stop 0 xs) i) ↔
      ∃ tiles, Tiling start stop xs tiles := by
  constructor
  · intro hall
    refine ⟨select start stop 0 xs, fun t ht => (select_sublist 0 xs).subset ht, ?_, ?_, hall⟩
    · exact fun t ht x hx => longest_of_mem_select hranked hproper ht hx
    · intro t ht u hu i hti hui
      rw [eq_of_within hproper ht hu hti hui]
  · rintro ⟨tiles, htiles⟩
    -- a tile is kept: the tile at the start of a kept span that runs into it would overlap it
    have hkept : ∀ n, ∀ t ∈ tiles, start t = n →
        ∃ s ∈ select start stop 0 xs, start s = start t ∧ stop s = stop t := by
      intro n
      induction n using Nat.strong_induction_on with
      | _ n ih =>
        intro t ht hn
        have htx := htiles.subset t ht
        obtain ⟨s, hs, hbefore, hbehind⟩ :=
          reached_start hranked hproper htx (Nat.zero_le (start t))
        have hsx := (select_sublist 0 xs).subset hs
        by_cases hsame : start s = start t
        · have hle := htiles.longest t ht s hsx hsame
          have hge := longest_of_mem_select hranked hproper hs htx hsame.symm
          exact ⟨s, hs, hsame, by omega⟩
        · exfalso
          obtain ⟨u, hu, hustart, hustop⟩ :=
            htiles.reached s hsx (start s) ⟨le_refl _, hproper s hsx⟩
          obtain ⟨r, hr, hrstart, hrstop⟩ := ih (start u) (by omega) u hu rfl
          have hrs : r = s := by
            apply eq_of_within (i := start s) hproper hr hs
            · exact ⟨by omega, by omega⟩
            · exact ⟨le_refl _, hproper s hsx⟩
          rw [hrs] at hrstart hrstop
          have hstart := htiles.disjoint u hu t ht (start t) ⟨by omega, by omega⟩
            ⟨le_refl _, hproper t htx⟩
          omega
    intro x hx i hi
    obtain ⟨t, ht, hti, hit⟩ := htiles.reached x hx i hi
    obtain ⟨s, hs, hstart, hstop⟩ := hkept _ t ht rfl
    exact ⟨s, hs, by omega, by omega⟩

/-- A tiling does not depend on the order of the spans. -/
theorem Tiling.perm {ys : List α} (h : Tiling start stop xs tiles) (hperm : xs.Perm ys) :
    Tiling start stop ys tiles :=
  ⟨fun t ht => hperm.mem_iff.mp (h.subset t ht),
    fun t ht x hx => h.longest t ht x (hperm.mem_iff.mpr hx), h.disjoint,
    fun x hx => h.reached x (hperm.mem_iff.mpr hx)⟩

/-- What is kept of the spans before a position depends on these spans alone. -/
theorem select_filter (hranked : Ranked start stop xs) (covered m : ℕ) :
    (select start stop covered xs).filter (fun x => start x < m) =
      select start stop covered (xs.filter fun x => start x < m) := by
  induction xs generalizing covered with
  | nil => rfl
  | cons x xs ih =>
    obtain ⟨hfirst, hranked⟩ := List.pairwise_cons.mp hranked
    by_cases hx : start x < m
    · rw [List.filter_cons_of_pos (by simpa using hx), select, select]
      split
      · exact ih hranked covered
      · rw [List.filter_cons_of_pos (by simpa using hx), ih hranked]
    · -- no later span starts before the position either
      have hnone : ∀ y ∈ x :: xs, ¬ start y < m := by
        refine List.forall_mem_cons.mpr ⟨hx, fun y hy => ?_⟩
        have hle := hfirst y hy
        omega
      have hxs : (x :: xs).filter (fun x => start x < m) = [] := by
        rw [List.filter_eq_nil_iff]
        simpa using hnone
      rw [hxs, select, List.filter_eq_nil_iff]
      intro y hy
      have hmem := (select_sublist covered (x :: xs)).subset hy
      simpa using hnone y hmem

/-- No kept span runs over a position. -/
def Clear (start stop : α → ℕ) (xs : List α) (m : ℕ) : Prop :=
  ∀ s ∈ select start stop 0 xs, start s < m → stop s ≤ m

/-- Where reading goes on from a position: behind the spans that are kept of those before it. -/
def entry (start stop : α → ℕ) (xs : List α) (m : ℕ) : ℕ :=
  (select start stop 0 (xs.filter fun x => start x < m)).foldr (fun s e => max (stop s) e) m

theorem le_foldr_stop (m : ℕ) (ss : List α) : m ≤ ss.foldr (fun s e => max (stop s) e) m := by
  induction ss with
  | nil => exact le_refl m
  | cons s ss ih => exact ih.trans (le_max_right _ _)

theorem stop_le_foldr {m : ℕ} {ss : List α} (hs : s ∈ ss) :
    stop s ≤ ss.foldr (fun s e => max (stop s) e) m := by
  induction ss with
  | nil => cases hs
  | cons r ss ih =>
    obtain rfl | hs := List.mem_cons.mp hs
    · exact le_max_left _ _
    · exact (ih hs).trans (le_max_right _ _)

theorem foldr_stop_cases (m : ℕ) (ss : List α) :
    ss.foldr (fun s e => max (stop s) e) m = m ∨
      ∃ s ∈ ss, ss.foldr (fun s e => max (stop s) e) m = stop s := by
  induction ss with
  | nil => exact .inl rfl
  | cons r ss ih =>
    rw [List.foldr_cons]
    by_cases hle : stop r ≤ ss.foldr (fun s e => max (stop s) e) m
    · rw [max_eq_right hle]
      exact ih.imp_right fun ⟨s, hs, heq⟩ => ⟨s, List.mem_cons_of_mem _ hs, heq⟩
    · exact .inr ⟨r, List.mem_cons_self, max_eq_left (by omega)⟩

theorem le_entry (xs : List α) (m : ℕ) : m ≤ entry start stop xs m := le_foldr_stop m _

/-- The entry is the position itself, or the end of a kept span that runs over it. -/
theorem entry_cases (hranked : Ranked start stop xs) (m : ℕ) : entry start stop xs m = m ∨
    ∃ s ∈ select start stop 0 xs, start s < m ∧ entry start stop xs m = stop s := by
  obtain heq | ⟨s, hs, heq⟩ :=
    foldr_stop_cases m (select start stop 0 (xs.filter fun x => start x < m))
  · exact .inl heq
  · rw [← select_filter hranked, List.mem_filter, decide_eq_true_eq] at hs
    exact .inr ⟨s, hs.1, hs.2, heq⟩

/-- A position behind a kept span is clear. -/
theorem clear_stop (hproper : ∀ x ∈ xs, start x < stop x) (hs : s ∈ select start stop 0 xs) :
    Clear start stop xs (stop s) := by
  intro r hr hlt
  by_cases hle : stop r ≤ stop s
  · exact hle
  · have hrx := hproper r ((select_sublist 0 xs).subset hr)
    have hsx := hproper s ((select_sublist 0 xs).subset hs)
    by_cases hbefore : start r ≤ start s
    · have heq := eq_of_within (i := start s) hproper hr hs ⟨hbefore, by omega⟩ ⟨le_refl _, hsx⟩
      rw [heq]
    · have heq := eq_of_within (i := start r) hproper hr hs ⟨le_refl _, hrx⟩ ⟨by omega, hlt⟩
      rw [heq]

theorem clear_entry (hranked : Ranked start stop xs) (hproper : ∀ x ∈ xs, start x < stop x)
    (m : ℕ) : Clear start stop xs (entry start stop xs m) := by
  obtain heq | ⟨s, hs, -, heq⟩ := entry_cases hranked m
  · intro r hr hlt
    rw [heq] at hlt
    refine stop_le_foldr ?_
    rw [← select_filter hranked, List.mem_filter]
    exact ⟨hr, decide_eq_true hlt⟩
  · rw [heq]
    exact clear_stop hproper hs

/-- The marked positions from one on, up to a bound, are read from span to span: the first of them
starts a span, and reading goes on behind the longest one that starts there. -/
inductive ReadThrough (start stop : α → ℕ) (xs : List α) (marked : ℕ → Prop) (n : ℕ) : ℕ → Prop
  | done {e : ℕ} (hnone : ∀ i, e ≤ i → i < n → ¬ marked i) : ReadThrough start stop xs marked n e
  | next {e : ℕ} {x : α} (hx : x ∈ xs) (hlongest : ∀ y ∈ xs, start y = start x → stop y ≤ stop x)
      (hle : e ≤ start x) (hlt : start x < n) (hnone : ∀ i, e ≤ i → i < start x → ¬ marked i)
      (hrest : ReadThrough start stop xs marked n (stop x)) : ReadThrough start stop xs marked n e

section Marked

variable {marked : ℕ → Prop} {m n e : ℕ}

/-- The longest span at the first mark behind a clear position is kept. -/
theorem kept_of_clear (hranked : Ranked start stop xs) (hproper : ∀ x ∈ xs, start x < stop x)
    (hclear : Clear start stop xs e) (hx : x ∈ xs)
    (hlongest : ∀ y ∈ xs, start y = start x → stop y ≤ stop x) (hle : e ≤ start x)
    (hfirst : ∀ y ∈ xs, e ≤ start y → start x ≤ start y) :
    ∃ s ∈ select start stop 0 xs, start s = start x ∧ stop s = stop x := by
  obtain ⟨s, hs, hbefore, hbehind⟩ := reached_start hranked hproper hx (Nat.zero_le (start x))
  have hsx := (select_sublist 0 xs).subset hs
  have hge : e ≤ start s := by
    by_contra hlt
    have hstop := hclear s hs (by omega)
    omega
  have hsame : start s = start x := le_antisymm hbefore (hfirst s hsx hge)
  have hmost := longest_of_mem_select hranked hproper hs hx hsame.symm
  exact ⟨s, hs, hsame, le_antisymm (hlongest s hsx hsame) hmost⟩

/-- From a clear position on, every mark is reached exactly when the marks are read from span to
span. -/
theorem reached_iff_readThrough (hranked : Ranked start stop xs)
    (hproper : ∀ x ∈ xs, start x < stop x)
    (hmarked : ∀ x ∈ xs, e ≤ start x → start x < n → marked (start x))
    (hclear : Clear start stop xs e) :
    (∀ i, e ≤ i → i < n → marked i → Reached start stop (select start stop 0 xs) i) ↔
      ReadThrough start stop xs marked n e := by
  constructor
  · -- every span that is read leaves fewer positions
    have hread : ∀ k e, n - e ≤ k → (∀ x ∈ xs, e ≤ start x → start x < n → marked (start x)) →
        Clear start stop xs e →
        (∀ i, e ≤ i → i < n → marked i → Reached start stop (select start stop 0 xs) i) →
        ReadThrough start stop xs marked n e := by
      intro k
      induction k with
      | zero => exact fun e he _ _ _ => .done fun i hei hin => absurd hin (by omega)
      | succ k ih =>
        intro e he hmarked hclear hall
        by_cases hany : ∃ i, e ≤ i ∧ i < n ∧ marked i
        · classical
          obtain ⟨hei, hin, hi⟩ := Nat.find_spec hany
          have hleast : ∀ j < Nat.find hany, ¬ (e ≤ j ∧ j < n ∧ marked j) := fun j =>
            Nat.find_min hany
          obtain ⟨s, hs, hbefore, hbehind⟩ := hall _ hei hin hi
          have hsx := (select_sublist 0 xs).subset hs
          have hge : e ≤ start s := by
            by_contra hlt
            have hstop := hclear s hs (by omega)
            omega
          have hnone : ∀ i, e ≤ i → i < start s → ¬ marked i := fun i hei his hmark =>
            hleast i (by omega) ⟨hei, by omega, hmark⟩
          have hlongest : ∀ y ∈ xs, start y = start s → stop y ≤ stop s := fun y hy heq =>
            longest_of_mem_select hranked hproper hs hy heq
          have hproperS := hproper s hsx
          refine .next hsx hlongest hge (by omega) hnone ?_
          refine ih (stop s) (by omega) (fun x hx hle => hmarked x hx (by omega))
            (clear_stop hproper hs) fun i hi => hall i (by omega)
        · exact .done fun i hei hin hmark => hany ⟨i, hei, hin, hmark⟩
    exact hread (n - e) e (le_refl _) hmarked hclear
  · intro hread
    induction hread with
    | done hnone => exact fun i hei hin hmark => absurd hmark (hnone i hei hin)
    | @next e x hx hlongest hle hlt hnone hrest ih =>
      have hfirst : ∀ y ∈ xs, e ≤ start y → start x ≤ start y := by
        intro y hy hey
        by_contra hyx
        exact hnone (start y) hey (by omega) (hmarked y hy hey (by omega))
      obtain ⟨s, hs, hstart, hstop⟩ := kept_of_clear hranked hproper hclear hx hlongest hle hfirst
      have hclearStop : Clear start stop xs (stop x) :=
        hstop ▸ clear_stop hproper hs
      have hproperX := hproper x hx
      intro i hei hin hmark
      by_cases hi : i < stop x
      · refine ⟨s, hs, ?_, by omega⟩
        by_contra hbefore
        exact hnone i hei (by omega) hmark
      · exact ih (fun y hy hle => hmarked y hy (by omega)) hclearStop i (by omega) hin hmark

/-- Every mark of a stretch is reached exactly when the marks are read from span to span, from
where the spans before the stretch leave off. -/
theorem marks_reached_iff (hranked : Ranked start stop xs) (hproper : ∀ x ∈ xs, start x < stop x)
    (hmarked : ∀ x ∈ xs, m ≤ start x → start x < n → marked (start x)) :
    (∀ i, m ≤ i → i < n → marked i → Reached start stop (select start stop 0 xs) i) ↔
      ReadThrough start stop xs marked n (entry start stop xs m) := by
  have hle : m ≤ entry start stop xs m := le_entry xs m
  rw [← reached_iff_readThrough hranked hproper (fun x hx he => hmarked x hx (by omega))
    (clear_entry hranked hproper m)]
  constructor
  · exact fun hall i hi => hall i (by omega)
  · intro hall i hmi hin hmark
    by_cases hi : entry start stop xs m ≤ i
    · exact hall i hi hin hmark
    · -- what is in front of the entry lies in the span that runs into the stretch
      obtain heq | ⟨s, hs, hstart, heq⟩ := entry_cases hranked m
      · omega
      · exact ⟨s, hs, by omega, by omega⟩

/-- What is read depends on where the spans of the stretch start and stop alone. -/
theorem ReadThrough.congr {β : Type} {first last : β → ℕ} {ys : List β}
    (hproper : ∀ x ∈ xs, start x < stop x)
    (hsame : ∀ i j, m ≤ i → i < n →
      ((∃ x ∈ xs, start x = i ∧ stop x = j) ↔ ∃ y ∈ ys, first y = i ∧ last y = j))
    (h : ReadThrough start stop xs marked n e) (hm : m ≤ e) :
    ReadThrough first last ys marked n e := by
  induction h with
  | done hnone => exact .done hnone
  | @next e x hx hlongest hle hlt hnone hrest ih =>
    obtain ⟨y, hy, hfirst, hlast⟩ :=
      (hsame (start x) (stop x) (by omega) hlt).mp ⟨x, hx, rfl, rfl⟩
    have hproperX := hproper x hx
    refine .next hy ?_ (by omega) (by omega) (hfirst ▸ hnone) (hlast ▸ ih (by omega))
    intro z hz heq
    obtain ⟨w, hw, hstart, hstop⟩ :=
      (hsame (first z) (last z) (by omega) (by omega)).mpr ⟨z, hz, rfl, rfl⟩
    have hle := hlongest w hw (by omega)
    omega

end Marked

end Select

end Spans

end MemoryPlane
