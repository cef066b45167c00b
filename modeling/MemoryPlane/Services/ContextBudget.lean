import MemoryPlane.Services.ContextPacking

/-!
# Delivered context and its budget

The budget of a package or a seed is charged for the texts of its memories, each rounded up to
tokens. What is delivered also has headings, bullets and line breaks. It fits the budget exactly
when charging for the delivered lines would leave out no memory that charging for the texts lets in.
-/

namespace MemoryPlane

/-- The characters of joined lines, with one line break for each. -/
theorem length_joined {lines : List String} (hne : lines ≠ []) :
    ("\n".intercalate lines).length + 1 = (lines.map fun l => l.length + 1).sum := by
  induction lines with
  | nil => exact absurd rfl hne
  | cons l rest ih =>
    cases rest with
    | nil => simp [String.intercalate_singleton]
    | cons k ks =>
      have hbreak : "\n".length = 1 := by decide
      have hrest := ih (by simp)
      rw [String.intercalate_cons_cons, String.length_append, String.length_append, hbreak,
        List.map_cons, List.sum_cons, ← hrest]
      omega

namespace ContextCompiler

open Packing

/-- An estimate fits a budget exactly when the text has at most four characters for each token. -/
theorem estimateTokens_le {text : String} {budget : ℕ} (hbudget : 0 < budget) :
    estimateTokens text ≤ budget ↔ text.length ≤ 4 * budget := by
  unfold estimateTokens
  omega

/-- The characters that joined lines take, when each is ended by a line break. -/
theorem estimateTokens_joined_le {lines : List String} {budget : ℕ} (hbudget : 0 < budget) :
    estimateTokens ("\n".intercalate lines) ≤ budget ↔
      (lines.map fun l => l.length + 1).sum ≤ 4 * budget + 1 := by
  rw [estimateTokens_le hbudget]
  obtain rfl | hne := eq_or_ne lines []
  · simp [String.intercalate_nil]
  · rw [← length_joined hne]
    omega

/-- The characters of the lines of some memories: a bullet, the text and a line break each. -/
def bulletLength (items : List MemoryItem) : ℕ := (items.map fun i => i.text.length + 3).sum

/-- The characters of the headings over some memories: one line for each layer they are in. -/
def headingLength (layers : List MemoryLayer) (items : List MemoryItem) : ℕ :=
  ((layers.filter fun l => items.any fun i => i.layer = l).map fun l => l.value.length + 4).sum

/-- The lines of some memories, with headings for these layers, fit a budget as delivered. -/
def LinesWithin (layers : List MemoryLayer) (budget : ℕ) (items : List MemoryItem) : Prop :=
  headingLength layers items + bulletLength items ≤ 4 * budget + 1

/-- The texts of some memories fit a budget. -/
def TextsWithin (budget : ℕ) (items : List MemoryItem) : Prop := total cost items ≤ budget

instance (layers : List MemoryLayer) (budget : ℕ) : DecidablePred (LinesWithin layers budget) :=
  fun _ => inferInstanceAs (Decidable (_ ≤ _))

instance (budget : ℕ) : DecidablePred (TextsWithin budget) :=
  fun _ => inferInstanceAs (Decidable (_ ≤ _))

/-- Without layers there are no headings. -/
theorem headingLength_nil (items : List MemoryItem) : headingLength [] items = 0 := rfl

/-- More items never take a heading away. -/
theorem headingLength_append (layers : List MemoryLayer) (items more : List MemoryItem) :
    headingLength layers items ≤ headingLength layers (items ++ more) := by
  induction layers with
  | nil => exact Nat.le_refl 0
  | cons layer rest ih =>
    unfold headingLength at ih ⊢
    rw [List.filter_cons, List.filter_cons, List.any_append]
    cases items.any fun i => i.layer = layer with
    | true =>
      rw [Bool.true_or, if_pos rfl, if_pos rfl, List.map_cons, List.map_cons, List.sum_cons,
        List.sum_cons]
      omega
    | false =>
      rw [if_neg Bool.false_ne_true]
      split
      · rw [List.map_cons, List.sum_cons]
        omega
      · exact ih

/-- The bullets of two lists take what each of them takes. -/
theorem bulletLength_append (items more : List MemoryItem) :
    bulletLength (items ++ more) = bulletLength items + bulletLength more := by
  rw [bulletLength, List.map_append, List.sum_append]
  rfl

/-- If the lines of all items fit, those of the first ones do. -/
theorem LinesWithin.of_append {layers : List MemoryLayer} {budget : ℕ}
    {items more : List MemoryItem}
    (h : LinesWithin layers budget (items ++ more)) : LinesWithin layers budget items := by
  have hheadings := headingLength_append layers items more
  have hbullets := bulletLength_append items more
  unfold LinesWithin at h ⊢
  omega

/-- A memory costs no more than a quarter of its line. -/
theorem four_mul_cost_le (item : MemoryItem) : 4 * cost item ≤ item.text.length + 3 := by
  have hne : item.text.length ≠ 0 := by
    intro hzero
    have hblank := (MemoryFields.postInit_eq_ok.mp item.valid).1
    have hempty : item.text = "" := String.length_eq_zero_iff.mp hzero
    rw [hempty] at hblank
    cases hblank
  unfold cost estimateTokens
  omega

/-- A bullet is at least as long as four times the tokens charged for it. -/
theorem four_mul_total_le (items : List MemoryItem) :
    4 * total cost items ≤ bulletLength items := by
  induction items with
  | nil => exact Nat.le_refl 0
  | cons item rest ih =>
    have hitem := four_mul_cost_le item
    unfold total bulletLength at ih ⊢
    rw [List.map_cons, List.map_cons, List.sum_cons, List.sum_cons]
    omega

/-- Lines that fit have texts that fit. -/
theorem LinesWithin.textsWithin {layers : List MemoryLayer} {budget : ℕ} {items : List MemoryItem}
    (h : LinesWithin layers budget items) : TextsWithin budget items := by
  have htotal := four_mul_total_le items
  unfold LinesWithin at h
  unfold TextsWithin
  omega

/-- The memories that are packed by their texts fit as delivered when no other would be packed by
the delivered lines. -/
theorem linesWithin_gather_iff (may : List MemoryItem → MemoryItem → Prop)
    [∀ kept x, Decidable (may kept x)] (layers : List MemoryLayer) (budget : ℕ)
    (items : List MemoryItem) : LinesWithin layers budget (gather may (TextsWithin budget) items) ↔
      Agree may (LinesWithin layers budget) (TextsWithin budget) items := by
  have hnil : LinesWithin layers budget [] := by
    have hnone : headingLength layers [] = 0 := by simp [headingLength]
    unfold LinesWithin
    rw [hnone]
    exact Nat.zero_le _
  exact tight_gather_iff hnil (fun _ _ => LinesWithin.of_append) fun _ => LinesWithin.textsWithin

/-- A bullet is two characters longer than its text. -/
theorem length_bullet (text : String) : s!"- {text}".length = text.length + 2 := by
  have hmark : (toString "- ").length = 2 := by decide
  simp only [String.length_append, hmark]
  have htext : (toString text).length = text.length := rfl
  omega

/-- A heading is three characters longer than its name. -/
theorem length_heading (name : String) : s!"## {name}".length = name.length + 3 := by
  have hmark : (toString "## ").length = 3 := by decide
  simp only [String.length_append, hmark]
  have htext : (toString name).length = name.length := rfl
  omega

/-- The bullet lines with their line feeds take the bullets' length. -/
theorem sum_bullets (items : List MemoryItem) :
    ((items.map fun i => s!"- {i.text}").map fun l => l.length + 1).sum = bulletLength items := by
  rw [bulletLength, List.map_map]
  congr 1
  apply List.map_congr_left
  intro i _
  rw [Function.comp_apply, length_bullet]

variable {recipe : ContextRecipe} {candidates : List Candidate}

/-- The lines of sections are their headings and their memories. -/
theorem sum_sectionLines (sections : List ContextSection) :
    ((sections.flatMap fun s => s!"## {s.name}" :: s.items.map fun i => s!"- {i.text}").map
        fun l => l.length + 1).sum =
      (sections.map fun s => s.name.length + 4).sum +
        bulletLength (sections.flatMap fun s => s.items) := by
  induction sections with
  | nil => rfl
  | cons s rest ih =>
    have hbullets := sum_bullets s.items
    have happend : bulletLength ((s :: rest).flatMap fun s => s.items) =
        bulletLength s.items + bulletLength (rest.flatMap fun s => s.items) := by
      simp [bulletLength]
    rw [List.flatMap_cons, List.map_append, List.sum_append, ih, List.map_cons, List.sum_cons,
      hbullets, length_heading, List.map_cons, List.sum_cons, happend]
    omega

/-- The headings of the sections are those of the layers with a kept memory. -/
theorem sum_headings (layers : List MemoryLayer) (kept : List MemoryItem) :
    ((layers.filterMap (sectionIn kept)).map fun s => s.name.length + 4).sum =
      headingLength layers kept := by
  induction layers with
  | nil => rfl
  | cons layer rest ih =>
    rw [headingLength] at ih ⊢
    by_cases hnone : kept.filter (fun i => i.layer = layer) = []
    · have hany : ¬ (kept.any fun i => i.layer = layer) = true := by
        rw [List.filter_eq_nil_iff] at hnone
        simpa using hnone
      rw [List.filterMap_cons, sectionIn, if_pos hnone, List.filter_cons_of_neg (a := layer) hany]
      exact ih
    · have hany : (kept.any fun i => i.layer = layer) = true := by
        rw [List.any_eq_true]
        obtain ⟨i, hi⟩ := List.exists_mem_of_ne_nil _ hnone
        exact ⟨i, List.mem_filter.mp hi⟩
      rw [List.filterMap_cons, sectionIn, if_neg hnone, List.filter_cons_of_pos (a := layer) hany,
        List.map_cons, List.sum_cons, List.map_cons, List.sum_cons, ih]
      rfl

/-- The lines of a package have the characters of its headings and its memories. -/
theorem sum_chunks : ((compile recipe candidates).chunks.map fun l => l.length + 1).sum =
    headingLength recipe.order (packed recipe (visits candidates recipe.order)) +
      bulletLength (packed recipe (visits candidates recipe.order)) := by
  rw [ContextPackage.chunks, sum_sectionLines, ← items_compile, sections_compile, sum_headings,
    ← sections_compile]
  rfl

end ContextCompiler

namespace SessionSeedService

open Packing ContextCompiler

/-- The loop of a seed is a greedy packing that every memory may join. -/
theorem foldl_select (budget : ℕ) (items kept : List MemoryItem) :
    items.foldl (select budget) (kept, total cost kept) =
      (packFrom cost budget (fun _ _ => True) kept items,
        total cost (packFrom cost budget (fun _ _ => True) kept items)) := by
  induction items generalizing kept with
  | nil => rfl
  | cons item rest ih =>
    rw [List.foldl_cons, packFrom_cons]
    by_cases hover : budget < total cost kept + cost item
    · have hskip : ¬ Joins cost budget (fun _ _ => True) kept item := by
        rintro ⟨-, hfits⟩
        omega
      rw [select, if_pos hover, step_of_not_joins hskip, ih]
    · have hjoins : Joins cost budget (fun _ _ => True) kept item := ⟨trivial, by omega⟩
      rw [select, if_neg hover, step_of_joins hjoins, ← ih, total_append, total_singleton]

/-- The budget of a seed. -/
def seedBudget (budgetTokens : ℤ) : ℕ := (max 128 (min budgetTokens 4096)).toNat

/-- The memories of a seed, packed greedily from the first candidates. -/
def seeded (l : Ledger) (tenantId workspaceId : UUID) (budgetTokens : ℤ) : List MemoryItem :=
  pack cost (seedBudget budgetTokens) (fun _ _ => True)
    ((candidates l tenantId workspaceId).take 64)

variable {l : Ledger} {t w : UUID} {budgetTokens : ℤ}

/-- The built context is what the compiler packs, beside its rendered text. -/
theorem build_eq : build l t w budgetTokens =
    { budgetTokens := seedBudget budgetTokens
      usedTokens := total cost (seeded l t w budgetTokens)
      traceIds := (seeded l t w budgetTokens).map fun i => i.id
      markdown := "\n".intercalate ((seeded l t w budgetTokens).map fun i => s!"- {i.text}") } := by
  have hloop := foldl_select (seedBudget budgetTokens) ((candidates l t w).take 64) []
  rw [build]
  rw [total_nil] at hloop
  change SessionSeed.mk _ _ _ _ = _
  rw [show (max 128 (min budgetTokens 4096)).toNat = seedBudget budgetTokens from rfl, hloop]
  rfl

end SessionSeedService

open ContextCompiler SessionSeedService

/-- The text of a package fits its budget exactly when a pass over the candidates that charges the
lines of a memory as they are delivered leaves none out whose text is still within the budget; and a
seed likewise. -/
theorem delivered_fits_iff (recipe : ContextRecipe) (candidates : List Candidate) (l : Ledger)
    (t w : UUID) (budgetTokens : ℤ) :
    (estimateTokens (compile recipe candidates).renderMarkdown ≤
        (compile recipe candidates).budgetTokens ↔
      Packing.Agree (MayJoin recipe) (LinesWithin recipe.order recipe.budgetTokens)
        (TextsWithin recipe.budgetTokens) (visits candidates recipe.order)) ∧
    (estimateTokens (build l t w budgetTokens).markdown ≤ (build l t w budgetTokens).budgetTokens ↔
      Packing.Agree (fun _ _ => True) (LinesWithin [] (seedBudget budgetTokens))
        (TextsWithin (seedBudget budgetTokens))
          ((SessionSeedService.candidates l t w).take 64)) := by
  have hleast := recipe.budget_least
  have hseed : 0 < seedBudget budgetTokens := by
    unfold seedBudget
    omega
  constructor
  · change estimateTokens ("\n".intercalate (compile recipe candidates).chunks) ≤
      recipe.budgetTokens ↔ _
    rw [estimateTokens_joined_le (by omega), sum_chunks, packed, Packing.pack_eq_gather]
    exact linesWithin_gather_iff (MayJoin recipe) recipe.order recipe.budgetTokens
      (visits candidates recipe.order)
  · rw [build_eq]
    change estimateTokens ("\n".intercalate _) ≤ seedBudget budgetTokens ↔ _
    rw [estimateTokens_joined_le hseed, sum_bullets, seeded, Packing.pack_eq_gather]
    have hiff := linesWithin_gather_iff (fun _ _ => True) [] (seedBudget budgetTokens)
      ((SessionSeedService.candidates l t w).take 64)
    rw [LinesWithin, headingLength_nil, Nat.zero_add] at hiff
    exact hiff

/-- A core memory of 512 characters. -/
def longMemory : MemoryItem := lettersMemory .core 3 511

/-- A ledger with the one memory. -/
def longLedger : Ledger := { Ledger.empty with items := Table.empty.put longMemory }

def longCandidates : List Candidate := [{ item := longMemory, source := "lexical" }]

/-- One memory of 512 characters exceeds a budget of 128 tokens by its markup. -/
theorem long_memory_delivered :
    (compile longRecipe longCandidates).budgetTokens <
        estimateTokens (compile longRecipe longCandidates).renderMarkdown ∧
      (build longLedger (.ofNat 1) (.ofNat 2) 128).budgetTokens <
        estimateTokens (build longLedger (.ofNat 1) (.ofNat 2) 128).markdown := by
  have htext : longMemory.text = letters 512 := rfl
  have hcost : cost longMemory = 128 := cost_lettersMemory .core 3 511
  have hbullet : bulletLength [longMemory] = 515 := by
    rw [bulletLength, List.map_singleton, List.sum_singleton, htext, length_letters]
  have hkept : packed longRecipe (visits longCandidates longRecipe.order) = [longMemory] := by
    have hvisits : visits longCandidates longRecipe.order = [longMemory] := rfl
    rw [hvisits, packed, Packing.pack_singleton]
    refine ⟨⟨List.not_mem_nil, by decide +kernel⟩, ?_⟩
    rw [hcost]
    exact Nat.le_refl 128
  have hseeded : seeded longLedger (.ofNat 1) (.ofNat 2) 128 = [longMemory] := by
    have hcandidates : candidates longLedger (.ofNat 1) (.ofNat 2) = [longMemory] := rfl
    have hjoins : Packing.Joins cost (seedBudget 128) (fun _ _ => True) [] longMemory := by
      refine ⟨trivial, ?_⟩
      rw [hcost]
      exact Nat.le_refl 128
    rw [seeded, hcandidates]
    exact Packing.pack_singleton hjoins
  constructor
  · apply Nat.lt_of_not_le
    change ¬ estimateTokens ("\n".intercalate (compile longRecipe longCandidates).chunks) ≤ 128
    rw [estimateTokens_joined_le (by decide), sum_chunks, hkept, hbullet]
    omega
  · apply Nat.lt_of_not_le
    rw [build_eq, hseeded]
    change ¬ estimateTokens ("\n".intercalate _) ≤ 128
    rw [estimateTokens_joined_le (by decide), sum_bullets, hbullet]
    omega

end MemoryPlane
