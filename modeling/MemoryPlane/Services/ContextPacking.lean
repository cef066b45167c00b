import MemoryPlane.Services.Context

/-!
# Packing of the context

The loops of the compiler pack the candidates greedily, layer by layer: what they select is the
greedy packing of the candidates in the order in which they are considered, and the sections are
its layers. The guarantees of a package are those of a greedy packing.
-/

namespace MemoryPlane

/-- Dropping duplicates leaves none. -/
theorem nodup_eraseDups {α : Type} [DecidableEq α] (xs : List α) : xs.eraseDups.Nodup := by
  induction hn : xs.length using Nat.strong_induction_on generalizing xs with
  | _ n ih =>
    cases xs with
    | nil => simp
    | cons x xs =>
      rw [List.eraseDups_cons, List.nodup_cons]
      have hlen := List.length_filter_le (fun y => !y == x) xs
      rw [List.length_cons] at hn
      refine ⟨?_, ih _ (by omega) _ rfl⟩
      rw [List.mem_eraseDups, List.mem_filter]
      simp

namespace ContextCompiler

open Packing

variable (recipe : ContextRecipe) (candidates : List Candidate)

/-- The candidates of the layers, in the order in which they are considered. -/
def visits (layers : List MemoryLayer) : List MemoryItem := layers.flatMap (byLayer candidates)

/-- A memory may join the kept ones if it is not one of them and its layer is below its limit. -/
def MayJoin (kept : List MemoryItem) (item : MemoryItem) : Prop :=
  item.id ∉ kept.map (fun i => i.id) ∧
    (kept.countP (fun i => i.layer = item.layer) : ℤ) < recipe.limit item.layer

instance decidableMayJoin (kept : List MemoryItem) (item : MemoryItem) :
    Decidable (MayJoin recipe kept item) :=
  inferInstanceAs (Decidable (_ ∧ _))

/-- The greedy packing of memories under a recipe. -/
def packed (items : List MemoryItem) : List MemoryItem :=
  pack cost recipe.budgetTokens (MayJoin recipe) items

/-- The section of a layer, where something of it is kept. -/
def sectionIn (kept : List MemoryItem) (layer : MemoryLayer) : Option ContextSection :=
  if kept.filter (fun i => i.layer = layer) = [] then none
  else some (sectionOf layer (kept.filter fun i => i.layer = layer))

variable {recipe candidates} {layer : MemoryLayer} {kept accepted ys : List MemoryItem}

/-- The items of a layer are the candidates' items that lie in it. -/
theorem mem_byLayer {i : MemoryItem} :
    i ∈ byLayer candidates layer ↔ (∃ c ∈ candidates, c.item = i) ∧ i.layer = layer := by
  simp [byLayer]

/-- Only items of the listed layers are visited. -/
theorem layer_of_mem_visits {layers : List MemoryLayer} {i : MemoryItem}
    (h : i ∈ visits candidates layers) : i.layer ∈ layers := by
  obtain ⟨layer, hlayer, hi⟩ := List.mem_flatMap.mp h
  rw [(mem_byLayer.mp hi).2]
  exact hlayer

/-- The variables of the loops describe the kept memories. -/
def fillingOf (kept accepted : List MemoryItem) : Filling :=
  ⟨accepted, total cost (kept ++ accepted), (kept ++ accepted).map fun i => i.id⟩

/-- One round of the inner loop is one step of the packing. -/
theorem consider_fillingOf {item : MemoryItem} (hkept : ∀ i ∈ kept, i.layer ≠ layer)
    (haccepted : ∀ i ∈ accepted, i.layer = layer) (hitem : item.layer = layer) :
    ∃ more, step cost recipe.budgetTokens (MayJoin recipe) (kept ++ accepted) item =
        kept ++ (accepted ++ more) ∧ (∀ i ∈ more, i.layer = layer) ∧
      consider recipe layer (fillingOf kept accepted) item = fillingOf kept (accepted ++ more) := by
  have hcount : (kept ++ accepted).countP (fun i => i.layer = item.layer) = accepted.length := by
    rw [List.countP_append, List.countP_eq_zero.mpr, List.countP_eq_length.mpr, Nat.zero_add]
    · intro i hi
      exact decide_eq_true ((haccepted i hi).trans hitem.symm)
    · intro i hi
      rw [hitem]
      simpa using hkept i hi
  by_cases hskip : item.id ∈ (kept ++ accepted).map (fun i => i.id) ∨
      recipe.limit layer ≤ accepted.length
  · refine ⟨[], ?_, by simp, ?_⟩
    · rw [step_of_not_joins, List.append_nil]
      rintro ⟨⟨hnew, hbelow⟩, -⟩
      rw [hcount, hitem] at hbelow
      obtain hold | hfull := hskip
      · exact hnew hold
      · omega
    · rw [List.append_nil]
      exact if_pos hskip
  · rw [not_or, not_le] at hskip
    have hfilling : consider recipe layer (fillingOf kept accepted) item =
        if recipe.budgetTokens < total cost (kept ++ accepted) + cost item then
          fillingOf kept accepted
        else ⟨accepted ++ [item], total cost (kept ++ accepted) + cost item,
          (kept ++ accepted).map (fun i => i.id) ++ [item.id]⟩ :=
      if_neg (not_or.mpr ⟨hskip.1, not_le.mpr hskip.2⟩)
    by_cases hover : recipe.budgetTokens < total cost (kept ++ accepted) + cost item
    · refine ⟨[], ?_, by simp, ?_⟩
      · rw [step_of_not_joins, List.append_nil]
        rintro ⟨-, hfits⟩
        omega
      · rw [List.append_nil, hfilling, if_pos hover]
    · refine ⟨[item], ?_, by simpa using hitem, ?_⟩
      · rw [step_of_joins, List.append_assoc]
        refine ⟨⟨hskip.1, ?_⟩, by omega⟩
        rw [hcount, hitem]
        exact hskip.2
      · rw [hfilling, if_neg hover, fillingOf]
        simp [Nat.add_assoc]

/-- The inner loop goes on with the packing. -/
theorem foldl_consider (hkept : ∀ i ∈ kept, i.layer ≠ layer)
    (haccepted : ∀ i ∈ accepted, i.layer = layer) (hys : ∀ i ∈ ys, i.layer = layer) :
    ∃ more, packFrom cost recipe.budgetTokens (MayJoin recipe) (kept ++ accepted) ys =
        kept ++ (accepted ++ more) ∧ (∀ i ∈ accepted ++ more, i.layer = layer) ∧
      ys.foldl (consider recipe layer) (fillingOf kept accepted) =
        fillingOf kept (accepted ++ more) := by
  induction ys generalizing accepted with
  | nil => exact ⟨[], by simp, by simpa using haccepted, by simp⟩
  | cons y ys ih =>
    obtain ⟨hy, hys⟩ := List.forall_mem_cons.mp hys
    obtain ⟨more, hstep, hmore, hround⟩ := consider_fillingOf hkept haccepted hy
    obtain ⟨rest, hpack, hrest, hloop⟩ := ih
      (fun i hi => (List.mem_append.mp hi).elim (haccepted i) (hmore i)) hys
    refine ⟨more ++ rest, ?_, ?_, ?_⟩
    · rw [packFrom_cons, hstep, hpack, List.append_assoc]
    · rw [← List.append_assoc]
      exact hrest
    · rw [List.foldl_cons, hround, hloop, List.append_assoc]

/-- The variables of the outer loop after some layers. -/
structure Compiled (recipe : ContextRecipe) (kept : List MemoryItem) (layers : List MemoryLayer)
    (c : Compiling) : Prop where
  sections : c.sections = layers.filterMap (sectionIn kept)
  items : c.sections.flatMap (fun s => s.items) = kept
  used : c.used = total cost kept
  ids : c.selectedIds = kept.map fun i => i.id

/-- The outer loop packs the candidates of the layers in turn. -/
theorem foldl_addLayer {layers : List MemoryLayer} (hn : layers.Nodup) :
    Compiled recipe (packed recipe (visits candidates layers)) layers
      (layers.foldl (addLayer recipe candidates) ⟨[], 0, []⟩) := by
  induction layers using List.reverseRecOn with
  | nil => exact ⟨rfl, rfl, rfl, rfl⟩
  | append_singleton layers layer ih =>
    obtain ⟨hlayers, -, hapart⟩ := List.nodup_append.mp hn
    have hnew : layer ∉ layers := fun h => hapart layer h layer (List.mem_singleton.mpr rfl) rfl
    have h := ih hlayers
    rw [List.foldl_append, List.foldl_cons, List.foldl_nil]
    set c := layers.foldl (addLayer recipe candidates) ⟨[], 0, []⟩ with hc
    set kept := packed recipe (visits candidates layers) with hkept
    have hother : ∀ i ∈ kept, i.layer ≠ layer := by
      intro i hi he
      apply hnew
      rw [← he]
      exact layer_of_mem_visits ((pack_sublist _).subset hi)
    obtain ⟨more, hpack, hmore, hloop⟩ : ∃ more, packFrom cost recipe.budgetTokens (MayJoin recipe)
        (kept ++ []) (byLayer candidates layer) = kept ++ ([] ++ more) ∧
        (∀ i ∈ [] ++ more, i.layer = layer) ∧
        (byLayer candidates layer).foldl (consider recipe layer) (fillingOf kept []) =
          fillingOf kept ([] ++ more) :=
      foldl_consider hother (by simp) fun i hi => (mem_byLayer.mp hi).2
    simp only [List.append_nil, List.nil_append] at hpack hmore hloop
    have hpacked : packed recipe (visits candidates (layers ++ [layer])) = kept ++ more := by
      rw [packed, visits, List.flatMap_append, List.flatMap_singleton, pack_append]
      exact hpack
    have hstart : (⟨[], c.used, c.selectedIds⟩ : Filling) = fillingOf kept [] := by
      rw [fillingOf, h.used, h.ids, List.append_nil]
    have hadd : addLayer recipe candidates c layer =
        { sections := if more = [] then c.sections else c.sections ++ [sectionOf layer more]
          used := total cost (kept ++ more)
          selectedIds := (kept ++ more).map fun i => i.id } := by
      simp only [addLayer, hstart, hloop]
      rfl
    have hfilter : (kept ++ more).filter (fun i => i.layer = layer) = more := by
      rw [List.filter_append, List.filter_eq_nil_iff.mpr, List.filter_eq_self.mpr, List.nil_append]
      · exact fun i hi => decide_eq_true (hmore i hi)
      · exact fun i hi => by simpa using hother i hi
    have hearlier : layers.filterMap (sectionIn (kept ++ more)) =
        layers.filterMap (sectionIn kept) := by
      apply List.filterMap_congr
      intro l hl
      have hsame : (kept ++ more).filter (fun i => i.layer = l) =
          kept.filter fun i => i.layer = l := by
        have hnone : more.filter (fun i => i.layer = l) = [] := by
          rw [List.filter_eq_nil_iff]
          intro i hi
          rw [hmore i hi, decide_eq_true_eq]
          rintro rfl
          exact hnew hl
        rw [List.filter_append, hnone, List.append_nil]
      rw [sectionIn, hsame, sectionIn]
    rw [hpacked, hadd]
    refine ⟨?_, ?_, rfl, rfl⟩
    · rw [List.filterMap_append, hearlier, ← h.sections, List.filterMap_cons, List.filterMap_nil,
        sectionIn, hfilter]
      by_cases hnil : more = []
      · simp [hnil]
      · simp [hnil]
    · by_cases hnil : more = []
      · simp only [hnil, if_true, List.append_nil]
        exact h.items
      · simp only [hnil, if_false, List.flatMap_append, List.flatMap_singleton, h.items]
        rfl

/-- No layer comes twice in a recipe's order. -/
theorem order_nodup (recipe : ContextRecipe) : recipe.order.Nodup := nodup_eraseDups _

/-- After all layers the invariant holds of everything the order visits. -/
theorem compiled_compile : Compiled recipe (packed recipe (visits candidates recipe.order))
    recipe.order (recipe.order.foldl (addLayer recipe candidates) ⟨[], 0, []⟩) :=
  foldl_addLayer (order_nodup recipe)

/-- The memories of a package are the greedy packing of the considered candidates. -/
theorem items_compile : (compile recipe candidates).items =
    packed recipe (visits candidates recipe.order) := compiled_compile.items

/-- The reported tokens are the cost of the delivered items. -/
theorem usedTokens_compile : (compile recipe candidates).usedTokens =
    total cost (compile recipe candidates).items := by
  rw [items_compile]
  exact compiled_compile.used

/-- The delivered sections are the layers with delivered items, in the recipe's order. -/
theorem sections_compile : (compile recipe candidates).sections =
    recipe.order.filterMap (sectionIn (compile recipe candidates).items) := by
  rw [items_compile]
  exact compiled_compile.sections

variable (recipe candidates) in
/-- The package keeps to the recipe. -/
structure Delivers (p : ContextPackage) : Prop where
  /-- The tokens used are those of the included texts, and within the budget. -/
  used : p.usedTokens = (p.items.map fun i => estimateTokens i.text).sum
  budget : p.budgetTokens = recipe.budgetTokens ∧ p.usedTokens ≤ p.budgetTokens
  once : (p.items.map fun i => i.id).Nodup
  /-- The sections are those of some layers in their order, each with memories of its layer in
  candidate order, and no more of them than its limit. -/
  order : recipe.order.Nodup
  sections : ∃ layers : List MemoryLayer, layers.Sublist recipe.order ∧
    List.Forall₂ (fun layer s => s.name = layer.value ∧ s.items ≠ [] ∧
      (∀ i ∈ s.items, i.layer = layer) ∧ s.items.Sublist (candidates.map fun c => c.item) ∧
        (s.items.length : ℤ) ≤ recipe.limit layer) layers p.sections
  trace : p.traceIds = p.items.map fun i => i.id
  /-- What was left out found its layer full or the budget too low for it. -/
  greedy : ∀ before item after, visits candidates recipe.order = before ++ item :: after →
    item ∉ p.items → let kept := before.filter fun i => i ∈ p.items
      recipe.limit item.layer ≤ kept.countP (fun i => i.layer = item.layer) ∨
        recipe.budgetTokens < (kept.map fun i => estimateTokens i.text).sum +
          estimateTokens item.text

/-- A candidate is considered once. -/
theorem nodup_visits (hids : (candidates.map fun c => c.item.id).Nodup) {layers : List MemoryLayer}
    (hn : layers.Nodup) : ((visits candidates layers).map fun i => i.id).Nodup := by
  have hitems : ((candidates.map fun c => c.item).map fun i => i.id).Nodup := by
    rw [List.map_map]
    exact hids
  rw [visits, List.map_flatMap, List.nodup_flatMap]
  refine ⟨fun layer _ => ?_, ?_⟩
  · rw [byLayer]
    exact (List.filter_sublist.map _).nodup hitems
  · apply hn.imp
    intro a b hab
    apply List.disjoint_left.mpr
    intro id ha hb
    obtain ⟨i, hi, rfl⟩ := List.mem_map.mp ha
    obtain ⟨j, hj, hij⟩ := List.mem_map.mp hb
    obtain ⟨⟨c, hc, rfl⟩, hla⟩ := mem_byLayer.mp hi
    obtain ⟨⟨c', hc', rfl⟩, hlb⟩ := mem_byLayer.mp hj
    have hsame : c' = c := List.inj_on_of_nodup_map hids hc' hc hij
    rw [hsame] at hlb
    exact hab (hla.symm.trans hlb)

/-- No identifier is kept twice. -/
theorem nodup_packed (items : List MemoryItem) :
    ((packed recipe items).map fun i => i.id).Nodup := by
  apply pack_induction (P := fun kept => (kept.map fun i => i.id).Nodup) items List.nodup_nil
  intro kept x _ hkept hjoins
  rw [List.map_append, List.map_singleton, List.nodup_append]
  refine ⟨hkept, List.nodup_singleton _, ?_⟩
  rintro a ha b hb rfl
  rw [List.mem_singleton] at hb
  exact hjoins.1.1 (hb ▸ ha)

/-- No layer is kept beyond its limit. -/
theorem countP_packed_le (items : List MemoryItem) (layer : MemoryLayer) :
    (packed recipe items).countP (fun i => i.layer = layer) = 0 ∨
      ((packed recipe items).countP (fun i => i.layer = layer) : ℤ) ≤ recipe.limit layer := by
  apply pack_induction (P := fun kept => kept.countP (fun i => i.layer = layer) = 0 ∨
    (kept.countP (fun i => i.layer = layer) : ℤ) ≤ recipe.limit layer) items (.inl rfl)
  intro kept x _ hkept hjoins
  rw [List.countP_append, List.countP_singleton]
  by_cases hx : x.layer = layer
  · have hbelow := hjoins.1.2
    rw [hx] at hbelow
    right
    simp only [hx, decide_true, if_true]
    omega
  · simpa [hx] using hkept

/-- The sections of a layer hold its kept memories in candidate order. -/
theorem filter_visits_sublist {layers : List MemoryLayer} (hn : layers.Nodup)
    (layer : MemoryLayer) : ((visits candidates layers).filter fun i => i.layer = layer).Sublist
      (candidates.map fun c => c.item) := by
  have hother : ∀ l, l ≠ layer → (byLayer candidates l).filter (fun i => i.layer = layer) = [] := by
    intro l hne
    rw [List.filter_eq_nil_iff]
    intro i hi
    rw [(mem_byLayer.mp hi).2]
    simpa using hne
  have hsub : ∀ l, ((byLayer candidates l).filter fun i => i.layer = layer).Sublist
      (candidates.map fun c => c.item) := fun l => List.filter_sublist.trans List.filter_sublist
  induction layers with
  | nil => exact List.nil_sublist _
  | cons l ls ih =>
    obtain ⟨hl, hls⟩ := List.nodup_cons.mp hn
    rw [visits, List.flatMap_cons, List.filter_append]
    by_cases hsame : l = layer
    · have hrest : (ls.flatMap (byLayer candidates)).filter (fun i => i.layer = layer) = [] := by
        rw [List.filter_eq_nil_iff]
        intro i hi
        rw [decide_eq_true_eq]
        rintro rfl
        apply hl
        rw [hsame]
        exact layer_of_mem_visits hi
      rw [hrest, List.append_nil]
      exact hsub l
    · rw [hother l hsame, List.nil_append]
      exact ih hls

/-- A compiled package keeps to its recipe. -/
theorem compile_delivers (recipe : ContextRecipe) (candidates : List Candidate)
    (hids : (candidates.map fun c => c.item.id).Nodup) :
    Delivers recipe candidates (compile recipe candidates) := by
  have hitems : (compile recipe candidates).items =
      packed recipe (visits candidates recipe.order) := items_compile
  have hvisits : (visits candidates recipe.order).Nodup :=
    List.Nodup.of_map _ (nodup_visits hids (order_nodup recipe))
  refine ⟨usedTokens_compile, ⟨rfl, ?_⟩, ?_, order_nodup recipe, ?_, ?_, ?_⟩
  · rw [usedTokens_compile, hitems]
    exact total_pack_le _
  · rw [hitems]
    exact nodup_packed _
  · rw [sections_compile, hitems]
    set kept := packed recipe (visits candidates recipe.order) with hkept
    refine ⟨recipe.order.filter fun layer => kept.filter (fun i => i.layer = layer) ≠ [],
      List.filter_sublist, ?_⟩
    have hsection : ∀ layer, kept.filter (fun i => i.layer = layer) ≠ [] →
        (kept.filter fun i => i.layer = layer).Sublist (candidates.map fun c => c.item) ∧
          ((kept.filter fun i => i.layer = layer).length : ℤ) ≤ recipe.limit layer := by
      intro layer hne
      constructor
      · have hsub : kept.Sublist (visits candidates recipe.order) := pack_sublist _
        exact (hsub.filter _).trans (filter_visits_sublist (order_nodup recipe) layer)
      · rw [← List.countP_eq_length_filter]
        have hcount : kept.countP (fun i => i.layer = layer) = 0 ∨
            (kept.countP (fun i => i.layer = layer) : ℤ) ≤ recipe.limit layer :=
          countP_packed_le _ layer
        obtain hzero | hle := hcount
        · rw [List.countP_eq_length_filter, List.length_eq_zero_iff] at hzero
          exact absurd hzero hne
        · exact hle
    induction recipe.order with
    | nil => exact .nil
    | cons layer layers ih =>
      by_cases hnil : kept.filter (fun i => i.layer = layer) = []
      · rw [List.filter_cons_of_neg (by simpa using hnil), List.filterMap_cons, sectionIn,
          if_pos hnil]
        exact ih
      · rw [List.filter_cons_of_pos (by simpa using hnil), List.filterMap_cons, sectionIn,
          if_neg hnil]
        obtain ⟨hsub, hle⟩ := hsection layer hnil
        exact .cons ⟨rfl, hnil, fun i hi => by simpa using (List.mem_filter.mp hi).2, hsub, hle⟩ ih
  · change _ = List.map _ (List.flatMap _ _)
    rw [List.map_flatMap]
    rfl
  · intro before item after hsplit hout
    rw [hitems] at hout ⊢
    rw [packed, hsplit] at hout ⊢
    have hleft := not_joins_of_not_mem (hsplit ▸ hvisits) hout
    have hnew : item.id ∉ (before.filter fun i => i ∈ pack cost recipe.budgetTokens
        (MayJoin recipe) (before ++ item :: after)).map fun i => i.id := by
      intro hmem
      have hids := hsplit ▸ nodup_visits hids (order_nodup recipe)
      rw [List.map_append, List.map_cons, List.nodup_append] at hids
      have hbefore := (List.filter_sublist.map fun i : MemoryItem => i.id).subset hmem
      exact hids.2.2 _ hbefore _ (List.mem_cons_self ..) rfl
    rw [Joins, not_and_or, MayJoin, not_and_or, not_lt, not_le] at hleft
    obtain (hold | hfull) | hover := hleft
    · exact absurd hnew hold
    · exact .inl hfull
    · exact .inr hover

end ContextCompiler

/-- A text of as many characters. -/
def letters (n : ℕ) : String := String.ofList (List.replicate n 'x')

/-- The example's text has the given length. -/
theorem length_letters (n : ℕ) : (letters n).length = n := by
  rw [letters, String.length_ofList, List.length_replicate]

/-- The example's text is not blank. -/
theorem letters_not_blank (n : ℕ) : Text.isBlank (letters (n + 1)) = false := by
  have hletter : isSpace 'x' = false := by decide
  rw [letters, Text.isBlank, String.toList_ofList, List.all_replicate, hletter]
  rfl

/-- The fields of a memory of a layer with one letter more than so many. -/
def lettersFields (layer : MemoryLayer) (id n : ℕ) : MemoryFields where
  tenantId := .ofNat 1
  workspaceId := .ofNat 2
  layer := layer
  scope := .workspace
  kind := "fact"
  text := letters (n + 1)
  provenance := { sourceKind := "manual" }
  id := .ofNat id
  agentId := none
  threadId := none
  labels := []
  metadata := []
  status := .active
  importance := 1 / 2
  salience := 1 / 2
  confidence := 1 / 2
  observedAt := .ofMicros 1
  validFrom := none
  validTo := none
  createdAt := .ofMicros 1
  revision := 1
  supersedesId := none

/-- The fields of the example pass their validation. -/
theorem lettersFields_valid (layer : MemoryLayer) (id n : ℕ) :
    (lettersFields layer id n).postInit = .ok () := by
  have hhalf : (0 : ℚ) ≤ 1 / 2 ∧ (1 / 2 : ℚ) ≤ 1 := by decide +kernel
  rw [MemoryFields.postInit_eq_ok]
  refine ⟨letters_not_blank n, hhalf, hhalf, hhalf, ?_, ?_, ?_, ?_⟩
  · intro a b h
    cases h
  · intro h
    cases h
  · intro h
    cases h
  · intro h
    cases h

def lettersMemory (layer : MemoryLayer) (id n : ℕ) : MemoryItem :=
  ⟨lettersFields layer id n, lettersFields_valid layer id n⟩

/-- The example's memory costs one token for every four letters begun. -/
theorem cost_lettersMemory (layer : MemoryLayer) (id n : ℕ) :
    ContextCompiler.cost (lettersMemory layer id n) = n / 4 + 1 := by
  have htext : (lettersMemory layer id n).text = letters (n + 1) := rfl
  rw [ContextCompiler.cost, ContextCompiler.estimateTokens, htext, length_letters]
  omega

def longRecipe : ContextRecipe where
  operation := "recall"
  budgetTokens := 128
  layerOrder := [.semantic]
  budget_least := Nat.le_refl _

/-- A core memory of 100 tokens, and two semantic ones of 50 and 20. -/
def mixedCandidates : List Candidate :=
  [{ item := lettersMemory .semantic 4 199, source := "lexical" },
    { item := lettersMemory .core 3 399, source := "lexical" },
    { item := lettersMemory .semantic 5 79, source := "lexical" }]

open ContextCompiler in
/-- The memory that no longer fits is left out, and the one behind it is delivered. -/
theorem compile_delivers_mixed :
    Delivers longRecipe mixedCandidates (compile longRecipe mixedCandidates) ∧
      (compile longRecipe mixedCandidates).items =
        [lettersMemory .core 3 399, lettersMemory .semantic 5 79] := by
  constructor
  · exact compile_delivers longRecipe mixedCandidates (by decide +kernel)
  · have hvisits : visits mixedCandidates longRecipe.order = [lettersMemory .core 3 399,
        lettersMemory .semantic 4 199, lettersMemory .semantic 5 79] := rfl
    have hfirst : Packing.Joins cost 128 (MayJoin longRecipe) [] (lettersMemory .core 3 399) := by
      refine ⟨⟨List.not_mem_nil, by decide +kernel⟩, ?_⟩
      rw [cost_lettersMemory]
      decide
    have hover : ¬ Packing.Joins cost 128 (MayJoin longRecipe) [lettersMemory .core 3 399]
        (lettersMemory .semantic 4 199) := by
      rintro ⟨-, hfits⟩
      rw [Packing.total_singleton, cost_lettersMemory, cost_lettersMemory] at hfits
      omega
    have hlast : Packing.Joins cost 128 (MayJoin longRecipe) [lettersMemory .core 3 399]
        (lettersMemory .semantic 5 79) := by
      refine ⟨⟨by decide +kernel, by decide +kernel⟩, ?_⟩
      rw [Packing.total_singleton, cost_lettersMemory, cost_lettersMemory]
      decide
    rw [items_compile, hvisits]
    change Packing.packFrom cost 128 (MayJoin longRecipe) [] _ = _
    rw [Packing.packFrom_cons, Packing.step_of_joins hfirst, List.nil_append,
      Packing.packFrom_cons, Packing.step_of_not_joins hover, Packing.packFrom_cons,
      Packing.step_of_joins hlast]
    rfl

end MemoryPlane
