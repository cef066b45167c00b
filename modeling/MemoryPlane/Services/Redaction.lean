import MemoryPlane.Lib.Paging
import MemoryPlane.Lib.Spans
import MemoryPlane.Services.PrivacyDetectors

/-!
# What redaction hides

The guard redacts the findings that its selection keeps, each of which becomes its mark while the
rest of the text stays. A match that starts inside a kept one is dropped whole, so every match is
hidden exactly when the matches have a tiling.
-/

namespace MemoryPlane

namespace PrivacyGuard

/-- The mark of a finding. -/
def mark (f : PrivacyFinding) : List Char := s!"[REDACTED:{f.kind}]".toList

/-- The text from a position on, with the findings replaced by their marks. -/
def splice (text : List Char) (i : ℕ) : List PrivacyFinding → List Char
  | [] => text.drop i
  | f :: fs => slice text i f.start ++ (mark f ++ splice text f.stop fs)

/-- Findings within a text that follow each other. -/
structure Follow (text : List Char) (fs : List PrivacyFinding) : Prop where
  proper : ∀ f ∈ fs, f.start < f.stop
  within : ∀ f ∈ fs, f.stop ≤ text.length
  apart : fs.Pairwise fun f g => f.stop ≤ g.start

variable {text : List Char} {fs : List PrivacyFinding} {f : PrivacyFinding}

theorem Follow.tail (h : Follow text (f :: fs)) : Follow text fs :=
  ⟨fun g hg => h.proper g (List.mem_cons_of_mem _ hg),
    fun g hg => h.within g (List.mem_cons_of_mem _ hg), (List.pairwise_cons.mp h.apart).2⟩

/-- Findings that follow each other have different starts. -/
theorem Follow.eq_of_start (h : Follow text fs) {g : PrivacyFinding} (hf : f ∈ fs) (hg : g ∈ fs)
    (hstart : f.start = g.start) : f = g := by
  have hsymm : Std.Symm fun f g : PrivacyFinding => f.stop ≤ g.start ∨ g.stop ≤ f.start :=
    ⟨fun _ _ h => h.symm⟩
  have hapart : fs.Pairwise fun f g => f.stop ≤ g.start ∨ g.stop ≤ f.start := h.apart.imp .inl
  by_contra hne
  have hfg := hapart.forall hf hg hne
  have hfproper := h.proper f hf
  have hgproper := h.proper g hg
  omega

/-- Findings that follow each other are replaced from the last to the first. -/
theorem Follow.sortedByDesc_eq (h : Follow text fs) :
    sortedByDesc PrivacyFinding.start fs = fs.reverse := by
  have hperm : (sortedByDesc PrivacyFinding.start fs).Perm fs.reverse :=
    (sortedByDesc_perm _ fs).trans (List.reverse_perm fs).symm
  have hdesc : fs.reverse.Pairwise fun f g => g.start ≤ f.start := by
    rw [List.pairwise_reverse]
    apply h.apart.imp_of_mem
    intro f g hf _ hfg
    have hproper := h.proper f hf
    omega
  apply List.Perm.eq_of_pairwise _ (sortedByDesc_pairwise _ fs) hdesc hperm
  intro f g hf hg hfg hgf
  have hfs := (sortedByDesc_perm _ fs).mem_iff.mp hf
  exact h.eq_of_start hfs (List.mem_reverse.mp hg) (Nat.le_antisymm hgf hfg)

/-- Replacing from the last to the first leaves the rest of the text. -/
theorem Follow.foldr_eq (h : Follow text fs) {i : ℕ} (hi : ∀ f ∈ fs, i ≤ f.start)
    (hlen : i ≤ text.length) :
    fs.foldr (fun f sanitized => sanitized.take f.start ++ mark f ++ sanitized.drop f.stop) text =
      text.take i ++ splice text i fs := by
  induction fs generalizing i with
  | nil => exact (List.take_append_drop i text).symm
  | cons f fs ih =>
    have hproper := h.proper f List.mem_cons_self
    have hwithin := h.within f List.mem_cons_self
    have hstart := hi f List.mem_cons_self
    have hrest := ih h.tail (List.pairwise_cons.mp h.apart).1 hwithin
    have hlength : (text.take f.stop).length = f.stop := by
      rw [List.length_take]
      omega
    rw [List.foldr_cons, hrest, splice, List.take_append_of_le_length (by omega),
      List.take_take, Nat.min_eq_left (by omega), List.drop_left' hlength]
    have hsplit : text.take f.start = text.take i ++ slice text i f.start := by
      rw [slice, ← List.take_add, Nat.add_sub_cancel' hstart]
    rw [hsplit]
    simp only [List.append_assoc]

/-- Redaction replaces exactly the given findings by their marks. -/
theorem Follow.redact_eq {text : String} (h : Follow text.toList fs) :
    redact text fs = String.ofList (splice text.toList 0 fs) := by
  have hfold := h.foldr_eq (fun f _ => Nat.zero_le f.start) (Nat.zero_le _)
  rw [redact, h.sortedByDesc_eq, List.foldl_reverse]
  exact congrArg String.ofList hfold

/-- The selection of the guard keeps spans from left to right. -/
theorem selectDisjoint_eq (covered : Option ℕ) (fs : List PrivacyFinding) :
    selectDisjoint covered fs =
      Spans.select PrivacyFinding.start PrivacyFinding.stop (covered.getD 0) fs := by
  induction fs generalizing covered with
  | nil => rfl
  | cons f fs ih =>
    have hblocked : (covered.any fun stop => decide (f.start < stop)) = true ↔
        f.start < covered.getD 0 := by
      cases covered with
      | none => simp
      | some stop => simp
    rw [selectDisjoint, Spans.select]
    by_cases h : f.start < covered.getD 0
    · rw [if_pos h, if_pos (hblocked.mpr h), ih]
    · rw [if_neg h, if_neg fun hb => h (hblocked.mp hb), ih]
      rfl

/-- The guard goes through the matches in their order. -/
theorem ranked_sortedBy (fs : List PrivacyFinding) :
    Spans.Ranked PrivacyFinding.start PrivacyFinding.stop (sortedBy findingKey fs) := by
  apply (Paging.sortedBy_pairwise findingKey fs).imp
  intro f g hle
  rw [findingKey, findingKey, Prod.Lex.toLex_le_toLex] at hle
  omega

variable {u : Unicode}

/-- Every pattern of the guard matches at least one character. -/
theorem width_standardDetectors {d : Detector} (hd : d ∈ standardDetectors u) (text : List Char) :
    ∀ m ∈ d.finditer text, m.1 < m.2 ∧ m.2 ≤ text.length := by
  have hbounds : ∀ p : Pattern Char, 1 ≤ p.width → ∀ m ∈ p.finditer text,
      m.1 < m.2 ∧ m.2 ≤ text.length := by
    intro p hp m hm
    have h := Pattern.finditer_bounds hm
    omega
  simp only [standardDetectors, List.mem_cons, List.not_mem_nil, or_false] at hd
  obtain rfl | rfl | rfl | rfl | rfl | rfl | rfl | rfl := hd
  all_goals
    apply hbounds
    simp only [privateKey, openaiApiKey, awsAccessKey, bearerToken, passwordAssignment,
      apiKeyAssignment, ssn, paymentCard, cardRound, Pattern.atLeast, Pattern.times,
      Pattern.sequence, List.foldr_cons, List.foldr_nil, Pattern.width]
    omega

/-- The matches of the guard are proper spans of the text. -/
theorem proper_hits {text : List Char} : ∀ f ∈ sortedBy findingKey ((standardGuard u).hits text),
    f.start < f.stop ∧ f.stop ≤ text.length := by
  intro f hf
  obtain ⟨d, hd, hf⟩ := List.mem_flatMap.mp ((mem_sortedBy findingKey _).mp hf)
  obtain ⟨m, hm, rfl⟩ := List.mem_map.mp hf
  exact width_standardDetectors hd text m (List.mem_filter.mp hm).1

theorem scan_eq (text : String) : (standardGuard u).scan text =
    Spans.select PrivacyFinding.start PrivacyFinding.stop 0
      (sortedBy findingKey ((standardGuard u).hits text.toList)) := selectDisjoint_eq none _

/-- The findings of the guard follow each other in the text. -/
theorem follow_scan (u : Unicode) (text : String) :
    Follow text.toList ((standardGuard u).scan text) := by
  have hproper : ∀ f ∈ sortedBy findingKey ((standardGuard u).hits text.toList),
      f.start < f.stop := fun f hf => (proper_hits f hf).1
  have hsub : ∀ f ∈ (standardGuard u).scan text,
      f ∈ sortedBy findingKey ((standardGuard u).hits text.toList) := by
    intro f hf
    rw [scan_eq] at hf
    exact (Spans.select_sublist 0 _).subset hf
  refine ⟨fun f hf => hproper f (hsub f hf), fun f hf => (proper_hits f (hsub f hf)).2, ?_⟩
  rw [scan_eq]
  exact Spans.select_pairwise hproper

/-- The sanitized text is the original with exactly the selected findings replaced. -/
theorem apply_standardGuard (u : Unicode) (text : String) :
    ((standardGuard u).apply text).map PrivacyDecision.text =
      .ok (String.ofList (splice text.toList 0 ((standardGuard u).scan text))) := by
  have henabled : ¬ (standardGuard u).enabled = false := by simp [standardGuard]
  rw [apply, if_neg henabled]
  by_cases hnone : (standardGuard u).scan text = []
  · simp only [if_pos hnone]
    rw [hnone, splice, List.drop_zero, String.ofList_toList]
    rfl
  · simp only [if_neg hnone]
    exact congrArg Except.ok (follow_scan u text).redact_eq

/-- A position lies in one of the findings. -/
def Hidden (findings : List PrivacyFinding) (i : ℕ) : Prop :=
  Spans.Reached PrivacyFinding.start PrivacyFinding.stop findings i

/-- The guard replaces exactly the findings that it selects, and these hide every position of every
match exactly when the matches have a tiling. -/
theorem redaction_covers_iff (u : Unicode) (text : String) :
    ((standardGuard u).apply text).map PrivacyDecision.text =
        .ok (String.ofList (splice text.toList 0 ((standardGuard u).scan text))) ∧
      ((∀ f ∈ (standardGuard u).hits text.toList, ∀ i, f.start ≤ i → i < f.stop →
          Hidden ((standardGuard u).scan text) i) ↔
        ∃ tiles, Spans.Tiling PrivacyFinding.start PrivacyFinding.stop
          ((standardGuard u).hits text.toList) tiles) := by
  refine ⟨apply_standardGuard u text, ?_⟩
  have hproper : ∀ f ∈ sortedBy findingKey ((standardGuard u).hits text.toList),
      f.start < f.stop := fun f hf => (proper_hits f hf).1
  have hiff := Spans.reached_iff (ranked_sortedBy ((standardGuard u).hits text.toList)) hproper
  rw [← scan_eq] at hiff
  have hperm := sortedBy_perm findingKey ((standardGuard u).hits text.toList)
  constructor
  · intro hall
    obtain ⟨tiles, htiles⟩ := hiff.mp fun f hf i hi =>
      hall f (hperm.mem_iff.mp hf) i hi.1 hi.2
    exact ⟨tiles, htiles.perm hperm⟩
  · rintro ⟨tiles, htiles⟩ f hf i hstart hstop
    exact hiff.mpr ⟨tiles, htiles.perm hperm.symm⟩ f (hperm.mem_iff.mpr hf) i ⟨hstart, hstop⟩

/-- A password that a card number follows without a space in between. -/
def cardInPassword : String := "password=41111111 11111111"

/-- The card number starts in the password, so its second half stays in the text. -/
theorem cardInPassword_not_covered :
    (standardGuard asciiUnicode).scan cardInPassword = [⟨"password_assignment", 0, 17⟩] ∧
      ¬ ∀ f ∈ (standardGuard asciiUnicode).hits cardInPassword.toList,
        ∀ i, f.start ≤ i → i < f.stop →
          Hidden ((standardGuard asciiUnicode).scan cardInPassword) i := by
  have hscan : (standardGuard asciiUnicode).scan cardInPassword =
      [⟨"password_assignment", 0, 17⟩] := by
    decide +kernel
  have hcard : ⟨"payment_card", 9, 26⟩ ∈
      (standardGuard asciiUnicode).hits cardInPassword.toList := by
    decide +kernel
  refine ⟨hscan, fun hall => ?_⟩
  obtain ⟨f, hf, hstart, hstop⟩ := hall _ hcard 20 (by simp) (by simp)
  rw [hscan, List.mem_singleton] at hf
  simp [hf] at hstop

end PrivacyGuard

end MemoryPlane
