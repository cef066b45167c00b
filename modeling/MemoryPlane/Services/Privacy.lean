import Mathlib.Data.Prod.Lex
import Mathlib.Data.String.Basic
import MemoryPlane.Lib.Sequences
import MemoryPlane.Domain.Models

/-!
# Privacy guard

Detectors mark spans of a text, overlapping findings are dropped, and the configured action
rejects, withholds or redacts what is left. A detector is given by the spans its pattern
matches, in the order of the matches; every result holds for any list of detectors.
-/

namespace MemoryPlane

/-- Configured action when sensitive data is detected. -/
inductive PrivacyAction where
  | allow | redact | reject | metadataOnly
  deriving DecidableEq

def PrivacyAction.value : PrivacyAction → String
  | .allow => "allow"
  | .redact => "redact"
  | .reject => "reject"
  | .metadataOnly => "metadata_only"

/-- One detector hit, as positions in the text. -/
structure PrivacyFinding where
  kind : String
  start : ℕ
  stop : ℕ
  deriving DecidableEq

/-- Sanitized text and audit metadata. -/
structure PrivacyDecision where
  text : String
  findings : List PrivacyFinding
  action : PrivacyAction
  metadata : JsonObject

/-- A named pattern with an optional check of the matched text. -/
structure Detector where
  kind : String
  /-- The spans of the matches, from left to right. -/
  finditer : List Char → List (ℕ × ℕ)
  /-- The matched text must pass this check. -/
  validator : List Char → Bool := fun _ => true

/-- A guard with its policy and its detectors. -/
structure PrivacyGuard where
  enabled : Bool := true
  action : PrivacyAction := .redact
  detectors : List Detector := []

namespace PrivacyGuard

/-- `text[start:stop]`. -/
def slice (text : List Char) (start stop : ℕ) : List Char := (text.drop start).take (stop - start)

/-- All hits of all detectors, before overlaps are dropped. -/
def hits (g : PrivacyGuard) (text : List Char) : List PrivacyFinding :=
  g.detectors.flatMap fun d =>
    ((d.finditer text).filter fun m => d.validator (slice text m.1 m.2)).map fun m =>
      ⟨d.kind, m.1, m.2⟩

/-- Keep each finding that starts at or after the end of the last one kept; no end precedes
the first. -/
def selectDisjoint (coveredUntil : Option ℕ) : List PrivacyFinding → List PrivacyFinding
  | [] => []
  | f :: rest =>
    if coveredUntil.any fun stop => f.start < stop then selectDisjoint coveredUntil rest
    else f :: selectDisjoint (some f.stop) rest

/-- Earlier starts first, longer spans first among equal starts. -/
def findingKey (f : PrivacyFinding) : ℕ ×ₗ ℤ := toLex (f.start, -((f.stop : ℤ) - f.start))

/-- Sorted non-overlapping findings. -/
def scan (g : PrivacyGuard) (text : String) : List PrivacyFinding :=
  selectDisjoint none (sortedBy findingKey (g.hits text.toList))

/-- Replace the findings by their marks, from the last to the first. -/
def redact (text : String) (findings : List PrivacyFinding) : String :=
  String.ofList <| (sortedByDesc PrivacyFinding.start findings).foldl
    (fun sanitized f =>
      sanitized.take f.start ++ s!"[REDACTED:{f.kind}]".toList ++ sanitized.drop f.stop)
    text.toList

/-- How often each kind occurs, kinds in order of first occurrence. -/
def counts (findings : List PrivacyFinding) : List (String × Json) :=
  (groupBy PrivacyFinding.kind findings).map fun g => (g.1, .int g.2.length)

/-- The audit block that goes with sanitized text. -/
def metadata (findings : List PrivacyFinding) (action : PrivacyAction) : JsonObject :=
  [("privacy", .obj
    [("action", .str action.value),
      ("finding_count", .int findings.length),
      ("finding_kinds", .arr ((sortedBy id ((counts findings).map Prod.fst)).map .str)),
      ("counts", .obj (counts findings))])]

/-- Apply the policy to a text before it is stored. -/
def apply (g : PrivacyGuard) (text : String) : Except Exn PrivacyDecision :=
  if g.enabled = false then .ok ⟨text, [], .allow, []⟩
  else
    let findings := g.scan text
    if findings = [] then .ok ⟨text, [], .allow, []⟩
    else
      match g.action with
      | .reject =>
        let kinds := ", ".intercalate (sortedBy id (findings.map PrivacyFinding.kind).eraseDups)
        .error (.valueError s!"privacy guard rejected sensitive content: {kinds}")
      | .metadataOnly =>
        .ok ⟨"[content withheld by privacy guard]", findings, g.action,
          metadata findings g.action⟩
      | .redact => .ok ⟨redact text findings, findings, g.action, metadata findings g.action⟩
      | .allow => .ok ⟨text, findings, g.action, metadata findings g.action⟩

/-- A disabled guard passes every text unchanged. -/
theorem apply_of_disabled {g : PrivacyGuard} (h : g.enabled = false) (text : String) :
    g.apply text = .ok ⟨text, [], .allow, []⟩ := if_pos h

/-- A guard adds one member to the metadata at most. -/
theorem name_of_apply {g : PrivacyGuard} {text : String} {d : PrivacyDecision}
    (h : g.apply text = .ok d) : ∀ m ∈ d.metadata, m.1 = "privacy" := by
  unfold apply at h
  split at h
  · cases h
    simp
  · simp only at h
    split at h
    · cases h
      simp
    · split at h <;> cases h <;> simp [metadata]

/-- A guard that stops a text raises a value error. -/
theorem apply_error {g : PrivacyGuard} {text : String} {e : Exn} (h : g.apply text = .error e) :
    ∃ message, e = .valueError message := by
  unfold apply at h
  split at h
  · cases h
  · simp only at h
    split at h
    · cases h
    · split at h
      · cases h
        exact ⟨_, rfl⟩
      · cases h
      · cases h
      · cases h

/-- Only a rejecting guard stops a text. -/
theorem exists_apply {g : PrivacyGuard} (h : g.action ≠ .reject) (text : String) :
    ∃ d, g.apply text = .ok d := by
  unfold apply
  by_cases he : g.enabled = false
  · exact ⟨_, if_pos he⟩
  · rw [if_neg he]
    by_cases hf : g.scan text = []
    · exact ⟨_, if_pos hf⟩
    · simp only [if_neg hf]
      cases ha : g.action with
      | reject => exact absurd ha h
      | allow | redact | metadataOnly => exact ⟨_, rfl⟩

/-- A redacted text shows the mark of its last replacement. -/
theorem redact_not_blank (text : String) {findings : List PrivacyFinding} (h : findings ≠ []) :
    Text.isBlank (redact text findings) = false := by
  have hne : sortedByDesc PrivacyFinding.start findings ≠ [] := by
    intro hnil
    have hperm := sortedByDesc_perm PrivacyFinding.start findings
    rw [hnil] at hperm
    exact h hperm.symm.eq_nil
  obtain ⟨before, f, hsplit⟩ : ∃ before f,
      sortedByDesc PrivacyFinding.start findings = before ++ [f] :=
    ⟨_, _, (List.dropLast_append_getLast hne).symm⟩
  rw [Bool.eq_false_iff]
  intro hblank
  rw [redact, Text.isBlank, String.toList_ofList, hsplit, List.foldl_append, List.all_eq_true]
    at hblank
  have hopen : '[' ∈ (toString "[REDACTED:").toList := by decide
  have hmark := hblank '[' (by simp [hopen])
  exact absurd hmark (by decide)

/-- The guard leaves no text blank. -/
theorem apply_not_blank {g : PrivacyGuard} {text : String} {d : PrivacyDecision}
    (h : g.apply text = .ok d) (ht : Text.isBlank text = false) : Text.isBlank d.text = false := by
  unfold apply at h
  split at h
  · cases h
    exact ht
  · simp only at h
    split at h
    · cases h
      exact ht
    · rename_i hfindings
      split at h
      · cases h
      · cases h
        exact (by decide : Text.isBlank "[content withheld by privacy guard]" = false)
      · cases h
        exact redact_not_blank text hfindings
      · cases h
        exact ht

/-- A text without findings passes unchanged. -/
theorem apply_of_no_findings {g : PrivacyGuard} {text : String} (h : g.scan text = []) :
    (g.apply text).map PrivacyDecision.text = .ok text := by
  unfold apply
  split
  · rfl
  · simp only [h, if_true]
    rfl

end PrivacyGuard

end MemoryPlane
