import Mathlib.Data.List.Dedup
import Mathlib.Data.String.Basic
import MemoryPlane.Domain.Models
import MemoryPlane.Lib.Sequences

/-!
# Protected search tokens

Keyed digests of the terms of a text, and a marker digest for each key that every indexed document
carries. The keyed hash is a parameter.
-/

namespace MemoryPlane

/-- An active key of the protected index, as the settings admit it. -/
structure ProtectedKey where
  version : ℕ
  key : String
  version_range : 0 < version ∧ version ≤ 32767
  key_ne : key ≠ ""
  deriving DecidableEq

section Tokens

variable {δ : Type} [LinearOrder δ] (u : Unicode) (hmac : String → List Char → δ)

/-- The casefolded words of a text. -/
def searchTerms (text : String) : List (List Char) :=
  (Text.runs u.isWord [] text.toList).map fun word => word.flatMap u.casefold

/-- `protected_tokens`: the digests of the words of a text, each once and in order. -/
def protectedTokens (text key : String) : List δ :=
  sortedBy (fun d => d) ((searchTerms u text).map (hmac key)).dedup

/-- `protected_document_marker`. -/
def protectedDocumentMarker (key : String) : δ :=
  hmac key "obelisk:protected-search:document-marker:v1".toList

/-- `protected_index_digests`. -/
def protectedIndexDigests (text key : String) : List δ :=
  sortedBy (fun d => d) (protectedTokens u hmac text key ++ [protectedDocumentMarker hmac key])

variable {u hmac}

/-- The digests of a document are those of its words and the marker. -/
theorem mem_protectedIndexDigests {text key : String} {d : δ} :
    d ∈ protectedIndexDigests u hmac text key ↔
      d ∈ protectedTokens u hmac text key ∨ d = protectedDocumentMarker hmac key := by
  rw [protectedIndexDigests, mem_sortedBy, List.mem_append, List.mem_singleton]

end Tokens

end MemoryPlane
