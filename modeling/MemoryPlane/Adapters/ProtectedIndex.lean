import MemoryPlane.Lib.Table
import MemoryPlane.Services.ProtectedSearch

/-!
# The protected index

The canonical rows with their deletion marks and the table of their search tokens, which is written
in the transaction of each row.
-/

namespace MemoryPlane

/-- A digest of an item under one version of the key. -/
structure SearchToken (δ : Type) where
  tenantId : UUID
  workspaceId : UUID
  memoryItemId : UUID
  keyVersion : ℕ
  digest : δ
  deriving DecidableEq

/-- A row of canonical memory with its deletion mark. -/
structure MemoryRow where
  item : MemoryItem
  deleted : Bool
  deriving DecidableEq

/-- The tables of the protected index. -/
structure ProtectedTables (δ : Type) where
  rows : Table MemoryRow fun r => r.item.id
  tokens : List (SearchToken δ)

section Tokens

variable {δ : Type} [LinearOrder δ] (u : Unicode) (hmac : String → List Char → δ)

/-- The rows of tokens that index an item. -/
def indexTokens (k : ProtectedKey) (item : MemoryItem) : List (SearchToken δ) :=
  (protectedIndexDigests u hmac item.text k.key).map fun digest =>
    ⟨item.tenantId, item.workspaceId, item.id, k.version, digest⟩

/-- `insert ... on conflict do nothing`. -/
def insertTokens (tokens news : List (SearchToken δ)) : List (SearchToken δ) :=
  news.foldl (fun acc t => if t ∈ acc then acc else acc ++ [t]) tokens

/-- The marker of an item under a key. -/
def markerToken (k : ProtectedKey) (item : MemoryItem) : SearchToken δ :=
  ⟨item.tenantId, item.workspaceId, item.id, k.version, protectedDocumentMarker hmac k.key⟩

variable {u hmac}

theorem mem_insertTokens {tokens news : List (SearchToken δ)} {t : SearchToken δ} :
    t ∈ insertTokens tokens news ↔ t ∈ tokens ∨ t ∈ news := by
  induction news generalizing tokens with
  | nil => simp [insertTokens]
  | cons a news ih =>
    rw [insertTokens, List.foldl_cons, ← insertTokens, ih]
    by_cases ha : a ∈ tokens
    · rw [if_pos ha, List.mem_cons]
      constructor
      · exact Or.imp id .inr
      · rintro (h | rfl | h)
        · exact .inl h
        · exact .inl ha
        · exact .inr h
    · rw [if_neg ha, List.mem_append, List.mem_singleton, List.mem_cons, or_assoc]

/-- Indexing an item writes its marker. -/
theorem markerToken_mem_indexTokens (k : ProtectedKey) (item : MemoryItem) :
    markerToken hmac k item ∈ indexTokens u hmac k item :=
  List.mem_map.mpr ⟨_, mem_protectedIndexDigests.mpr (.inr rfl), rfl⟩

/-- A token that indexing an item writes names the item. -/
theorem memoryItemId_of_mem {k : ProtectedKey} {item : MemoryItem} {t : SearchToken δ}
    (h : t ∈ indexTokens u hmac k item) : t.memoryItemId = item.id := by
  obtain ⟨d, -, rfl⟩ := List.mem_map.mp h
  rfl

end Tokens

end MemoryPlane
