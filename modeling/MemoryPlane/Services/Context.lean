import Mathlib.Algebra.GroupWithZero.Nat
import Mathlib.Algebra.Order.Ring.Rat
import Mathlib.Data.Bool.Basic
import Mathlib.Data.Prod.Lex
import Mathlib.Order.Lattice
import MemoryPlane.Adapters.InMemory
import MemoryPlane.Contracts.Recall
import MemoryPlane.Lib.Packing

/-!
# Context compiler

Ranked candidates are packed into the sections of a context package, layer by layer, under a token
budget and limits for the layers. A session seed packs a few shared memories of a workspace in the
same way. The budget is charged for the texts of the memories alone.
-/

namespace MemoryPlane

/-- Per-operation memory selection and token allocation policy, with the check of its
constructor. -/
structure ContextRecipe where
  operation : String
  budgetTokens : ℕ
  layerOrder : List MemoryLayer
  perLayerLimit : List (MemoryLayer × ℤ) := []
  alwaysInclude : List MemoryLayer := [.core, .working]
  budget_least : 128 ≤ budgetTokens

/-- One ordered section of a compiled context package. -/
structure ContextSection where
  name : String
  items : List MemoryItem
  estimatedTokens : ℕ
  deriving DecidableEq

/-- Budgeted, traceable context delivered to one agent operation. -/
structure ContextPackage where
  operation : String
  sections : List ContextSection
  budgetTokens : ℕ
  usedTokens : ℕ
  traceIds : List UUID
  deriving DecidableEq

namespace ContextPackage

/-- The lines of the representation. -/
def chunks (p : ContextPackage) : List String :=
  p.sections.flatMap fun s => s!"## {s.name}" :: s.items.map fun i => s!"- {i.text}"

/-- Render a deterministic human/LLM-readable representation. -/
def renderMarkdown (p : ContextPackage) : String := "\n".intercalate p.chunks

/-- The memories of a package. -/
def items (p : ContextPackage) : List MemoryItem := p.sections.flatMap fun s => s.items

end ContextPackage

namespace ContextRecipe

variable (recipe : ContextRecipe)

/-- The layers that are always included and then the ordered ones, each once. -/
def order : List MemoryLayer := (recipe.alwaysInclude ++ recipe.layerOrder).eraseDups

/-- The most memories of a layer. -/
def limit (layer : MemoryLayer) : ℤ := (recipe.perLayerLimit.lookup layer).getD 100

end ContextRecipe

namespace ContextCompiler

/-- Estimate tokens using a portable characters/4 heuristic. -/
def estimateTokens (text : String) : ℕ := max 1 ((text.length + 3) / 4)

/-- What a memory is charged. -/
def cost (item : MemoryItem) : ℕ := estimateTokens item.text

/-- The candidates of one layer, in rank order. -/
def byLayer (candidates : List Candidate) (layer : MemoryLayer) : List MemoryItem :=
  (candidates.map fun c => c.item).filter fun i => i.layer = layer

/-- The variables of the inner loop. -/
structure Filling where
  accepted : List MemoryItem
  used : ℕ
  selectedIds : List UUID

/-- The variables of the outer loop. -/
structure Compiling where
  sections : List ContextSection
  used : ℕ
  selectedIds : List UUID

variable (recipe : ContextRecipe)

/-- One round of the inner loop. -/
def consider (layer : MemoryLayer) (f : Filling) (item : MemoryItem) : Filling :=
  if item.id ∈ f.selectedIds ∨ recipe.limit layer ≤ f.accepted.length then f
  else if recipe.budgetTokens < f.used + cost item then f
  else ⟨f.accepted ++ [item], f.used + cost item, f.selectedIds ++ [item.id]⟩

/-- The section of a layer. -/
def sectionOf (layer : MemoryLayer) (accepted : List MemoryItem) : ContextSection where
  name := layer.value
  items := accepted
  estimatedTokens := (accepted.map cost).sum

/-- One round of the outer loop. -/
def addLayer (candidates : List Candidate) (c : Compiling) (layer : MemoryLayer) : Compiling :=
  let f := (byLayer candidates layer).foldl (consider recipe layer) ⟨[], c.used, c.selectedIds⟩
  { sections :=
      if f.accepted = [] then c.sections else c.sections ++ [sectionOf layer f.accepted]
    used := f.used
    selectedIds := f.selectedIds }

/-- Compile ranked candidates into ordered sections with trace IDs. -/
def compile (candidates : List Candidate) : ContextPackage :=
  let c := recipe.order.foldl (addLayer recipe candidates) ⟨[], 0, []⟩
  { operation := recipe.operation
    sections := c.sections
    budgetTokens := recipe.budgetTokens
    usedTokens := c.used
    traceIds := c.sections.flatMap fun s => s.items.map fun i => i.id }

end ContextCompiler

/-- A bounded orientation block. -/
structure SessionSeed where
  budgetTokens : ℕ
  usedTokens : ℕ
  traceIds : List UUID
  markdown : String
  deriving DecidableEq

namespace SessionSeedService

open ContextCompiler

def layers : List MemoryLayer := [.core, .working, .procedural]

def visibleScopes : List MemoryScope := [.workspace, .team, .organization]

/-- Pinned memories first, then the important and the new ones. -/
def seedKey (item : MemoryItem) : Bool ×ₗ ℚ ×ₗ DateTime :=
  toLex (item.status = .pinned, toLex (item.importance, item.createdAt))

/-- The shared heads of a workspace in the order of the key, largest first. -/
def candidates (l : Ledger) (tenantId workspaceId : UUID) : List MemoryItem :=
  sortedByDesc seedKey <| (l.listForWorkspace tenantId workspaceId layers).filter fun i =>
    i.scope ∈ visibleScopes ∧ (i.status = .active ∨ i.status = .pinned) ∧
      l.isRecallableHead tenantId i.id = true

/-- One round of the loop, with the selected memories and the tokens used. -/
def select (budget : ℕ) (s : List MemoryItem × ℕ) (item : MemoryItem) : List MemoryItem × ℕ :=
  if budget < s.2 + cost item then s else (s.1 ++ [item], s.2 + cost item)

/-- Return an intentionally small shared-memory orientation package. -/
def build (l : Ledger) (tenantId workspaceId : UUID) (budgetTokens : ℤ := 512) : SessionSeed :=
  let budget := (max 128 (min budgetTokens 4096)).toNat
  let s := ((candidates l tenantId workspaceId).take 64).foldl (select budget) ([], 0)
  { budgetTokens := budget
    usedTokens := s.2
    traceIds := s.1.map fun i => i.id
    markdown := "\n".intercalate (s.1.map fun i => s!"- {i.text}") }

end SessionSeedService

end MemoryPlane
