import MemoryPlane.Python.Float
import MemoryPlane.Services.Conflicts
import MemoryPlane.Services.MemoryStores

/-!
# Operations and runs

The write operations of the services on one in-memory store, and the stores that runs of them
reach from the empty one. Each operation draws its identifiers and times from outside; the
drawn identifiers are distinct and new. Submission stores any open proposal, which covers
every proposal that the submitting service builds.
-/

namespace MemoryPlane

/-- The configuration of the services. -/
structure Deployment where
  runtime : Runtime
  /-- The guard of the retention service. -/
  privacy : PrivacyGuard

/-- One call of a service, with its arguments. -/
inductive Operation where
  | memory (op : MemoryOperation)
  | decide (tenantId workspaceId caseId : UUID) (status : ConflictReviewStatus)
      (winnerValue : Option String) (reason : String) (audit : Option AuditEvent)

namespace Operation

abbrev retain (command : RetainCommand) (audit : Option AuditEvent) : Operation :=
  .memory (.retain command audit)

abbrev supersede (command : SupersedeMemoryCommand) (audit : Option AuditEvent) : Operation :=
  .memory (.supersede command audit)

abbrev submit (proposal : MemoryProposal) (idempotencyKey : Option String)
    (audit : Option AuditEvent) : Operation := .memory (.submit proposal idempotencyKey audit)

abbrev accept (command : ReviewMemoryProposalCommand) (audit : Option AuditEvent) : Operation :=
  .memory (.accept command audit)

abbrev reject (command : ReviewMemoryProposalCommand) (audit : Option AuditEvent) : Operation :=
  .memory (.reject command audit)

/-- The calls that an operation makes. -/
def program (env : Deployment) (d : Draws) : Operation → Proc InMemoryMemoryStore Exn Reply
  | .memory op => op.program inMemoryStores env.privacy d
  | .decide tenantId workspaceId caseId status winnerValue reason audit => do
    return .decided (← ConflictService.decide env.runtime tenantId workspaceId caseId status
      winnerValue reason audit d)

/-- The operation alone on a store. -/
def run (env : Deployment) (op : Operation) (d : Draws) (s : InMemoryMemoryStore) :
    Except Exn Reply × InMemoryMemoryStore := (op.program env d).run s

/-- A bound on the identifiers that an operation draws. -/
def drawCount (s : InMemoryMemoryStore) : Operation → ℕ
  | .memory _ => 2
  | .decide .. => 2 * s.items.rows.length

end Operation

/-- Identifiers in use. -/
def InMemoryMemoryStore.usedIds (s : InMemoryMemoryStore) : List UUID :=
  s.items.rows.map (fun i => i.id) ++ s.events.map (fun e => e.id) ++
    s.proposals.rows.map fun p => p.id

/-- The stores that runs of the operations reach from the empty store. -/
inductive Reachable (env : Deployment) : InMemoryMemoryStore → Prop
  | empty : Reachable env .empty
  | step {s : InMemoryMemoryStore} (op : Operation) (d : Draws) (before : Reachable env s)
      (fresh : d.Fresh (op.drawCount s) s.usedIds) : Reachable env (op.run env d s).2

instance (d : Draws) (n : ℕ) (used : List UUID) : Decidable (d.Fresh n used) := by
  unfold Draws.Fresh
  infer_instance

/-- A deployment for small runs on ASCII text: the guard is switched off, and the one
name-based identifier that a run needs is given. -/
def plainDeployment (caseId : UUID) : Deployment where
  runtime :=
    { unicode := asciiUnicode
      uuid5 := fun _ _ => caseId
      round := binary64
      sum := fun xs => xs.foldl (fun acc x => binary64 (acc + x)) 0
      sqrt := fun q => binary64 (Nat.sqrt (q * 2 ^ 60).floor.toNat / 2 ^ 30)
      pow := fun b e => binary64 (if 0 ≤ e then b ^ e.floor.toNat else 0) }
  privacy := { enabled := false }

/-- Consecutive identifiers and times. -/
def drawsFrom (base : ℕ) : Draws :=
  ⟨fun i => UUID.ofNat (base + i), fun i => DateTime.ofMicros (base + i)⟩

/-- A plain retention into tenant 1, workspace 2. -/
def plainRetain (text : String) (scope : MemoryScope) (agentId : Option UUID) :
    RetainCommand where
  tenantId := UUID.ofNat 1
  workspaceId := UUID.ofNat 2
  layer := .semantic
  scope := scope
  kind := "fact"
  text := text
  provenance := { sourceKind := "manual" }
  agentId := agentId

/-- The fields of a memory with a text, of tenant 1 and workspace 2. -/
def notedFields (text : String) : MemoryFields where
  tenantId := UUID.ofNat 1
  workspaceId := UUID.ofNat 2
  layer := .semantic
  scope := .workspace
  kind := "fact"
  text := text
  provenance := { sourceKind := "manual" }
  id := UUID.ofNat 10
  agentId := none
  threadId := none
  labels := []
  metadata := []
  status := .active
  importance := 1 / 2
  salience := 1 / 2
  confidence := 1 / 2
  observedAt := .ofMicros 1704067200000000
  validFrom := none
  validTo := none
  createdAt := .ofMicros 1704067200000000
  revision := 1
  supersedesId := none

end MemoryPlane
