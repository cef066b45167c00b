import MemoryPlane.Adapters.Checkpoints
import MemoryPlane.Lib.Proc

/-!
# Checkpoint service

Working-memory checkpoints with compare-and-swap. A new revision number comes from the head that
the first call read; the swap compares the head that the second call finds.
-/

namespace MemoryPlane

/-- The fields that the service gives a new checkpoint besides its revision. -/
structure CheckpointDraft where
  tenantId : UUID
  workspaceId : UUID
  threadId : UUID
  state : JsonObject
  id : UUID
  createdAt : DateTime

/-- The draft as a checkpoint that follows a revision. -/
def CheckpointDraft.after (d : CheckpointDraft) (revision : ℕ) : Checkpoint where
  tenantId := d.tenantId
  workspaceId := d.workspaceId
  threadId := d.threadId
  revision := revision + 1
  state := d.state
  id := d.id
  createdAt := d.createdAt
  revision_pos := Nat.le_add_left ..

/-- What the operations of the service return. -/
inductive CheckpointReply where
  | stored (checkpoint : Checkpoint)
  | removed (count : ℕ)
  deriving DecidableEq

namespace CheckpointService

/-- `save_if_head` as a call. -/
def swap (checkpoint : Checkpoint) (expectedRevision : ℤ) :
    Proc InMemoryCheckpointStore StaleRevisionError CheckpointReply :=
  .invoke fun s =>
    let r := s.saveIfHead checkpoint expectedRevision
    (r.1.map .stored, r.2)

/-- Create or append a new checkpoint revision. -/
def save (d : CheckpointDraft) :
    Proc InMemoryCheckpointStore StaleRevisionError CheckpointReply := do
  match ← Proc.read fun s => s.getHead d.tenantId d.threadId with
  | some head => swap (d.after head.revision) head.revision
  | none => swap (d.after 0) 0

/-- Create the next revision only when the expected revision is the head. -/
def update (d : CheckpointDraft) (expectedRevision : ℤ) :
    Proc InMemoryCheckpointStore StaleRevisionError CheckpointReply := do
  match ← Proc.read fun s => s.getHead d.tenantId d.threadId with
  | none => .raise ⟨d.threadId, expectedRevision, none⟩
  | some head => swap (d.after head.revision) expectedRevision

/-- Delete old revisions keeping the most recent ones. -/
def compact (tenantId threadId : UUID) (keepLast : ℕ) :
    Proc InMemoryCheckpointStore StaleRevisionError CheckpointReply :=
  .effect fun s =>
    let r := s.compact tenantId threadId keepLast
    (.removed r.1, r.2)

end CheckpointService

end MemoryPlane
