import MemoryPlane.Domain.Models

/-!
# Identities

The agents and threads that durable memory refers to, each pinned to one tenant and workspace.
-/

namespace MemoryPlane

/-- One workspace pinned to its tenant. -/
structure WorkspaceIdentity where
  id : UUID
  tenantId : UUID
  name : String
  deriving DecidableEq

/-- One agent pinned to one tenant and workspace. -/
structure AgentIdentity where
  id : UUID
  tenantId : UUID
  workspaceId : UUID
  name : String
  role : String
  config : JsonObject
  deriving DecidableEq

/-- One conversation pinned to one tenant and workspace, with an owner or none. -/
structure ThreadIdentity where
  id : UUID
  tenantId : UUID
  workspaceId : UUID
  ownerAgentId : Option UUID
  status : String
  deriving DecidableEq

/-- The thread that a call asks for. -/
def AgentIdentity.thread (agent : AgentIdentity) (threadId : UUID) (status : String) :
    ThreadIdentity :=
  ⟨threadId, agent.tenantId, agent.workspaceId, some agent.id, status⟩

/-- A stored agent has the scope of the given one. -/
def AgentIdentity.SharesScope (agent stored : AgentIdentity) : Prop :=
  stored.tenantId = agent.tenantId ∧ stored.workspaceId = agent.workspaceId

/-- A stored thread has the scope of the given agent. -/
def AgentIdentity.Holds (agent : AgentIdentity) (stored : ThreadIdentity) : Prop :=
  stored.tenantId = agent.tenantId ∧ stored.workspaceId = agent.workspaceId

instance (agent stored : AgentIdentity) : Decidable (agent.SharesScope stored) := by
  unfold AgentIdentity.SharesScope
  infer_instance

instance (agent : AgentIdentity) (stored : ThreadIdentity) : Decidable (agent.Holds stored) := by
  unfold AgentIdentity.Holds
  infer_instance

end MemoryPlane
