import MemoryPlane.Domain.Identity
import MemoryPlane.Lib.Table

/-!
# Provisioning of agents and threads

A call writes an agent and, when asked, a thread that it owns, unless one of the two ids belongs to
another scope. The database does both in one transaction; in memory the agent is written before
the thread is looked at.
-/

namespace MemoryPlane

/-- The agents and threads of a store. -/
structure IdentityStore where
  agents : Table AgentIdentity fun a => a.id
  threads : Table ThreadIdentity fun t => t.id
  deriving DecidableEq

namespace IdentityStore

/-- Write the agent unless its id belongs to another scope. -/
def putAgent (s : IdentityStore) (agent : AgentIdentity) : Except Exn IdentityStore :=
  if (s.agents.find agent.id).any fun stored => ¬ agent.SharesScope stored then
    .error (.valueError "agent_id already belongs to another scope")
  else .ok { s with agents := s.agents.put agent }

/-- Write the thread of the agent unless its id belongs to another scope. -/
def putThread (s : IdentityStore) (agent : AgentIdentity) (threadId : UUID) (status : String) :
    Except Exn IdentityStore :=
  if (s.threads.find threadId).any fun stored => ¬ agent.Holds stored then
    .error (.valueError "thread_id already belongs to another scope")
  else .ok { s with threads := s.threads.put (agent.thread threadId status) }

/-- `InMemoryMemoryStore.provision_agent_thread`. -/
def provisionAgentThread (s : IdentityStore) (agent : AgentIdentity) (threadId : Option UUID)
    (threadStatus : String) : Except Exn (AgentIdentity × Option ThreadIdentity) × IdentityStore :=
  match s.putAgent agent with
  | .error e => (.error e, s)
  | .ok s' =>
    match threadId with
    | none => (.ok (agent, none), s')
    | some threadId =>
      match s'.putThread agent threadId threadStatus with
      | .error e => (.error e, s')
      | .ok s'' => (.ok (agent, some (agent.thread threadId threadStatus)), s'')

/-- The agent is new or belongs to the scope of the call, its thread belongs to another scope, and
the agent that the call brings is not the stored one. -/
def HalfDone (s : IdentityStore) (agent : AgentIdentity) (threadId : Option UUID) : Prop :=
  (∀ stored, s.agents.find agent.id = some stored → agent.SharesScope stored) ∧
    (∃ id stored, threadId = some id ∧ s.threads.find id = some stored ∧ ¬ agent.Holds stored) ∧
      s.agents.find agent.id ≠ some agent

variable {s s' : IdentityStore} {agent : AgentIdentity} {threadId : Option UUID} {id : UUID}
  {status : String}

theorem putAgent_eq_ok : s.putAgent agent = .ok s' ↔
    (∀ stored, s.agents.find agent.id = some stored → agent.SharesScope stored) ∧
      s' = { s with agents := s.agents.put agent } := by
  rw [putAgent]
  cases hf : s.agents.find agent.id with
  | none => simp [eq_comm]
  | some stored => by_cases h : agent.SharesScope stored <;> simp [h, eq_comm]

theorem putThread_eq_ok : s.putThread agent id status = .ok s' ↔
    (∀ stored, s.threads.find id = some stored → agent.Holds stored) ∧
      s' = { s with threads := s.threads.put (agent.thread id status) } := by
  rw [putThread]
  cases hf : s.threads.find id with
  | none => simp [eq_comm]
  | some stored => by_cases h : agent.Holds stored <;> simp [h, eq_comm]

/-- Writing the agent changes the store unless it is stored as it is. -/
theorem putAgent_eq_self_iff :
    { s with agents := s.agents.put agent } = s ↔ s.agents.find agent.id = some agent := by
  constructor
  · intro h
    have hagents : s.agents.put agent = s.agents := congrArg agents h
    rw [← hagents]
    exact Table.find_put_self ..
  · intro h
    rw [Table.put_of_mem (Table.find_eq_some.mp h).1]

/-- A call returns exactly when both ids are free or in its scope. -/
theorem provisionAgentThread_eq_ok {r : AgentIdentity × Option ThreadIdentity}
    (h : (s.provisionAgentThread agent threadId status).1 = .ok r) :
    r = (agent, threadId.map fun id => agent.thread id status) ∧
      (s.provisionAgentThread agent threadId status).2.agents.find agent.id = some agent ∧
        ∀ id, threadId = some id →
          (s.provisionAgentThread agent threadId status).2.threads.find id =
            some (agent.thread id status) := by
  unfold provisionAgentThread at h ⊢
  cases ha : s.putAgent agent with
  | error e =>
    rw [ha] at h
    cases h
  | ok s' =>
    obtain ⟨-, rfl⟩ := putAgent_eq_ok.mp ha
    rw [ha] at h
    cases threadId with
    | none =>
      cases h
      exact ⟨rfl, Table.find_put_self .., by simp⟩
    | some id =>
      simp only at h ⊢
      cases ht : putThread { s with agents := s.agents.put agent } agent id status with
      | error e =>
        rw [ht] at h
        cases h
      | ok s'' =>
        obtain ⟨-, rfl⟩ := putThread_eq_ok.mp ht
        rw [ht] at h
        cases h
        refine ⟨rfl, Table.find_put_self .., ?_⟩
        rintro id' hid
        obtain rfl := Option.some.inj hid
        exact Table.find_put_self _ (agent.thread id status)

/-- A call that fails leaves the store as it was unless it fails half done. -/
theorem provisionAgentThread_error_iff :
    (∀ e, (s.provisionAgentThread agent threadId status).1 = .error e →
      (s.provisionAgentThread agent threadId status).2 = s) ↔ ¬ s.HalfDone agent threadId := by
  unfold provisionAgentThread
  cases ha : s.putAgent agent with
  | error e =>
    have hno : ¬ s.HalfDone agent threadId := by
      intro hhalf
      rw [putAgent_eq_ok.mpr ⟨hhalf.1, rfl⟩] at ha
      cases ha
    exact iff_of_true (fun _ _ => rfl) hno
  | ok s' =>
    obtain ⟨hscope, rfl⟩ := putAgent_eq_ok.mp ha
    cases threadId with
    | none =>
      have hno : ¬ s.HalfDone agent none := by
        rintro ⟨-, ⟨id, stored, hid, -⟩, -⟩
        cases hid
      exact iff_of_true (fun _ h => by cases h) hno
    | some id =>
      simp only
      cases ht : putThread { s with agents := s.agents.put agent } agent id status with
      | ok s'' =>
        obtain ⟨hholds, -⟩ := putThread_eq_ok.mp ht
        have hno : ¬ s.HalfDone agent (some id) := by
          rintro ⟨-, ⟨id', stored, hid, hstored, hforeign⟩, -⟩
          obtain rfl := Option.some.inj hid
          exact hforeign (hholds stored hstored)
        exact iff_of_true (fun _ h => by cases h) hno
      | error e =>
        have hforeign : ∃ stored, s.threads.find id = some stored ∧ ¬ agent.Holds stored := by
          by_contra hnone
          have hok : putThread { s with agents := s.agents.put agent } agent id status = .ok _ :=
            putThread_eq_ok.mpr ⟨fun stored h => by_contra fun hno => hnone ⟨stored, h, hno⟩, rfl⟩
          rw [ht] at hok
          cases hok
        obtain ⟨stored, hstored, hforeign⟩ := hforeign
        simp only [Except.error.injEq, forall_eq', putAgent_eq_self_iff]
        constructor
        · intro hsame hhalf
          exact hhalf.2.2 hsame
        · intro hno
          by_contra hne
          exact hno ⟨hscope, ⟨id, stored, rfl, hstored, hforeign⟩, hne⟩

/-- The rows of the database. -/
structure PostgresIdentities extends IdentityStore where
  workspaces : List WorkspaceIdentity

namespace PostgresIdentities

/-- `PostgresMemoryLedger.provision_agent_thread` inside of its transaction. Under the row policies
an upsert over a row of another tenant fails by itself. -/
def upserts (rowSecurity : Bool) (db : PostgresIdentities) (agent : AgentIdentity)
    (threadId : Option UUID) (threadStatus : String) :
    Except Exn ((AgentIdentity × Option ThreadIdentity) × IdentityStore) := do
  if ¬ db.workspaces.any fun w => w.id = agent.workspaceId ∧ w.tenantId = agent.tenantId then
    throw (.valueError "tenant/workspace scope is not provisioned")
  if rowSecurity && (db.agents.find agent.id).any fun a => a.tenantId ≠ agent.tenantId then
    throw (.databaseError "agents")
  let s ← db.putAgent agent
  match threadId with
  | none => return ((agent, none), s)
  | some threadId =>
    if rowSecurity && (db.threads.find threadId).any fun t => t.tenantId ≠ agent.tenantId then
      throw (.databaseError "threads")
    let s ← s.putThread agent threadId threadStatus
    return ((agent, some (agent.thread threadId threadStatus)), s)

/-- The whole call: a failed transaction is rolled back. -/
def provisionAgentThread (rowSecurity : Bool) (db : PostgresIdentities) (agent : AgentIdentity)
    (threadId : Option UUID) (threadStatus : String) :
    Except Exn (AgentIdentity × Option ThreadIdentity) × PostgresIdentities :=
  match db.upserts rowSecurity agent threadId threadStatus with
  | .error e => (.error e, db)
  | .ok (r, s) => (.ok r, { db with toIdentityStore := s })

variable {rowSecurity : Bool} {db : PostgresIdentities}

end PostgresIdentities

/-- A call in memory that fails leaves the store as it was exactly when it does not fail half done;
a call that returns leaves the agent and the thread in its scope. -/
theorem provision_atomic_iff (s : IdentityStore) (agent : AgentIdentity) (threadId : Option UUID)
    (status : String) :
    ((∀ e, (s.provisionAgentThread agent threadId status).1 = .error e →
        (s.provisionAgentThread agent threadId status).2 = s) ↔ ¬ s.HalfDone agent threadId) ∧
      ∀ r, (s.provisionAgentThread agent threadId status).1 = .ok r →
        r = (agent, threadId.map fun id => agent.thread id status) ∧
          (s.provisionAgentThread agent threadId status).2.agents.find agent.id = some agent ∧
            ∀ id, threadId = some id →
              (s.provisionAgentThread agent threadId status).2.threads.find id =
                some (agent.thread id status) :=
  ⟨provisionAgentThread_error_iff, fun _ h => provisionAgentThread_eq_ok h⟩

/-- An agent of one workspace. -/
def firstAgent : AgentIdentity := ⟨.ofNat 1, .ofNat 10, .ofNat 11, "planner", "agent", []⟩

/-- A store with one thread, of another workspace. -/
def foreignThread : IdentityStore :=
  { agents := Table.empty
    threads := Table.empty.put ⟨.ofNat 2, .ofNat 10, .ofNat 12, none, "active"⟩ }

/-- The call fails on the thread, and the agent stays written. -/
theorem foreignThread_half_done :
    (foreignThread.provisionAgentThread firstAgent (some (.ofNat 2)) "active").1 =
        .error (.valueError "thread_id already belongs to another scope") ∧
      foreignThread.agents.find firstAgent.id = none ∧
        (foreignThread.provisionAgentThread firstAgent (some (.ofNat 2)) "active").2.agents.find
          firstAgent.id = some firstAgent := by
  decide +kernel

end IdentityStore

end MemoryPlane
