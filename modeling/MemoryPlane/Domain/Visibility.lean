import MemoryPlane.Domain.Models

/-!
# Visibility

Who may see a memory: private memories belong to one agent, thread memories to one thread, and
all others to the whole workspace. Inclusion of audiences is decided by comparing scopes and
owners.
-/

namespace MemoryPlane

/-- The identity under which memories are recalled. -/
structure Reader where
  tenantId : UUID
  workspaceId : UUID
  agentId : Option UUID
  threadId : Option UUID

/-- The reader may see the item. -/
structure Reader.Allowed (r : Reader) (i : MemoryItem) : Prop where
  tenant : i.tenantId = r.tenantId
  workspace : i.workspaceId = r.workspaceId
  thread : i.scope = .thread → i.threadId = r.threadId
  agent : i.scope = .private → i.agentId = r.agentId

instance (r : Reader) (i : MemoryItem) : Decidable (r.Allowed i) :=
  decidable_of_iff (i.tenantId = r.tenantId ∧ i.workspaceId = r.workspaceId ∧
    (i.scope = .thread → i.threadId = r.threadId) ∧ (i.scope = .private → i.agentId = r.agentId))
    ⟨fun ⟨ht, hw, hth, ha⟩ => ⟨ht, hw, hth, ha⟩,
      fun h => ⟨h.tenant, h.workspace, h.thread, h.agent⟩⟩

/-- The scope binds an item to one owner. -/
def MemoryScope.isOwned (s : MemoryScope) : Bool := s == .private || s == .thread

/-- Every reader of `p` may see `e`: `e` has no owner, or both have the same. -/
def Covers (e p : MemoryItem) : Prop :=
  e.scope.isOwned = false ∨
    (e.scope = p.scope ∧ (e.scope = .private → e.agentId = p.agentId) ∧
      (e.scope = .thread → e.threadId = p.threadId))

instance (e p : MemoryItem) : Decidable (Covers e p) := by
  unfold Covers
  infer_instance

/-- Comparing scopes and owners decides inclusion of audiences. -/
theorem covers_iff {e p : MemoryItem} (ht : e.tenantId = p.tenantId)
    (hw : e.workspaceId = p.workspaceId) :
    Covers e p ↔ ∀ r : Reader, r.Allowed p → r.Allowed e := by
  constructor
  · rintro (ho | ⟨hs, ha, hth⟩) r hr
    · have hnp : e.scope ≠ .private := by rintro h; simp [h, MemoryScope.isOwned] at ho
      have hnt : e.scope ≠ .thread := by rintro h; simp [h, MemoryScope.isOwned] at ho
      exact ⟨ht.trans hr.tenant, hw.trans hr.workspace, fun h => absurd h hnt,
        fun h => absurd h hnp⟩
    · refine ⟨ht.trans hr.tenant, hw.trans hr.workspace, fun h => ?_, fun h => ?_⟩
      · exact (hth h).trans (hr.thread (hs ▸ h))
      · exact (ha h).trans (hr.agent (hs ▸ h))
  · intro h
    have hv := MemoryFields.postInit_eq_ok.mp e.valid
    by_cases hep : e.scope = .private
    · by_cases hpp : p.scope = .private
      · -- a reader who is the agent of `p`
        have hr : Reader.Allowed ⟨p.tenantId, p.workspaceId, p.agentId, p.threadId⟩ p :=
          ⟨rfl, rfl, fun _ => rfl, fun _ => rfl⟩
        exact .inr ⟨hep.trans hpp.symm, fun _ => (h _ hr).agent hep,
          fun ht => by rw [hep] at ht; cases ht⟩
      · -- a reader without an agent
        have hr : Reader.Allowed ⟨p.tenantId, p.workspaceId, none, p.threadId⟩ p :=
          ⟨rfl, rfl, fun _ => rfl, fun hp => absurd hp hpp⟩
        exact absurd ((h _ hr).agent hep) (hv.private hep)
    · by_cases het : e.scope = .thread
      · by_cases hpt : p.scope = .thread
        · have hr : Reader.Allowed ⟨p.tenantId, p.workspaceId, p.agentId, p.threadId⟩ p :=
            ⟨rfl, rfl, fun _ => rfl, fun _ => rfl⟩
          exact .inr ⟨het.trans hpt.symm, fun hp => absurd hp hep, fun _ => (h _ hr).thread het⟩
        · -- a reader outside all threads
          have hr : Reader.Allowed ⟨p.tenantId, p.workspaceId, p.agentId, none⟩ p :=
            ⟨rfl, rfl, fun hp => absurd hp hpt, fun _ => rfl⟩
          exact absurd ((h _ hr).thread het) (hv.thread het)
      · left
        simp [MemoryScope.isOwned, hep, het]

end MemoryPlane
