import Mathlib.Logic.Function.Basic
import MemoryPlane.Domain.Models

/-!
# Checkpoint store

Revisioned working-memory snapshots of threads, in memory. The revisions of all tenants of a
thread share one list; every operation works on those of one tenant.
-/

namespace MemoryPlane

/-- Revisioned working-memory snapshot for one thread. -/
structure Checkpoint where
  tenantId : UUID
  workspaceId : UUID
  threadId : UUID
  revision : ℕ
  state : JsonObject
  id : UUID
  createdAt : DateTime
  /-- The check of the constructor. -/
  revision_pos : 1 ≤ revision
  deriving DecidableEq

/-- CAS conflict: expected revision doesn't match current head. -/
structure StaleRevisionError where
  threadId : UUID
  expected : ℤ
  actual : Option ℕ
  deriving DecidableEq

/-- For each thread its checkpoints in storage order. -/
structure InMemoryCheckpointStore where
  revisions : UUID → List Checkpoint

namespace InMemoryCheckpointStore

def empty : InMemoryCheckpointStore := ⟨fun _ => []⟩

variable (s : InMemoryCheckpointStore)

/-- The checkpoints of one tenant and thread. -/
def tenantRevisions (tenantId threadId : UUID) : List Checkpoint :=
  (s.revisions threadId).filter fun c => c.tenantId = tenantId

/-- Append a new checkpoint revision unconditionally. -/
def save (checkpoint : Checkpoint) : InMemoryCheckpointStore :=
  ⟨Function.update s.revisions checkpoint.threadId
    (s.revisions checkpoint.threadId ++ [checkpoint])⟩

/-- The revision of the head, zero without one. -/
def actualRevision (tenantId threadId : UUID) : ℕ :=
  match (s.tenantRevisions tenantId threadId).getLast? with
  | some c => c.revision
  | none => 0

/-- Append only when the current head revision equals the expected one. -/
def saveIfHead (checkpoint : Checkpoint) (expectedRevision : ℤ) :
    Except StaleRevisionError Checkpoint × InMemoryCheckpointStore :=
  let actual := s.actualRevision checkpoint.tenantId checkpoint.threadId
  if (actual : ℤ) ≠ expectedRevision then
    (.error ⟨checkpoint.threadId, expectedRevision, some actual⟩, s)
  else (.ok checkpoint, s.save checkpoint)

/-- Return the latest revision for a thread, or none. -/
def getHead (tenantId threadId : UUID) : Option Checkpoint :=
  (s.tenantRevisions tenantId threadId).getLast?

/-- Delete old revisions keeping the most recent ones. -/
def compact (tenantId threadId : UUID) (keepLast : ℕ) : ℕ × InMemoryCheckpointStore :=
  let tenantRevs := s.tenantRevisions tenantId threadId
  if tenantRevs.length ≤ keepLast then (0, s)
  else
    let otherRevs := (s.revisions threadId).filter fun c => c.tenantId ≠ tenantId
    let removed := tenantRevs.length - keepLast
    (removed, ⟨Function.update s.revisions threadId (otherRevs ++ tenantRevs.drop removed)⟩)

variable {s} {tenantId threadId t th : UUID} {checkpoint : Checkpoint}

/-- A save appends to the revisions of its own tenant and thread. -/
theorem tenantRevisions_save_self (s : InMemoryCheckpointStore) (checkpoint : Checkpoint) :
    (s.save checkpoint).tenantRevisions checkpoint.tenantId checkpoint.threadId =
      s.tenantRevisions checkpoint.tenantId checkpoint.threadId ++ [checkpoint] := by
  simp [tenantRevisions, save]

theorem tenantRevisions_save_of_ne (h : (t, th) ≠ (checkpoint.tenantId, checkpoint.threadId)) :
    (s.save checkpoint).tenantRevisions t th = s.tenantRevisions t th := by
  unfold tenantRevisions save
  by_cases hth : th = checkpoint.threadId
  · subst hth
    have ht : checkpoint.tenantId ≠ t := fun he => h (by rw [he])
    simp [ht]
  · simp [Function.update_of_ne hth]

theorem compact_of_le {keepLast : ℕ}
    (h : (s.tenantRevisions tenantId threadId).length ≤ keepLast) :
    s.compact tenantId threadId keepLast = (0, s) := if_pos h

theorem revisions_compact_of_lt {keepLast : ℕ}
    (h : ¬ (s.tenantRevisions tenantId threadId).length ≤ keepLast) :
    (s.compact tenantId threadId keepLast).2.revisions =
      Function.update s.revisions threadId
        (((s.revisions threadId).filter fun c => c.tenantId ≠ tenantId) ++
          (s.tenantRevisions tenantId threadId).drop
            ((s.tenantRevisions tenantId threadId).length - keepLast)) := by
  unfold compact
  rw [if_neg h]

/-- A compaction drops a prefix of the revisions of its own tenant and thread. -/
theorem tenantRevisions_compact_self (keepLast : ℕ) :
    (s.compact tenantId threadId keepLast).2.tenantRevisions tenantId threadId =
      (s.tenantRevisions tenantId threadId).drop
        ((s.tenantRevisions tenantId threadId).length - keepLast) := by
  by_cases hle : (s.tenantRevisions tenantId threadId).length ≤ keepLast
  · rw [compact_of_le hle, Nat.sub_eq_zero_of_le hle, List.drop_zero]
  · have hother : ((s.revisions threadId).filter fun c => c.tenantId ≠ tenantId).filter
        (fun c => c.tenantId = tenantId) = [] := by
      rw [List.filter_filter, List.filter_eq_nil_iff]
      simp
    have hkept : ∀ n, ((s.tenantRevisions tenantId threadId).drop n).filter
        (fun c => c.tenantId = tenantId) = (s.tenantRevisions tenantId threadId).drop n := by
      intro n
      rw [List.filter_eq_self]
      intro c hc
      exact (List.mem_filter.mp (List.mem_of_mem_drop hc)).2
    conv_lhs => rw [tenantRevisions, revisions_compact_of_lt hle, Function.update_self]
    rw [List.filter_append, hother, List.nil_append, hkept]

theorem tenantRevisions_compact_of_ne (keepLast : ℕ) (h : (t, th) ≠ (tenantId, threadId)) :
    (s.compact tenantId threadId keepLast).2.tenantRevisions t th = s.tenantRevisions t th := by
  by_cases hle : (s.tenantRevisions tenantId threadId).length ≤ keepLast
  · rw [compact_of_le hle]
  · by_cases hth : th = threadId
    · subst hth
      have ht : t ≠ tenantId := fun he => h (by rw [he])
      have hother : ((s.revisions th).filter fun c => c.tenantId ≠ tenantId).filter
          (fun c => c.tenantId = t) = s.tenantRevisions t th := by
        rw [List.filter_filter]
        refine List.filter_congr fun c _ => ?_
        by_cases hc : c.tenantId = t <;> simp [hc, ht]
      have hkept : ∀ n, ((s.tenantRevisions tenantId th).drop n).filter
          (fun c => c.tenantId = t) = [] := by
        intro n
        rw [List.filter_eq_nil_iff]
        intro c hc
        have htenant := (List.mem_filter.mp (List.mem_of_mem_drop hc)).2
        simp only [decide_eq_true_eq] at htenant ⊢
        rw [htenant]
        exact ht.symm
      conv_lhs => rw [tenantRevisions, revisions_compact_of_lt hle, Function.update_self]
      rw [List.filter_append, hother, hkept, List.append_nil]
    · rw [tenantRevisions, revisions_compact_of_lt hle, Function.update_of_ne hth]
      rfl

/-- A compaction that keeps something keeps the head. -/
theorem getHead_compact {keepLast : ℕ} (h : 1 ≤ keepLast) :
    (s.compact tenantId threadId keepLast).2.getHead tenantId threadId =
      s.getHead tenantId threadId := by
  unfold getHead
  rw [tenantRevisions_compact_self]
  cases hrevs : s.tenantRevisions tenantId threadId with
  | nil => simp
  | cons c rest =>
    rw [List.getLast?_drop, if_neg]
    simp only [List.length_cons]
    omega

end InMemoryCheckpointStore

end MemoryPlane
