import MemoryPlane.Adapters.Conversations
import MemoryPlane.Lib.Sweeps

/-!
# Expiry of staged turns

Maintenance purges the turns that are due in bounded batches, earliest expiry first. A purged turn
has nothing but the marker in its texts, so it is not selected again, and repeated calls come to one
that finds nothing.
-/

namespace MemoryPlane

/-- A turn of the workspace whose expiry is reached. -/
def ConversationTurn.IsDue (tenantId workspaceId : UUID) (now : DateTime) (t : ConversationTurn) :
    Prop :=
  t.tenantId = tenantId ∧ t.workspaceId = workspaceId ∧ t.expiresAt.any (fun e => e ≤ now) = true

instance (tenantId workspaceId : UUID) (now : DateTime) (t : ConversationTurn) :
    Decidable (t.IsDue tenantId workspaceId now) := by
  unfold ConversationTurn.IsDue
  infer_instance

namespace ConversationStore

/-- The largest batch that a request for so many turns may purge. -/
def batch (limit : ℤ) : ℕ := (max 1 (min limit 5000)).toNat

/-- `ConversationService.purge_expired_turns` over the store. -/
def purgeDue (tenantId workspaceId : UUID) (limit : ℤ) (now : DateTime) (x : ConversationStore) :
    List UUID × ConversationStore :=
  x.purgeExpiredTurns tenantId workspaceId now (batch limit)

/-- What expiry makes of one turn. -/
def expired (tenantId workspaceId : UUID) (now : DateTime) (t : ConversationTurn) :
    ConversationTurn :=
  if t.IsDue tenantId workspaceId now ∧ ¬ t.IsPurged then t.purged "purged_after_expiry" else t

variable {x y : ConversationStore} {tenantId workspaceId id : UUID} {now : DateTime} {limit : ℕ}
  {ids : List UUID} {u v : ConversationTurn} {reason : String}

/-- A purge rewrites one row where it stands. -/
theorem rows_purgeContent (hu : u ∈ x.turns.rows) (htenant : u.tenantId = tenantId) :
    (x.purgeContent tenantId u.id reason).2.turns.rows =
      x.turns.rows.map fun v => if v.id = u.id then v.purged reason else v := by
  have hget : x.getTurn tenantId u.id = some u := getTurn_eq_some.mpr ⟨hu, rfl, htenant⟩
  have hany : (x.turns.rows.any fun v => v.id = u.id) = true :=
    List.any_eq_true.mpr ⟨u, hu, decide_eq_true rfl⟩
  have hsame : ∀ v ∈ x.turns.rows, (if v.id = u.id then u.purged reason else v) =
      if v.id = u.id then v.purged reason else v := by
    intro v hv
    split
    · rename_i hid
      rw [x.turns.eq_of_key_eq hv hu hid]
    · rfl
  rw [purgeContent, hget]
  simp only [Table.put, Table.putRows, ConversationTurn.purged_id]
  exact (if_pos hany).trans (List.map_congr_left hsame)

/-- Purging some turns of the tenant rewrites their rows. -/
theorem rows_purge_all (hnodup : ids.Nodup)
    (hids : ∀ id ∈ ids, ∃ u ∈ x.turns.rows, u.id = id ∧ u.tenantId = tenantId) :
    (ids.foldl (fun y id => (y.purgeContent tenantId id reason).2) x).turns.rows =
      x.turns.rows.map fun v => if v.id ∈ ids then v.purged reason else v := by
  induction ids generalizing x with
  | nil => simp
  | cons id ids ih =>
    obtain ⟨hid, hrest⟩ := List.nodup_cons.mp hnodup
    obtain ⟨⟨u, hu, rfl, htenant⟩, hothers⟩ := List.forall_mem_cons.mp hids
    have hrows : (x.purgeContent tenantId u.id reason).2.turns.rows = _ :=
      rows_purgeContent hu htenant
    rw [List.foldl_cons, ih hrest, hrows, List.map_map]
    · apply List.map_congr_left
      intro v _
      by_cases hv : v.id = u.id
      · simp [hv, hid]
      · simp [hv]
    · intro id' hid'
      obtain ⟨w, hw, rfl, hwt⟩ := hothers id' hid'
      rw [hrows]
      refine ⟨_, List.mem_map_of_mem hw, ?_⟩
      split <;> exact ⟨rfl, hwt⟩

/-- The turns that a call may select, in the order of their expiry. -/
def dueTurns (x : ConversationStore) (tenantId workspaceId : UUID) (now : DateTime) :
    List ConversationTurn :=
  (sortedBy (fun t : ConversationTurn => toLex (t.expiresAt.getD now, t.id)) x.turns.rows).filter
    fun t => t.IsDue tenantId workspaceId now ∧ ¬ t.IsPurged

/-- The expired turns are the first due ones. -/
theorem expiredTurns_eq : x.expiredTurns tenantId workspaceId now limit =
    ((x.dueTurns tenantId workspaceId now).map fun t => t.id).take limit := by
  rw [expiredTurns, dueTurns]
  congr 2
  apply List.filter_congr
  intro t _
  simp [ConversationTurn.IsDue, and_assoc]

/-- A turn is due for the purge when its time is over and its texts are still there. -/
theorem mem_dueTurns : u ∈ x.dueTurns tenantId workspaceId now ↔
    u ∈ x.turns.rows ∧ u.IsDue tenantId workspaceId now ∧ ¬ u.IsPurged := by
  rw [dueTurns, List.mem_filter, mem_sortedBy, decide_eq_true_eq]

/-- No turn is due twice. -/
theorem nodup_dueTurns : ((x.dueTurns tenantId workspaceId now).map fun t => t.id).Nodup := by
  have hsorted : ((sortedBy (fun t : ConversationTurn => toLex (t.expiresAt.getD now, t.id))
      x.turns.rows).map fun t => t.id).Nodup :=
    ((sortedBy_perm _ _).map _).nodup_iff.mpr x.turns.nodup
  exact hsorted.sublist (List.filter_sublist.map _)

/-- What one call does: the selected turns are purged where they stand, and nothing else. -/
theorem rows_purgeExpiredTurns :
    (x.purgeExpiredTurns tenantId workspaceId now limit).2.turns.rows = x.turns.rows.map fun v =>
      if v.id ∈ x.expiredTurns tenantId workspaceId now limit then
        v.purged "purged_after_expiry" else v := by
  apply rows_purge_all
  · rw [expiredTurns_eq]
    exact nodup_dueTurns.sublist (List.take_sublist _ _)
  · intro id hid
    rw [expiredTurns_eq] at hid
    obtain ⟨u, hu, rfl⟩ := List.mem_map.mp (List.mem_of_mem_take hid)
    obtain ⟨hu, hdue, -⟩ := mem_dueTurns.mp hu
    exact ⟨u, hu, rfl, hdue.1⟩

section Call

/-- A purged turn has its shape and its expiry, and is not selected again. -/
theorem expired_shape (t : ConversationTurn) : (expired tenantId workspaceId now t).id = t.id ∧
    t.SameShape (expired tenantId workspaceId now t) ∧
      (expired tenantId workspaceId now t).expiresAt = t.expiresAt := by
  rw [expired]
  split
  · exact ⟨rfl, t.sameShape_purged _, rfl⟩
  · exact ⟨rfl, .refl t, rfl⟩

/-- A later state has the first one's turns, those of some due ones purged. -/
structure Purged (tenantId workspaceId : UUID) (now : DateTime) (x : ConversationStore)
    (done : List UUID) (y : ConversationStore) : Prop where
  due : ∀ u ∈ x.turns.rows, u.id ∈ done → u.IsDue tenantId workspaceId now ∧ ¬ u.IsPurged
  rows : y.turns.rows =
    x.turns.rows.map fun u => if u.id ∈ done then u.purged "purged_after_expiry" else u
  store : y.toInMemoryMemoryStore = x.toInMemoryMemoryStore
  idempotency : y.turnIdempotency = x.turnIdempotency

/-- Purging no turn changes nothing. -/
theorem Purged.refl (x : ConversationStore) : Purged tenantId workspaceId now x [] x :=
  ⟨by simp, by simp, rfl, rfl⟩

/-- A purge leaves the idempotency keys of the turns alone. -/
theorem turnIdempotency_purgeExpiredTurns :
    (x.purgeExpiredTurns tenantId workspaceId now limit).2.turnIdempotency = x.turnIdempotency := by
  unfold purgeExpiredTurns
  simp only
  generalize x.expiredTurns tenantId workspaceId now limit = ids
  induction ids generalizing x with
  | nil => rfl
  | cons id ids ih =>
    rw [List.foldl_cons, ih, purgeContent]
    cases x.getTurn tenantId id <;> rfl

/-- The selected turns are due and hold more than markers. -/
theorem due_of_mem_expiredTurns (hu : u ∈ x.turns.rows)
    (hid : u.id ∈ x.expiredTurns tenantId workspaceId now limit) :
    u.IsDue tenantId workspaceId now ∧ ¬ u.IsPurged := by
  rw [expiredTurns_eq] at hid
  obtain ⟨w, hw, hwid⟩ := List.mem_map.mp (List.mem_of_mem_take hid)
  obtain ⟨hw, hdue⟩ := mem_dueTurns.mp hw
  rwa [← x.turns.eq_of_key_eq hw hu hwid]

/-- One call goes on from there: what is purged is never selected again. -/
theorem Purged.step {done : List UUID} (h : Purged tenantId workspaceId now x done y) :
    Purged tenantId workspaceId now x (done ++ y.expiredTurns tenantId workspaceId now limit)
      (y.purgeExpiredTurns tenantId workspaceId now limit).2 := by
  have hrow : ∀ u ∈ x.turns.rows,
      (if u.id ∈ done then u.purged "purged_after_expiry" else u) ∈ y.turns.rows := by
    intro u hu
    rw [h.rows]
    exact List.mem_map_of_mem hu
  have hfresh : ∀ u ∈ x.turns.rows, u.id ∈ y.expiredTurns tenantId workspaceId now limit →
      u.id ∉ done := by
    intro u hu hid hdone
    have hv := hrow u hu
    rw [if_pos hdone] at hv
    exact (due_of_mem_expiredTurns hv hid).2 (u.isPurged_purged _)
  refine ⟨?_, ?_, (purgeExpiredTurns_store ..).trans h.store,
    turnIdempotency_purgeExpiredTurns.trans h.idempotency⟩
  · intro u hu hid
    obtain hdone | hnew := List.mem_append.mp hid
    · exact h.due u hu hdone
    · have hv := hrow u hu
      rw [if_neg (hfresh u hu hnew)] at hv
      exact due_of_mem_expiredTurns hv hnew
  · rw [rows_purgeExpiredTurns, h.rows, List.map_map]
    apply List.map_congr_left
    intro u hu
    by_cases hdone : u.id ∈ done
    · have hold : u.id ∉ y.expiredTurns tenantId workspaceId now limit :=
        fun hnew => hfresh u hu hnew hdone
      simp [hdone, hold]
    · simp [hdone]

/-- Entries with keys of their own that are not among the first ones are the remaining ones. -/
theorem length_filter_take {ts : List ConversationTurn} (hnodup : (ts.map fun t => t.id).Nodup)
    (n : ℕ) : (ts.filter fun t => t.id ∉ (ts.take n).map fun t => t.id).length +
      (ts.take n).length = ts.length := by
  have hsplit := List.take_append_drop n ts
  have hdisjoint : ∀ t ∈ ts.drop n, t.id ∉ (ts.take n).map fun t => t.id := by
    intro t ht hmem
    rw [← hsplit, List.map_append, List.nodup_append] at hnodup
    exact hnodup.2.2 t.id hmem t.id (List.mem_map_of_mem ht) rfl
  have hfilter : (ts.filter fun t => t.id ∉ (ts.take n).map fun t => t.id) = ts.drop n := by
    conv_lhs => rw [← hsplit, List.filter_append]
    rw [List.filter_eq_nil_iff.mpr, List.filter_eq_self.mpr, List.nil_append]
    · exact fun t ht => decide_eq_true (by simpa [hsplit] using hdisjoint t ht)
    · intro t ht
      have hmem : t.id ∈ (ts.take n).map fun t => t.id := List.mem_map_of_mem ht
      simpa [hsplit] using hmem
  rw [hfilter, List.length_drop, List.length_take]
  omega

/-- How many turns are due and hold more than markers. -/
def pending (tenantId workspaceId : UUID) (now : DateTime) (x : ConversationStore) : ℕ :=
  (x.dueTurns tenantId workspaceId now).length

/-- Each call takes the turns that it purges off those. -/
theorem pending_purgeExpiredTurns :
    pending tenantId workspaceId now (x.purgeExpiredTurns tenantId workspaceId now limit).2 +
        (x.purgeExpiredTurns tenantId workspaceId now limit).1.length =
      pending tenantId workspaceId now x := by
  have hcount : ∀ z : ConversationStore, pending tenantId workspaceId now z =
      (z.turns.rows.filter fun t => t.IsDue tenantId workspaceId now ∧ ¬ t.IsPurged).length :=
    fun z => ((sortedBy_perm _ z.turns.rows).filter _).length_eq
  have hids : (x.purgeExpiredTurns tenantId workspaceId now limit).1 =
      ((x.dueTurns tenantId workspaceId now).take limit).map fun t => t.id := by
    rw [List.map_take]
    exact expiredTurns_eq
  have hleft : ∀ t : ConversationTurn,
      ((if t.id ∈ x.expiredTurns tenantId workspaceId now limit then
          t.purged "purged_after_expiry" else t).IsDue tenantId workspaceId now ∧
        ¬ (if t.id ∈ x.expiredTurns tenantId workspaceId now limit then
          t.purged "purged_after_expiry" else t).IsPurged) ↔
      (t.IsDue tenantId workspaceId now ∧ ¬ t.IsPurged) ∧
        t.id ∉ x.expiredTurns tenantId workspaceId now limit := by
    intro t
    split
    · rename_i h
      simp [h, t.isPurged_purged]
    · rename_i h
      simp [h]
  have hafter : pending tenantId workspaceId now
      (x.purgeExpiredTurns tenantId workspaceId now limit).2 =
        ((x.dueTurns tenantId workspaceId now).filter fun t =>
          t.id ∉ x.expiredTurns tenantId workspaceId now limit).length := by
    rw [hcount, rows_purgeExpiredTurns, List.filter_map, List.length_map]
    have hperm : ((x.dueTurns tenantId workspaceId now).filter fun t =>
        t.id ∉ x.expiredTurns tenantId workspaceId now limit).Perm
          ((x.turns.rows.filter fun t => t.IsDue tenantId workspaceId now ∧ ¬ t.IsPurged).filter
            fun t => t.id ∉ x.expiredTurns tenantId workspaceId now limit) :=
      ((sortedBy_perm _ x.turns.rows).filter _).filter _
    rw [hperm.length_eq, List.filter_filter]
    congr 1
    apply List.filter_congr
    intro t _
    rw [Function.comp_apply, ← Bool.decide_and, decide_eq_decide, and_comm (a := t.id ∉ _)]
    exact hleft t
  rw [hafter, hids, expiredTurns_eq, ← List.map_take, List.length_map]
  exact length_filter_take nodup_dueTurns limit

/-- With a positive limit nothing expired means that no turn is due. -/
theorem expiredTurns_eq_nil (h : x.expiredTurns tenantId workspaceId now limit = [])
    (hlimit : 0 < limit) (hu : u ∈ x.turns.rows) :
    ¬ (u.IsDue tenantId workspaceId now ∧ ¬ u.IsPurged) := by
  intro hdue
  rw [expiredTurns_eq, List.take_eq_nil_iff, List.map_eq_nil_iff] at h
  obtain h | h := h
  · omega
  · have hmem : u ∈ x.dueTurns tenantId workspaceId now := mem_dueTurns.mpr ⟨hu, hdue⟩
    rw [h] at hmem
    cases hmem

/-- Without an expired turn a purge changes nothing. -/
theorem purgeExpiredTurns_of_nil (h : x.expiredTurns tenantId workspaceId now limit = []) :
    (x.purgeExpiredTurns tenantId workspaceId now limit).2 = x := by
  rw [purgeExpiredTurns]
  simp only
  rw [h]
  rfl

end Call

/-- When nothing is left to purge, every turn is as expiry makes it. -/
theorem Purged.rows_of_idle {done : List UUID} (h : Purged tenantId workspaceId now x done y)
    (hidle : y.expiredTurns tenantId workspaceId now limit = []) (hlimit : 0 < limit) :
    y.turns.rows = x.turns.rows.map (expired tenantId workspaceId now) := by
  rw [h.rows]
  apply List.map_congr_left
  intro u hu
  rw [expired]
  by_cases hdone : u.id ∈ done
  · rw [if_pos hdone, if_pos (h.due u hu hdone)]
  · have hrow : u ∈ y.turns.rows := by
      rw [h.rows]
      exact List.mem_map.mpr ⟨u, hu, if_neg hdone⟩
    rw [if_neg hdone, if_neg (expiredTurns_eq_nil hidle hlimit hrow)]

/-- Repeated calls come to one that finds nothing, and then every due turn holds only markers and
keeps its shape and its expiry, every other turn is unchanged, and a further call changes nothing;
each call purges no more turns than its batch. -/
theorem purge_exact (x : ConversationStore) (tenantId workspaceId : UUID) (now : DateTime)
    (limit : ℤ) :
    (∀ n, (purgeDue tenantId workspaceId limit now
        (Sweeps.after (purgeDue tenantId workspaceId limit now) x n)).1.length ≤ batch limit) ∧
      ∃ n y, Sweeps.after (purgeDue tenantId workspaceId limit now) x n = y ∧
        (∀ k < n, (purgeDue tenantId workspaceId limit now
          (Sweeps.after (purgeDue tenantId workspaceId limit now) x k)).1 ≠ []) ∧
        purgeDue tenantId workspaceId limit now y = ([], y) ∧
        y.toInMemoryMemoryStore = x.toInMemoryMemoryStore ∧
        y.turnIdempotency = x.turnIdempotency ∧
        y.turns.rows = x.turns.rows.map (expired tenantId workspaceId now) ∧
        ∀ t ∈ x.turns.rows,
          (t.IsDue tenantId workspaceId now →
            (expired tenantId workspaceId now t).IsPurged ∧
              t.SameShape (expired tenantId workspaceId now t) ∧
                (expired tenantId workspaceId now t).expiresAt = t.expiresAt) ∧
            (¬ t.IsDue tenantId workspaceId now → expired tenantId workspaceId now t = t) := by
  have hlimit : 0 < batch limit := by
    rw [batch]
    omega
  have hsize : ∀ y : ConversationStore,
      (purgeDue tenantId workspaceId limit now y).1.length ≤ batch limit := by
    intro y
    rw [purgeDue, purgeExpiredTurns, expiredTurns_eq]
    exact List.length_take_le _ _
  obtain ⟨n, hidle, hbusy⟩ : ∃ n, (purgeDue tenantId workspaceId limit now
      (Sweeps.after (purgeDue tenantId workspaceId limit now) x n)).1 = [] ∧
        ∀ k < n, (purgeDue tenantId workspaceId limit now
          (Sweeps.after (purgeDue tenantId workspaceId limit now) x k)).1 ≠ [] :=
    Sweeps.exists_idle (pending tenantId workspaceId now) (fun _ => pending_purgeExpiredTurns) x
  obtain ⟨done, hpurged⟩ : ∃ done, Purged tenantId workspaceId now x done
      (Sweeps.after (purgeDue tenantId workspaceId limit now) x n) :=
    Sweeps.after_induction (P := fun y => ∃ done, Purged tenantId workspaceId now x done y)
      ⟨[], .refl x⟩ (fun y ⟨done, h⟩ => ⟨_, h.step⟩) n
  refine ⟨fun n => hsize _, n, _, rfl, hbusy, ?_, hpurged.store, hpurged.idempotency,
    hpurged.rows_of_idle hidle hlimit, ?_⟩
  · exact Prod.ext hidle (purgeExpiredTurns_of_nil hidle)
  · intro t _
    refine ⟨fun hdue => ⟨?_, (expired_shape t).2⟩, fun hno => if_neg fun h => hno h.1⟩
    rw [expired]
    split
    · exact t.isPurged_purged _
    · rename_i h
      by_contra hcontent
      exact h ⟨hdue, hcontent⟩

def stagedMessage : MessageFields := ⟨"user", "hello", none, []⟩

/-- The message of the example passes its validation. -/
theorem stagedMessage_valid : stagedMessage.postInit = .ok () := by decide

/-- Fields of a staged turn that expires at moment 2. -/
def stagedFields : TurnFields :=
  ⟨.ofNat 1, .ofNat 2, .ofNat 3, [⟨stagedMessage, stagedMessage_valid⟩], .ofNat 4, "default", none,
    "api", .curatedOnly, [], .ofMicros 0, some (.ofMicros 2)⟩

/-- The fields of the example pass their validation. -/
theorem stagedFields_valid : stagedFields.postInit = .ok () := by decide

/-- A store with that turn. -/
def stagedStore : ConversationStore :=
  { empty with turns := Table.empty.put ⟨stagedFields, stagedFields_valid⟩ }

/-- A call with limit 0 purges a turn. -/
theorem purgeDue_zero : ¬ (((purgeDue (.ofNat 1) (.ofNat 2) 0 (.ofMicros 3) stagedStore).1.length :
    ℕ) : ℤ) ≤ 0 := by
  decide +kernel

end ConversationStore

end MemoryPlane
