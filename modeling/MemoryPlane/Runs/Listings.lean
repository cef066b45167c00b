import MemoryPlane.Api.Listings

/-!
# Reading a listing page by page

A client who follows the positions of the turns, proposals or neighbours endpoint receives the
filtered listing in its order, each row once, whatever limit it asks for. The audit endpoint asks
its service for one row beyond a page of 500, and the service cuts that row off again: at that
limit the first page always ends the listing.
-/

namespace MemoryPlane

open Paging

variable {α : Type}

/-- The pages that a client receives, in their only possible form, are the listing without a row
twice. -/
def ReadsWhole
    (endpoint : Option DateTime → Option UUID → Except HTTPException (ListingResponse α))
    (listing : List α) : Prop :=
  ∃ pages, Traverses endpoint pages ∧ (∀ others, Traverses endpoint others → others = pages) ∧
    pages.flatten = listing ∧ listing.Nodup

/-- The page size lies between one and the most, which is used only when asked for. -/
theorem exists_clampLimit {most : ℤ} (hmost : 1 < most) (limit : ℤ) :
    ∃ n : ℕ, clampLimit most limit = n ∧ 0 < n ∧ n ≤ most ∧ (n = most ↔ most ≤ limit) := by
  have hclamp : clampLimit most limit =
      if limit ≤ 1 then 1 else if most ≤ limit then most else limit := by
    unfold clampLimit
    split
    · rw [max_eq_left]
      omega
    · rw [max_eq_right (by omega)]
      split <;> omega
  refine ⟨(clampLimit most limit).toNat, ?_, ?_, ?_, ?_⟩ <;> rw [hclamp] <;> split <;> omega

/-- A limit within its range is used as it is. -/
theorem clampLimit_of_le {most limit : ℤ} (hpos : 1 ≤ limit) (hle : limit ≤ most) :
    clampLimit most limit = limit := by
  unfold clampLimit
  omega

/-- Rows with distinct identifiers have distinct positions. -/
theorem position_inj {createdAt : α → DateTime} {id : α → UUID} {rows : List α}
    (hids : (rows.map id).Nodup) {x y : α} (hx : x ∈ rows) (hy : y ∈ rows)
    (h : toLex (createdAt x, id x) = toLex (createdAt y, id y)) : x = y := by
  have hid : id x = id y := congrArg (fun k : Cursor => (ofLex k).2) h
  exact List.inj_on_of_nodup_map hids hx hy hid

section Endpoints

variable {createdAt : α → DateTime} {id : α → UUID} {rows : List α} {size : ℕ}
  {endpoint : Option DateTime → Option UUID → Except HTTPException (ListingResponse α)}

/-- What an endpoint answers to a request with a position. -/
theorem fetch_eq
    (endpoint : Option DateTime → Option UUID → Except HTTPException (ListingResponse α))
    (cursor : Option Cursor) {fetched : List α}
    (h : endpoint (cursor.map fun c => (ofLex c).1) (cursor.map fun c => (ofLex c).2) =
      .ok (listingResponse createdAt id size fetched)) :
    ListingResponse.fetch endpoint cursor =
      .ok (cutPage (fun x => toLex (createdAt x, id x)) size fetched) := by
  rw [ListingResponse.fetch, h, ← ListingResponse.page_listingResponse]
  rfl

/-- An endpoint whose store returns the sentinel row, newest rows first. -/
theorem readsWhole_desc (hids : (rows.map id).Nodup) (hsize : 0 < size)
    (h : ∀ cursor : Option Cursor,
      endpoint (cursor.map fun c => (ofLex c).1) (cursor.map fun c => (ofLex c).2) =
        .ok (listingResponse createdAt id size ((sortedByDesc (fun x => toLex (createdAt x, id x))
          (rows.filter (before (fun x => toLex (createdAt x, id x)) cursor))).take (size + 1)))) :
    ReadsWhole endpoint (sortedByDesc (fun x => toLex (createdAt x, id x)) rows) := by
  have hnodup : rows.Nodup := hids.of_map _
  obtain ⟨pages, hpages, hflat⟩ := exists_follows_desc
    (fun x hx y hy heq => position_inj hids hx hy heq) hnodup hsize
    (fun cursor => fetch_eq endpoint cursor (h cursor)) none
  rw [filter_before_none] at hflat
  exact ⟨pages, hpages, fun others hothers => hothers.unique hpages, hflat,
    (sortedByDesc_perm _ rows).nodup_iff.mpr hnodup⟩

/-- An endpoint whose store returns the sentinel row, oldest rows first. -/
theorem readsWhole_asc (hids : (rows.map id).Nodup) (hsize : 0 < size)
    (h : ∀ cursor : Option Cursor,
      endpoint (cursor.map fun c => (ofLex c).1) (cursor.map fun c => (ofLex c).2) =
        .ok (listingResponse createdAt id size
          (page (fun x => toLex (createdAt x, id x)) (size + 1) cursor rows))) :
    ReadsWhole endpoint (sortedBy (fun x => toLex (createdAt x, id x)) rows) := by
  have hnodup : rows.Nodup := hids.of_map _
  obtain ⟨pages, hpages, hflat⟩ := exists_follows
    (fun x hx y hy heq => position_inj hids hx hy heq) hnodup hsize
    (fun cursor => fetch_eq endpoint cursor (h cursor)) none
  rw [remaining, filter_behind_none] at hflat
  exact ⟨pages, hpages, fun others hothers => hothers.unique hpages, hflat,
    (sortedBy_perm _ rows).nodup_iff.mpr hnodup⟩

end Endpoints

/-- Identifiers stay distinct under a filter. -/
theorem nodup_map_filter {id : α → UUID} {rows : List α} (h : (rows.map id).Nodup)
    (p : α → Bool) : ((rows.filter p).map id).Nodup :=
  h.sublist (List.filter_sublist.map id)

section Stores

variable (tenantId workspaceId itemId : UUID) (cursor : Option Cursor) (n : ℕ)

/-- The page of audit events is cut from the sorted matching ones behind the cursor. -/
theorem listAuditEvents_cursor (s : InMemoryMemoryStore) (q : AuditFilter) :
    s.listAuditEvents tenantId q (cursor.map fun c => (ofLex c).1)
        (cursor.map fun c => (ofLex c).2) n =
      (sortedByDesc auditKey ((s.auditEvents.rows.filter (q.selects tenantId)).filter
        (before auditKey cursor))).take n := by
  have hrows : (s.auditEvents.rows.filter fun event => q.selects tenantId event &&
        printedBefore event.createdAt event.id (cursor.map fun c => (ofLex c).1)
          (cursor.map fun c => (ofLex c).2)) =
      (s.auditEvents.rows.filter (q.selects tenantId)).filter (before auditKey cursor) := by
    rw [List.filter_filter]
    refine List.filter_congr fun event _ => ?_
    rw [printedBefore_iff, Bool.and_comm]
    rfl
  rw [InMemoryMemoryStore.listAuditEvents, hrows, sliceTo_natCast]

/-- The page of turns is cut from the sorted matching ones behind the cursor. -/
theorem listTurns_cursor (s : ConversationStore) (q : TurnFilter) :
    s.listTurns tenantId workspaceId q (cursor.map fun c => (ofLex c).1)
        (cursor.map fun c => (ofLex c).2) n =
      (sortedByDesc turnKey ((s.turns.rows.filter (q.selects tenantId workspaceId)).filter
        (before turnKey cursor))).take n := by
  have hrows : (s.turns.rows.filter fun turn => q.selects tenantId workspaceId turn &&
        printedBefore turn.createdAt turn.id (cursor.map fun c => (ofLex c).1)
          (cursor.map fun c => (ofLex c).2)) =
      (s.turns.rows.filter (q.selects tenantId workspaceId)).filter (before turnKey cursor) := by
    rw [List.filter_filter]
    refine List.filter_congr fun turn _ => ?_
    rw [printedBefore_iff, Bool.and_comm]
    rfl
  rw [ConversationStore.listTurns, hrows, sliceTo_natCast]

/-- The page of proposals is cut from the sorted matching ones behind the cursor. -/
theorem listProposals_cursor (s : InMemoryMemoryStore) (q : ProposalFilter) :
    s.listProposals tenantId workspaceId q (cursor.map fun c => (ofLex c).1)
        (cursor.map fun c => (ofLex c).2) n =
      (sortedByDesc proposalKey ((s.proposals.rows.filter
        (q.selects tenantId workspaceId)).filter (before proposalKey cursor))).take n := by
  have hrows : (s.proposals.rows.filter fun proposal => q.selects tenantId workspaceId proposal &&
        (cursor.map fun c => (ofLex c).1).all fun t =>
          (cursor.map fun c => (ofLex c).2).all fun i =>
          proposalKey proposal < toLex (t, i)) =
      (s.proposals.rows.filter (q.selects tenantId workspaceId)).filter
        (before proposalKey cursor) := by
    rw [List.filter_filter]
    refine List.filter_congr fun proposal _ => ?_
    rw [Bool.and_comm]
    cases cursor <;> rfl
  rw [InMemoryMemoryStore.listProposals, hrows, sliceTo_natCast]

/-- The page of edges is cut from the sorted neighbouring ones behind the cursor. -/
theorem listNeighbors_cursor (s : GraphStore) (edgeType : Option MemoryEdgeType) (hpos : 0 < n)
    (hn : n ≤ 501) :
    s.listNeighbors tenantId workspaceId itemId edgeType (cursor.map fun c => (ofLex c).1)
        (cursor.map fun c => (ofLex c).2) n =
      page edgeKey n cursor (s.edges.rows.filter fun edge =>
        edge.isNeighbor tenantId workspaceId itemId edgeType) := by
  have hrows : (s.edges.rows.filter fun edge =>
        edge.isNeighbor tenantId workspaceId itemId edgeType &&
        (cursor.map fun c => (ofLex c).1).all fun t =>
          (cursor.map fun c => (ofLex c).2).all fun i =>
          toLex (t, i) < edgeKey edge) =
      (s.edges.rows.filter fun edge =>
        edge.isNeighbor tenantId workspaceId itemId edgeType).filter (behind edgeKey cursor) := by
    rw [List.filter_filter]
    refine List.filter_congr fun edge _ => ?_
    rw [Bool.and_comm]
    cases cursor <;> rfl
  have hsafe : max 1 (min (n : ℤ) 501) = n := by
    rw [min_eq_left (by omega), max_eq_right (by omega)]
  rw [GraphStore.listNeighbors, hrows, hsafe, sliceTo_natCast, page]

end Stores

/-- The check for half a position passes a whole one. -/
theorem isNone_map_bne {β γ : Type} (cursor : Option Cursor) (f : Cursor → β) (g : Cursor → γ) :
    ((cursor.map f).isNone != (cursor.map g).isNone) = false := by
  cases cursor <;> rfl

/-- Following the cursors reads every matching turn once, in order. -/
theorem turns_readWhole (s : ConversationStore) (tenantId workspaceId : UUID)
    (threadId : Option UUID) («namespace» : Option String) (limit : ℤ) :
    ReadsWhole (listConversationTurns s tenantId workspaceId threadId «namespace» limit)
      (sortedByDesc turnKey
        (s.turns.rows.filter (TurnFilter.selects ⟨threadId, «namespace»⟩
          tenantId workspaceId))) := by
  obtain ⟨n, hn, hpos, -, -⟩ := exists_clampLimit (show (1 : ℤ) < 200 by omega) limit
  apply readsWhole_desc (nodup_map_filter s.turns.nodup _) hpos
  intro cursor
  have hpage := listTurns_cursor tenantId workspaceId cursor (n + 1) s ⟨threadId, «namespace»⟩
  rw [listConversationTurns, hn, ← Int.natCast_succ, hpage]
  rfl

/-- Following the cursors reads every matching proposal once, in order. -/
theorem proposals_readWhole (s : InMemoryMemoryStore) (tenantId workspaceId : UUID)
    («namespace» : Option String) (status : Option MemoryProposalStatus) (limit : ℤ) :
    ReadsWhole (listMemoryProposals s tenantId workspaceId «namespace» status limit)
      (sortedByDesc proposalKey (s.proposals.rows.filter
        (ProposalFilter.selects ⟨«namespace», status⟩ tenantId workspaceId))) := by
  obtain ⟨n, hn, hpos, -, -⟩ := exists_clampLimit (show (1 : ℤ) < 200 by omega) limit
  apply readsWhole_desc (nodup_map_filter s.proposals.nodup _) hpos
  intro cursor
  have hpage := listProposals_cursor tenantId workspaceId cursor (n + 1) s ⟨«namespace», status⟩
  simp only [listMemoryProposals, isNone_map_bne, Bool.false_eq_true, if_false]
  rw [hn, ← Int.natCast_succ, hpage]
  rfl

/-- Following the cursors reads every neighbouring edge once, in order. -/
theorem neighbors_readWhole (s : GraphStore) (itemId workspaceId tenantId : UUID)
    (edgeType : Option MemoryEdgeType) (limit : ℤ) :
    ReadsWhole (listGraphNeighbors s itemId workspaceId tenantId edgeType limit)
      (sortedBy edgeKey (s.edges.rows.filter fun edge =>
        edge.isNeighbor tenantId workspaceId itemId edgeType)) := by
  obtain ⟨n, hn, hpos, hle, -⟩ := exists_clampLimit (show (1 : ℤ) < 500 by omega) limit
  apply readsWhole_asc (nodup_map_filter s.edges.nodup _) hpos
  intro cursor
  have hpage := listNeighbors_cursor tenantId workspaceId itemId cursor (n + 1) s edgeType
    (by omega) (by omega)
  simp only [listGraphNeighbors, isNone_map_bne, Bool.false_eq_true, if_false]
  rw [hn, ← Int.natCast_succ, hpage]
  rfl

/-- Following the positions of the turns, proposals and neighbours endpoints reads each filtered
listing whole and in its order. -/
theorem keyset_listings_complete (s : GraphStore) (tenantId workspaceId : UUID) (limit : ℤ) :
    (∀ threadId «namespace»,
      ReadsWhole (listConversationTurns s.toConversationStore tenantId workspaceId threadId
        «namespace» limit)
        (sortedByDesc turnKey (s.turns.rows.filter
          (TurnFilter.selects ⟨threadId, «namespace»⟩ tenantId workspaceId)))) ∧
    (∀ «namespace» status,
      ReadsWhole (listMemoryProposals s.toInMemoryMemoryStore tenantId workspaceId «namespace»
        status limit)
        (sortedByDesc proposalKey (s.proposals.rows.filter
          (ProposalFilter.selects ⟨«namespace», status⟩ tenantId workspaceId)))) ∧
    ∀ itemId edgeType,
      ReadsWhole (listGraphNeighbors s itemId workspaceId tenantId edgeType limit)
        (sortedBy edgeKey (s.edges.rows.filter fun edge =>
          edge.isNeighbor tenantId workspaceId itemId edgeType)) :=
  ⟨fun _ _ => turns_readWhole .., fun _ _ => proposals_readWhole .., fun _ _ =>
    neighbors_readWhole ..⟩

/-! ### The audit endpoint -/

section Audit

variable (s : InMemoryMemoryStore) (tenantId : UUID) (workspaceId : Option UUID)
  (action resourceType : Option String) (limit : ℤ)

/-- The events that pass the filters of the audit endpoint. -/
def matchingAuditEvents : List AuditEvent :=
  s.auditEvents.rows.filter (AuditFilter.selects ⟨workspaceId, action, resourceType, none⟩ tenantId)

/-- Below the public limit the service leaves the sentinel row. -/
theorem audit_readWhole (hlimit : limit < 500) :
    ReadsWhole (listAuditEvents s tenantId workspaceId action resourceType limit)
      (sortedByDesc auditKey
        (matchingAuditEvents s tenantId workspaceId action resourceType)) := by
  obtain ⟨n, hn, hpos, hle, hmost⟩ := exists_clampLimit (show (1 : ℤ) < 500 by omega) limit
  apply readsWhole_desc (nodup_map_filter s.auditEvents.nodup _) hpos
  intro cursor
  have hpage := listAuditEvents_cursor tenantId cursor (n + 1) s
    ⟨workspaceId, action, resourceType, none⟩
  have hservice : clampLimit 500 ((n : ℤ) + 1) = (n + 1 : ℕ) := by
    rw [clampLimit_of_le (by omega) (by omega), Int.natCast_succ]
  rw [listAuditEvents, hn, AuditLogService.listEvents, hservice, hpage]
  rfl

/-- At the public limit the first page has at most 500 rows and is the last one. -/
theorem audit_traverses_of_le (hlimit : 500 ≤ limit) :
    Traverses (listAuditEvents s tenantId workspaceId action resourceType limit)
      [(sortedByDesc auditKey
        (matchingAuditEvents s tenantId workspaceId action resourceType)).take 500] := by
  have hclamp : clampLimit 500 limit = (500 : ℕ) := by
    rw [clampLimit, min_eq_right hlimit]
    rfl
  have hservice : clampLimit 500 ((500 : ℕ) + 1) = (500 : ℕ) := rfl
  have hpage := listAuditEvents_cursor tenantId none 500 s
    ⟨workspaceId, action, resourceType, none⟩
  have hanswer := fetch_eq (listAuditEvents s tenantId workspaceId action resourceType limit) none
    (by rw [listAuditEvents, hclamp, AuditLogService.listEvents, hservice, hpage])
  rw [filter_before_none, cutPage_of_length_le _ (by rw [List.length_take]; omega)] at hanswer
  exact .last hanswer rfl

/-- The audit endpoint reads a listing whole exactly if the limit stays below 500 or no more than
500 events match. -/
theorem audit_paging_complete_iff :
    ReadsWhole (listAuditEvents s tenantId workspaceId action resourceType limit)
        (sortedByDesc auditKey
          (matchingAuditEvents s tenantId workspaceId action resourceType)) ↔
      limit < 500 ∨
        (matchingAuditEvents s tenantId workspaceId action resourceType).length ≤ 500 := by
  have hlength := (sortedByDesc_perm auditKey
    (matchingAuditEvents s tenantId workspaceId action resourceType)).length_eq
  by_cases hlimit : limit < 500
  · exact iff_of_true (audit_readWhole s tenantId workspaceId action resourceType limit hlimit)
      (.inl hlimit)
  have hfirst := audit_traverses_of_le s tenantId workspaceId action resourceType limit (by omega)
  constructor
  · rintro ⟨pages, -, hunique, hflat, -⟩
    rw [← hunique _ hfirst, List.flatten_singleton] at hflat
    have hcut := congrArg List.length hflat
    rw [List.length_take, hlength] at hcut
    exact .inr (by omega)
  · rintro (h | h)
    · exact absurd h hlimit
    · refine ⟨_, hfirst, fun others hothers => hothers.unique hfirst, ?_, ?_⟩
      · rw [List.flatten_singleton, List.take_of_length_le (by omega)]
      · rw [(sortedByDesc_perm auditKey _).nodup_iff]
        exact (List.Nodup.of_map _ s.auditEvents.nodup).filter _

end Audit

/-- A record of a recall. -/
def recallAudit : AuditEvent where
  tenantId := .ofNat 1
  workspaceId := none
  action := "memory.recall"
  actor := "agent"
  actorType := "agent"
  resourceType := "memory"
  resourceId := none
  status := "succeeded"
  metadata := []
  id := .ofNat 0
  createdAt := .ofMicros 0
  valid := by decide

/-- The record numbered in its moment and its identifier. -/
def auditEventAt (n : ℕ) : AuditEvent :=
  { recallAudit with id := .ofNat n, createdAt := .ofMicros n, valid := recallAudit.valid }

/-- A store with so many audit events. -/
def auditStoreOf (n : ℕ) (hn : n ≤ 2 ^ 128) : InMemoryMemoryStore :=
  { InMemoryMemoryStore.empty with
    auditEvents := ⟨(List.range n).map auditEventAt, by
      rw [List.map_map]
      refine List.Nodup.map_on (fun a ha b hb h => ?_) List.nodup_range
      have hnat := congrArg UUID.toNat h
      rw [List.mem_range] at ha hb
      simp only [Function.comp_apply, auditEventAt, UUID.ofNat] at hnat
      omega⟩ }

/-- The example's store has as many matching events as asked for. -/
theorem length_matching_auditStoreOf (n : ℕ) (hn : n ≤ 2 ^ 128) :
    (matchingAuditEvents (auditStoreOf n hn) (.ofNat 1) none none none).length = n := by
  have hall : matchingAuditEvents (auditStoreOf n hn) (.ofNat 1) none none none =
      (List.range n).map auditEventAt := by
    apply List.filter_eq_self.mpr
    intro event hevent
    obtain ⟨k, -, rfl⟩ := List.mem_map.mp hevent
    rfl
  rw [hall, List.length_map, List.length_range]

/-- With 501 events and a limit of 500 the oldest event is not read. -/
theorem audit_paging_misses_oldest :
    ¬ReadsWhole (listAuditEvents (auditStoreOf 501 (by omega)) (.ofNat 1) none none none 500)
      (sortedByDesc auditKey
        (matchingAuditEvents (auditStoreOf 501 (by omega)) (.ofNat 1) none none none)) := by
  have hfirst := audit_traverses_of_le (auditStoreOf 501 (by omega)) (.ofNat 1) none none none 500
    (by omega)
  rintro ⟨pages, -, hunique, hflat, -⟩
  have hcut := congrArg List.length hflat
  rw [← hunique _ hfirst, List.flatten_singleton, List.length_take,
    (sortedByDesc_perm auditKey _).length_eq, length_matching_auditStoreOf] at hcut
  omega

end MemoryPlane
