import MemoryPlane.Lib.Proc
import MemoryPlane.Runs.Listings
import MemoryPlane.Scripts.AuditExport

/-!
# A complete export

An export of all pages ends, with an exception at the first event whose texts cannot be encoded, or
when it has written every matching event as one line, newest first, with the statistics of the file.
Its first page is cut off by the bound of the request, every later one by the position of the last
event before it.
-/

namespace MemoryPlane

namespace AuditExport

open Paging

variable (rt : ExportRuntime)

/-- An object has the fields of an event, each with its value and no others. -/
structure Describes (event : AuditEvent) (members : JsonObject) : Prop where
  names : members.map Prod.fst = ["tenant_id", "workspace_id", "action", "actor", "actor_type",
    "resource_type", "resource_id", "status", "metadata", "id", "created_at"]
  tenantId : members.get "tenant_id" = some (.str event.tenantId.str)
  workspaceId : members.get "workspace_id" =
    some (event.workspaceId.elim .null fun id => .str id.str)
  action : members.get "action" = some (.str event.action)
  actor : members.get "actor" = some (.str event.actor)
  actorType : members.get "actor_type" = some (.str event.actorType)
  resourceType : members.get "resource_type" = some (.str event.resourceType)
  resourceId : members.get "resource_id" = some (event.resourceId.elim .null .str)
  status : members.get "status" = some (.str event.status)
  metadata : members.get "metadata" = some (.obj event.metadata)
  id : members.get "id" = some (.str event.id.str)
  createdAt : members.get "created_at" = some (.str (rt.isoformat event.createdAt))

/-- The bytes are the JSON text of an event on one line; read as JSON they give its fields, if the
numbers of its metadata are floats. -/
structure IsLineOf (event : AuditEvent) (body : List UInt8) : Prop where
  unbroken : 10 ∉ body
  text : ∃ members, Describes rt event members ∧
    body = Utf8.encode (Json.dumps rt.floats false (.obj members)) ∧
    ((Json.obj members).FloatsIn rt.floats →
      (Utf8.decode body).bind (Json.loads rt.floats) = some (Json.obj members).sorted)

/-- The file and its statistics are those of the listing, which holds every event once and starts
with the newest. -/
structure WritesAll (events listing : List AuditEvent) (result : AuditExport) : Prop where
  perm : listing.Perm events
  newestFirst : listing.Pairwise fun a b => auditKey b < auditKey a
  lines : ∃ bodies, result.file = bodies.flatMap (fun body => body ++ [10]) ∧
    List.Forall₂ (IsLineOf rt) listing bodies
  eventCount : result.stats.eventCount = listing.length
  byteCount : result.stats.byteCount = result.file.length
  sha256 : result.stats.sha256 = rt.sha256 result.file
  newest : result.stats.newest = (listing.map fun event => event.createdAt).max?
  oldest : result.stats.oldest = (listing.map fun event => event.createdAt).min?

/-- The line of an event without its end. -/
def lineBody (event : AuditEvent) : List UInt8 :=
  Utf8.encode (Json.dumps rt.floats false (jsonReady rt event))

/-- An event without surrogates is written as its body and a line feed. -/
theorem line_eq_ok {event : AuditEvent} (h : rt.hasSurrogate event = false) :
    line rt event = .ok (lineBody rt event ++ [10]) := by
  rw [line, h, Utf8.encode_append]
  rfl

/-- An event with a surrogate cannot be encoded. -/
theorem line_eq_error {event : AuditEvent} (h : rt.hasSurrogate event = true) :
    line rt event = .error "UnicodeEncodeError: surrogates not allowed" := if_pos h

/-- The exported object describes its event. -/
theorem describes_jsonReady (event : AuditEvent) :
    ∃ members, jsonReady rt event = .obj members ∧ Describes rt event members := by
  have htext : ∀ value : Option String,
      (value.map Json.str).getD .null = value.elim .null .str := fun value => by cases value <;> rfl
  have hid : (((event.workspaceId.map UUID.str).map Json.str).getD .null) =
      event.workspaceId.elim .null fun id => .str id.str := by cases event.workspaceId <;> rfl
  exact ⟨_, rfl, rfl, rfl, congrArg some hid, rfl, rfl, rfl, rfl, congrArg some (htext _), rfl, rfl,
    rfl, rfl⟩

/-- What is written for an event is its line. -/
theorem isLineOf_lineBody (event : AuditEvent) : IsLineOf rt event (lineBody rt event) := by
  obtain ⟨members, hready, hdescribes⟩ := describes_jsonReady rt event
  constructor
  · intro hfeed
    obtain ⟨c, hc, hcode⟩ := Utf8.exists_of_mem_encode hfeed (by decide)
    have hle := Json.le_toNat_of_mem_print _ c hc
    have hten : (10 : UInt8).toNat = 10 := rfl
    omega
  · refine ⟨members, hdescribes, by rw [lineBody, hready], fun hfloats => ?_⟩
    rw [lineBody, hready, Utf8.decode_encode, Option.bind_some]
    exact Json.loads_dumps hfloats

section Writing

variable (st : ExportState) (listing : List AuditEvent)

/-- The lines of events that can be encoded are written one behind the other. -/
def wroteAll : ExportState :=
  listing.foldl (fun st event => wroteLine st event (lineBody rt event ++ [10])) st

/-- Writing ends with an exception at the first event that cannot be encoded. -/
theorem foldlM_writeEvent : listing.foldlM (writeEvent rt) st =
    if listing.any rt.hasSurrogate then .error "UnicodeEncodeError: surrogates not allowed"
    else .ok (wroteAll rt st listing) := by
  induction listing generalizing st with
  | nil => rfl
  | cons event listing ih =>
    rw [List.foldlM_cons, List.any_cons, writeEvent]
    cases h : rt.hasSurrogate event with
    | true =>
      rw [line_eq_error rt h, Bool.true_or]
      rfl
    | false =>
      rw [line_eq_ok rt h, Except.ok_bind, Bool.false_or]
      exact ih _

/-- What one page writes, apart from the number of pages. -/
theorem foldlM_pages (n : ℕ) : listing.foldlM (writeEvent rt) { st with pages := n } =
    (listing.foldlM (writeEvent rt) st).map fun st => { st with pages := n } := by
  have hpages : wroteAll rt { st with pages := n } listing =
      { wroteAll rt st listing with pages := n } := by
    induction listing generalizing st with
    | nil => rfl
    | cons event listing ih => exact ih (wroteLine st event _)
  rw [foldlM_writeEvent, foldlM_writeEvent, hpages]
  cases listing.any rt.hasSurrogate <;> rfl

/-- A fault-free export appends one line for each listed event. -/
theorem wroteAll_file : (wroteAll rt st listing).file =
    st.file ++ (listing.map (lineBody rt)).flatMap (fun body => body ++ [10]) := by
  induction listing generalizing st with
  | nil => exact (List.append_nil _).symm
  | cons event listing ih =>
    rw [List.map_cons, List.flatMap_cons, ← List.append_assoc]
    exact ih (wroteLine st event _)

/-- The reported count grows by the listed events. -/
theorem wroteAll_count : (wroteAll rt st listing).count = st.count + listing.length := by
  induction listing generalizing st with
  | nil => rfl
  | cons event listing ih =>
    have hrest := ih (wroteLine st event (lineBody rt event ++ [10]))
    have hstep : (wroteLine st event (lineBody rt event ++ [10])).count = st.count + 1 := rfl
    rw [hstep] at hrest
    rw [List.length_cons, wroteAll, List.foldl_cons, ← wroteAll, hrest]
    omega

/-- The reported newest moment is the latest of all listed. -/
theorem wroteAll_newest : (wroteAll rt st listing).newest =
    (st.newest.toList ++ listing.map fun event => event.createdAt).max? := by
  induction listing generalizing st with
  | nil => cases hnewest : st.newest <;> simp [wroteAll, hnewest]
  | cons event listing ih =>
    rw [wroteAll, List.foldl_cons, ← wroteAll, ih, wroteLine]
    cases st.newest <;> rfl

/-- The reported oldest moment is the earliest of all listed. -/
theorem wroteAll_oldest : (wroteAll rt st listing).oldest =
    (st.oldest.toList ++ listing.map fun event => event.createdAt).min? := by
  induction listing generalizing st with
  | nil => cases holdest : st.oldest <;> simp [wroteAll, holdest]
  | cons event listing ih =>
    rw [wroteAll, List.foldl_cons, ← wroteAll, ih, wroteLine]
    cases st.oldest <;> rfl

/-- The bytes that were counted and hashed are those that were written. -/
theorem wroteAll_written (hdigest : st.digest = st.file) (hcount : st.byteCount = st.file.length) :
    (wroteAll rt st listing).digest = (wroteAll rt st listing).file ∧
      (wroteAll rt st listing).byteCount = (wroteAll rt st listing).file.length := by
  induction listing generalizing st with
  | nil => exact ⟨hdigest, hcount⟩
  | cons event listing ih =>
    have hstep : (wroteLine st event (lineBody rt event ++ [10])).byteCount =
        (wroteLine st event (lineBody rt event ++ [10])).file.length :=
      (congrArg (· + _) hcount).trans List.length_append.symm
    exact ih (wroteLine st event _) (congrArg (· ++ _) hdigest) hstep

end Writing

variable (s : InMemoryMemoryStore) (options : ExportOptions)

/-- The matching events before a position, newest first. -/
def listingBefore (cursor : Option Cursor) : List AuditEvent :=
  sortedByDesc auditKey ((matching s options).filter (before auditKey cursor))

/-- Every page asks for between one and five hundred events. -/
theorem exists_pageLimit : ∃ n : ℕ, pageLimit options = n ∧ 0 < n ∧ n ≤ 500 := by
  obtain ⟨n, hn, hpos, hle, -⟩ := exists_clampLimit (show (1 : ℤ) < 500 by omega)
    (if options.allPages then options.batchSize else options.limit)
  exact ⟨n, hn, hpos, by omega⟩

/-- The service passes the size of a page on. -/
theorem fetch_of_limit {n : ℕ} (hn : pageLimit options = n) (createdBefore : Option DateTime)
    (beforeEventId : Option UUID) :
    fetch s options createdBefore beforeEventId =
      s.listAuditEvents options.tenantId options.filter createdBefore beforeEventId n := by
  have hclamp : clampLimit 500 (pageLimit options) = n := by
    obtain ⟨m, hm, hpos, hle⟩ := exists_pageLimit options
    rw [clampLimit_of_le (by omega) (by omega), hn]
  rw [fetch, AuditLogService.listEvents, hclamp]

/-- The first page is cut off by the bound of the request. -/
theorem fetch_first {n : ℕ} (hn : pageLimit options = n) :
    fetch s options options.createdBefore none = (listingBefore s options none).take n := by
  have hrows : (s.auditEvents.rows.filter fun event =>
      options.filter.selects options.tenantId event &&
        printedBefore event.createdAt event.id options.createdBefore none) =
      matching s options := by
    refine List.filter_congr fun event _ => congrArg _ ?_
    simp only [printedBefore, Option.any_none, Bool.or_false]
  rw [fetch_of_limit s options hn, InMemoryMemoryStore.listAuditEvents, hrows, sliceTo_natCast,
    listingBefore, filter_before_none]

/-- A later page is cut off by the last event before it. -/
theorem fetch_later {n : ℕ} (hn : pageLimit options = n) {last : AuditEvent}
    (hlast : last ∈ matching s options) :
    fetch s options (some last.createdAt) (some last.id) =
      (listingBefore s options (some (auditKey last))).take n := by
  have hrows : (s.auditEvents.rows.filter (options.filter.selects options.tenantId)).filter
      (before auditKey (some (auditKey last))) =
      (matching s options).filter (before auditKey (some (auditKey last))) := by
    rw [matching, List.filter_filter, List.filter_filter]
    refine List.filter_congr fun event _ => ?_
    rw [Bool.eq_iff_iff]
    simp only [Bool.and_eq_true, and_congr_right_iff]
    intro hbefore
    rw [before, Option.all_some, decide_eq_true_eq] at hbefore
    have hle : event.createdAt ≤ last.createdAt := (Prod.Lex.toLex_le_toLex.mp hbefore.le).elim
      le_of_lt fun h => le_of_eq h.1
    simp only [matching, List.mem_filter, Bool.and_eq_true] at hlast
    refine ⟨fun h => ⟨h, ?_⟩, fun h => h.1⟩
    cases hbound : options.createdBefore with
    | none => rfl
    | some t =>
      rw [hbound, Option.all_some, decide_eq_true_eq] at hlast
      exact decide_eq_true (lt_of_le_of_lt hle hlast.2.2)
  rw [fetch_of_limit s options hn, listingBefore, ← hrows]
  exact listAuditEvents_cursor options.tenantId (some (auditKey last)) n s options.filter

/-- The matching events are told apart by moment and identifier. -/
theorem auditKey_inj (x : AuditEvent) (hx : x ∈ matching s options) (y : AuditEvent)
    (hy : y ∈ matching s options) (h : auditKey x = auditKey y) : x = y := by
  have hids : ((matching s options).map fun event => event.id).Nodup :=
    nodup_map_filter s.auditEvents.nodup _
  exact List.inj_on_of_nodup_map hids hx hy (congrArg (fun k : Cursor => (ofLex k).2) h)

/-- No event matches twice. -/
theorem matching_nodup : (matching s options).Nodup :=
  (nodup_map_filter s.auditEvents.nodup _).of_map

section Rounds

variable {createdBefore : Option DateTime} {beforeEventId : Option UUID} {st t : ExportState}
  {rounds : ℕ}

/-- A round that raises ends the loop. -/
theorem writePages_error {e : String}
    (h : writePage rt st (fetch s options createdBefore beforeEventId) = .error e) :
    writePages rt s options (rounds + 1) createdBefore beforeEventId st = some (.error e) := by
  have hround : writeRound rt s options createdBefore beforeEventId st = .error e := by
    rw [writeRound, h]
    rfl
  exact congrArg (afterRound (writePages rt s options rounds)) hround

/-- A round on the last page ends the loop. -/
theorem writePages_last (h : writePage rt st (fetch s options createdBefore beforeEventId) = .ok t)
    (hlast : (!options.allPages || decide (((fetch s options createdBefore
      beforeEventId).length : ℤ) < pageLimit options)) = true) :
    writePages rt s options (rounds + 1) createdBefore beforeEventId st = some (.ok t) := by
  have hround : writeRound rt s options createdBefore beforeEventId st = .ok (t, none) := by
    rw [writeRound, h, Except.ok_bind, if_pos hlast]
    rfl
  exact congrArg (afterRound (writePages rt s options rounds)) hround

/-- A round on another page goes on behind its last event. -/
theorem writePages_more {last : AuditEvent}
    (h : writePage rt st (fetch s options createdBefore beforeEventId) = .ok t)
    (hmore : ¬ (!options.allPages || decide (((fetch s options createdBefore
      beforeEventId).length : ℤ) < pageLimit options)) = true)
    (hlast : (fetch s options createdBefore beforeEventId).getLast? = some last) :
    writePages rt s options (rounds + 1) createdBefore beforeEventId st =
      writePages rt s options rounds (some last.createdAt) (some last.id) t := by
  have hround : writeRound rt s options createdBefore beforeEventId st = .ok (t, some last) := by
    rw [writeRound, h, Except.ok_bind, if_neg hmore, hlast]
    rfl
  exact congrArg (afterRound (writePages rt s options rounds)) hround

end Rounds

/-- From each position on the loop writes what lies before it, in any number of rounds that exceeds
the number of events left. -/
theorem writePages_all (hall : options.allPages = true) {n : ℕ} (hn : pageLimit options = n)
    (hpos : 0 < n) (cursor : Option Cursor) (createdBefore : Option DateTime)
    (beforeEventId : Option UUID) (st : ExportState) (rounds : ℕ)
    (hrounds : (listingBefore s options cursor).length < rounds)
    (hfetch : fetch s options createdBefore beforeEventId =
      (listingBefore s options cursor).take n) :
    writePages rt s options rounds createdBefore beforeEventId st =
      some (((listingBefore s options cursor).foldlM (writeEvent rt) st).map fun written =>
        { written with
          pages := st.pages + ((listingBefore s options cursor).length / n + 1) }) := by
  induction rounds generalizing cursor createdBefore beforeEventId st with
  | zero => exact absurd hrounds (Nat.not_lt_zero _)
  | succ rounds ih =>
    have hcond : (!options.allPages || decide (((fetch s options createdBefore
        beforeEventId).length : ℤ) < pageLimit options)) = true ↔
          (listingBefore s options cursor).length < n := by
      rw [hall, hfetch, hn, Bool.not_true, Bool.false_or, decide_eq_true_eq, List.length_take]
      omega
    have hpage : writePage rt st (fetch s options createdBefore beforeEventId) =
        (((listingBefore s options cursor).take n).foldlM (writeEvent rt) st).map fun written =>
          { written with pages := st.pages + 1 } := by
      rw [writePage, hfetch, foldlM_pages]
    by_cases hshort : (listingBefore s options cursor).length < n
    · rw [List.take_of_length_le (by omega)] at hpage
      rw [Nat.div_eq_of_lt hshort, Nat.zero_add]
      cases hwrite : (listingBefore s options cursor).foldlM (writeEvent rt) st with
      | error e =>
        rw [hwrite] at hpage
        rw [writePages_error rt s options hpage]
        rfl
      | ok written =>
        rw [hwrite] at hpage
        rw [writePages_last rt s options hpage (hcond.mpr hshort)]
        rfl
    · have hlength : ((listingBefore s options cursor).take n).length = n := by
        rw [List.length_take]
        omega
      obtain ⟨last, hlast⟩ : ∃ last,
          ((listingBefore s options cursor).take n).getLast? = some last := by
        apply Option.ne_none_iff_exists'.mp
        rw [ne_eq, List.getLast?_eq_none_iff, ← List.length_eq_zero_iff, hlength]
        omega
      have hmem : last ∈ matching s options := by
        have h := List.mem_of_mem_take (List.mem_of_getLast? hlast)
        rw [listingBefore, mem_sortedByDesc] at h
        exact List.mem_of_mem_filter h
      have hrest : listingBefore s options (some (auditKey last)) =
          (listingBefore s options cursor).drop n :=
        sortedByDesc_before_last (auditKey_inj s options) (matching_nodup s options) hlast
      have hpages : (listingBefore s options cursor).length / n =
          ((listingBefore s options cursor).length - n) / n + 1 :=
        Nat.div_eq_sub_div hpos (by omega)
      have hwhole : (listingBefore s options cursor).foldlM (writeEvent rt) st =
          ((listingBefore s options cursor).take n).foldlM (writeEvent rt) st >>= fun written =>
            ((listingBefore s options cursor).drop n).foldlM (writeEvent rt) written := by
        rw [← List.foldlM_append, List.take_append_drop]
      rw [hwhole]
      cases hwrite : ((listingBefore s options cursor).take n).foldlM (writeEvent rt) st with
      | error e =>
        rw [hwrite] at hpage
        rw [writePages_error rt s options hpage]
        rfl
      | ok written =>
        rw [hwrite] at hpage
        rw [writePages_more rt s options hpage (mt hcond.mp hshort) (hfetch ▸ hlast),
          ih (some (auditKey last)) _ _ _ (by rw [hrest, List.length_drop]; omega)
            (fetch_later s options hn hmem), hrest, foldlM_pages, Except.ok_bind,
          List.length_drop, hpages]
        cases ((listingBefore s options cursor).drop n).foldlM (writeEvent rt) written with
        | error e => rfl
        | ok later =>
          simp only [Except.map, Nat.add_assoc, Nat.add_comm 1]

/-- What has been written before any bound is the whole listing. -/
theorem writesAll_finish (pages : ℕ) :
    WritesAll rt (matching s options) (listingBefore s options none)
      (finish rt { wroteAll rt start (listingBefore s options none) with pages := pages }) := by
  have hperm : (listingBefore s options none).Perm (matching s options) := by
    rw [listingBefore, filter_before_none]
    exact sortedByDesc_perm auditKey _
  obtain ⟨hdigest, hcount⟩ := wroteAll_written rt start (listingBefore s options none) rfl rfl
  have hlines : List.Forall₂ (IsLineOf rt) (listingBefore s options none)
      ((listingBefore s options none).map (lineBody rt)) :=
    List.forall₂_map_right_iff.mpr (List.forall₂_same.mpr fun event _ => isLineOf_lineBody rt event)
  refine { perm := hperm, newestFirst := ?_,
           lines := ⟨_, wroteAll_file rt start _, hlines⟩
           eventCount := (wroteAll_count rt start _).trans (Nat.zero_add _)
           byteCount := hcount
           sha256 := congrArg rt.sha256 hdigest
           newest := wroteAll_newest rt start _, oldest := wroteAll_oldest rt start _ }
  have hsorted := sortedByDesc_pairwise auditKey
    ((matching s options).filter (before auditKey none))
  have hdistinct : (listingBefore s options none).Nodup :=
    hperm.nodup_iff.mpr (matching_nodup s options)
  refine (hsorted.and hdistinct).imp_of_mem fun ha hb h => lt_of_le_of_ne h.1 fun heq => ?_
  exact h.2 (auditKey_inj s options _ (hperm.mem_iff.mp ha) _ (hperm.mem_iff.mp hb) heq.symm)

/-- Enough rounds end an export of all pages, and more change nothing: it has written the whole
listing, or an event of it cannot be encoded. -/
theorem writeEvents_all (hall : options.allPages = true) :
    ∃ pages, ∀ more > (listingBefore s options none).length,
      writeEvents rt s options more =
        if (listingBefore s options none).any rt.hasSurrogate then
          some (.error "UnicodeEncodeError: surrogates not allowed")
        else some (.ok (finish rt
          { wroteAll rt start (listingBefore s options none) with pages := pages })) := by
  obtain ⟨n, hn, hpos, -⟩ := exists_pageLimit options
  refine ⟨0 + ((listingBefore s options none).length / n + 1), fun more hmore => ?_⟩
  rw [writeEvents, writePages_all rt s options hall hn hpos none _ none start more hmore
    (fetch_first s options hn), foldlM_writeEvent]
  cases (listingBefore s options none).any rt.hasSurrogate <;> rfl

/-- The export of all pages ends and is complete. -/
def Complete : Prop :=
  ∃ rounds listing result, (∀ more ≥ rounds,
    writeEvents rt s { options with allPages := true } more = some (.ok result)) ∧
    WritesAll rt (matching s options) listing result

/-- An event that cannot be encoded ends the export. -/
theorem not_complete {event : AuditEvent} (h : event ∈ matching s options)
    (hevent : rt.hasSurrogate event = true) : ¬ Complete rt s options := by
  rintro ⟨rounds, listing, result, hends, -⟩
  obtain ⟨pages, hpages⟩ := writeEvents_all rt s { options with allPages := true } rfl
  have hmem : event ∈ listingBefore s { options with allPages := true } none := by
    rw [listingBefore, mem_sortedByDesc, filter_before_none]
    exact h
  have hresult := hends (max rounds ((listingBefore s { options with allPages := true }
    none).length + 1)) (le_max_left _ _)
  rw [hpages _ (lt_of_lt_of_le (Nat.lt_succ_self _) (le_max_right _ _)),
    if_pos (List.any_eq_true.mpr ⟨event, hmem, hevent⟩)] at hresult
  cases hresult

/-- An event whose reason is a surrogate; a replacement character stands for it here. -/
def surrogateEvent : AuditEvent where
  tenantId := UUID.ofNat 1
  workspaceId := none
  action := "memory.delete"
  actor := "operator"
  actorType := "user"
  resourceType := "memory_item"
  resourceId := none
  status := "succeeded"
  metadata := [("reason", .str "\ufffd")]
  id := UUID.ofNat 2
  createdAt := .ofMicros 0
  valid := by decide +kernel

/-- The store of that event. -/
def surrogateStore : InMemoryMemoryStore :=
  { InMemoryMemoryStore.empty with auditEvents := Table.empty.put surrogateEvent }

/-- An export without filters. -/
def everything : ExportOptions where
  tenantId := UUID.ofNat 1
  filter := ⟨none, none, none, none⟩
  createdBefore := none
  limit := 500
  batchSize := 500
  allPages := true

/-- The library on that event. -/
def surrogateRuntime : ExportRuntime where
  floats := halfText
  isoformat _ := "1970-01-01T00:00:00+00:00"
  surrogate c := c = '\ufffd'
  sha256 _ := ""

end AuditExport

end MemoryPlane
