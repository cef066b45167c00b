import MemoryPlane.Python.Numbers
import MemoryPlane.Runs.Writes
import MemoryPlane.Services.Ingestion
import MemoryPlane.Services.VaultImport

/-!
# What ingestion stores and returns

The guard sees the text of a chunk but not the quote in its provenance, so a chunk in which it
finds something is stored unguarded beside its redacted text. The key of a chunk names its place in
the document but not the thread and the text, so a chunk may be answered with a memory of another
scope.
-/

namespace MemoryPlane

open InMemoryMemoryStore IngestionService RetentionService

/-! ### Keys -/

/-- Printed numbers have no colon and tell the number. -/
theorem toString_append_colon_inj {m n : ℕ} {a b : List Char}
    (h : (toString m).toList ++ ':' :: a = (toString n).toList ++ ':' :: b) : m = n := by
  have hcast : ∀ k : ℕ, toString (k : ℤ) = toString k := fun k => rfl
  have hfree : ∀ k : ℕ, ∀ c ∈ (toString k).toList, c ≠ ':' := by
    intro k c hc heq
    rw [← hcast, heq] at hc
    exact VaultExporter.colon_not_mem_toString k hc
  have hspan : ∀ (k : ℕ) (rest : List Char),
      ((toString k).toList ++ ':' :: rest).takeWhile (· ≠ ':') = (toString k).toList := by
    intro k rest
    rw [List.takeWhile_append_of_pos fun c hc => by simpa using hfree k c hc]
    simp
  have hdigits : (toString m).toList = (toString n).toList := by
    rw [← hspan m a, h, hspan]
  have hm := readInt_toString asciiUnicode m
  rw [hcast, hdigits, ← hcast, readInt_toString] at hm
  simpa using hm.symm

variable {sha256Hex : String → String} {command : IngestDocumentCommand}

/-- The key of a chunk tells its index. -/
theorem chunkKey_index {m n : ℕ} {a b : DocumentChunk}
    (h : chunkKey sha256Hex command m a = chunkKey sha256Hex command n b) : m = n := by
  have hkey : ∀ (k : ℕ) (c : DocumentChunk), ∃ rest : List Char,
      (chunkKey sha256Hex command k c).toList = "doc:".toList ++
        ((documentDigest sha256Hex command).toList ++ (":origin:".toList ++
          ((Text.take 16 (sha256Hex command.originUri)).toList ++ (":chunk:".toList ++
            ((toString k).toList ++ ':' :: rest))))) := by
    intro k c
    have hkey : chunkKey sha256Hex command k c = "doc:" ++ documentDigest sha256Hex command ++
        ":origin:" ++ Text.take 16 (sha256Hex command.originUri) ++ ":chunk:" ++
        toString k ++ ":" ++
          toString c.start ++ ":" ++ toString c.stop := rfl
    exact ⟨(toString c.start).toList ++ ':' :: (toString c.stop).toList, by simp [hkey]⟩
  obtain ⟨rest, hrest⟩ := hkey m a
  obtain ⟨rest', hrest'⟩ := hkey n b
  have hlist := congrArg String.toList h
  simp only [hrest, hrest', List.append_cancel_left_eq] at hlist
  exact toString_append_colon_inj hlist

/-- The key as the store keeps it. -/
def scopedChunkKey (sha256Hex : String → String) (command : IngestDocumentCommand) (index : ℕ)
    (chunk : DocumentChunk) : Option String :=
  scopeIdempotencyKey command.workspaceId (some (chunkKey sha256Hex command index chunk))

/-- Chunks with the same key have the same index. -/
theorem scopedChunkKey_index {m n : ℕ} {a b : DocumentChunk}
    (h : scopedChunkKey sha256Hex command m a = scopedChunkKey sha256Hex command n b) : m = n :=
  chunkKey_index (VaultExporter.scopeIdempotencyKey_inj h)

/-! ### One chunk -/

variable (sha256Hex command)

/-- The retention of one chunk on the in-memory store. -/
def retainChunk (env : Deployment) (d : Draws) (index : ℕ) (chunk : DocumentChunk)
    (x : InMemoryMemoryStore) : Except Exn RetainResult × InMemoryMemoryStore :=
  (RetentionService.retain inMemoryRetention env.privacy
    (chunkCommand sha256Hex command index chunk) none d).run x

/-- How the store answers one chunk. -/
inductive ChunkOutcome (env : Deployment) (d : Draws) (index : ℕ) (chunk : DocumentChunk)
    (x : InMemoryMemoryStore) : Except Exn RetainResult → InMemoryMemoryStore → Prop
  /-- The guard or the item's constructor raised. -/
  | unprepared (e : Exn)
      (prepared : prepare env.privacy (chunkCommand sha256Hex command index chunk) d = .error e) :
      ChunkOutcome env d index chunk x (.error e) x
  /-- The key was used before, and leads to a stored memory. -/
  | replayed (e : IdempotencyEntry) (i : MemoryItem)
      (entry : x.replayed command.tenantId (scopedChunkKey sha256Hex command index chunk) = some e)
      (mem : i ∈ x.items.rows) (id : i.id = e.itemId) :
      ChunkOutcome env d index chunk x (.ok ⟨i, false, []⟩) x
  /-- The prepared item was appended under the key. -/
  | stored (item : MemoryItem) (event : IntegrationEvent) (y : InMemoryMemoryStore)
      (unused : x.replayed command.tenantId (scopedChunkKey sha256Hex command index chunk) = none)
      (prepared : prepare env.privacy (chunkCommand sha256Hex command index chunk) d =
        .ok (item, event))
      (rows : y.items.rows = x.items.rows ++ [item])
      (keys : ∀ key, key ≠ scopedChunkKey sha256Hex command index chunk →
        y.replayed command.tenantId key = x.replayed command.tenantId key) :
      ChunkOutcome env d index chunk x (.ok ⟨item, true, [event.id]⟩) y

/-- Where every key leads to an item, a retention returns: the item of its key, or its own. -/
theorem retain_of_keyed {x : InMemoryMemoryStore} (hx : x.toLedger.Keyed) (item : MemoryItem)
    (event : IntegrationEvent) (key : Option String) (audit : Option AuditEvent) :
    (∃ e i, x.replayed item.tenantId (scopeIdempotencyKey item.workspaceId key) = some e ∧
      i ∈ x.items.rows ∧ i.id = e.itemId ∧ x.retain item event key audit = (.ok (i, false), x)) ∨
    (x.replayed item.tenantId (scopeIdempotencyKey item.workspaceId key) = none ∧
      ∃ y, x.retain item event key audit = (.ok (item, true), y) ∧
        x.tables.Writes ⟨item, event, scopeIdempotencyKey item.workspaceId key⟩ y.tables) := by
  cases hr : x.replayed item.tenantId (scopeIdempotencyKey item.workspaceId key) with
  | some e =>
    obtain ⟨k, -, hk⟩ := Option.bind_eq_some_iff.mp hr
    obtain ⟨i, hi, hid, -⟩ := hx e (Table.find_eq_some.mp hk).1
    have hfind : x.items.find e.itemId = some i := Table.find_eq_some.mpr ⟨hi, hid⟩
    exact .inl ⟨e, i, rfl, hi, hid, by
      simp [InMemoryMemoryStore.retain, append, hr, itemAt, hfind, Except.map]⟩
  | none =>
    refine .inr ⟨rfl, ((x.putItem item (scopeIdempotencyKey item.workspaceId key)).publish
      event).appendAuditEvent audit, by simp [InMemoryMemoryStore.retain, append, hr], ?_⟩
    rw [appendAuditEvent_tables]
    exact publish_putItem_writes ..

/-- A chunk is either found under its key, retained anew or refused. -/
theorem retainChunk_outcome (env : Deployment) {x : InMemoryMemoryStore} (hx : x.toLedger.Keyed)
    {d : Draws} (hd : d.Fresh 2 x.usedIds) (index : ℕ) (chunk : DocumentChunk) :
    ChunkOutcome sha256Hex command env d index chunk x
      (retainChunk sha256Hex command env d index chunk x).1
      (retainChunk sha256Hex command env d index chunk x).2 := by
  rw [retainChunk]
  obtain ⟨e, hp, h⟩ | ⟨item, event, hp, a, h⟩ := RetentionService.run_retain env.privacy
    inMemoryRetention d x (chunkCommand sha256Hex command index chunk) none
  · rw [h]
    exact .unprepared e hp
  obtain ⟨hid, heid, -, -, htenant, hworkspace, -, -⟩ := prepare_eq_ok hp
  have houtcome := retain_of_keyed hx item event
    (chunkCommand sha256Hex command index chunk).idempotencyKey a
  have hkey : scopeIdempotencyKey (chunkCommand sha256Hex command index chunk).workspaceId
      (chunkCommand sha256Hex command index chunk).idempotencyKey =
        scopedChunkKey sha256Hex command index chunk := rfl
  rw [htenant, hworkspace, hkey] at houtcome
  rw [h]
  simp only [inMemoryRetention]
  obtain ⟨e, i, hentry, hi, hi', hrun⟩ | ⟨hunused, y, hrun, hwrites⟩ := houtcome
  · rw [hrun]
    exact .replayed e i hentry hi hi'
  · rw [hrun]
    refine .stored item event y hunused hp ?_ ?_
    · have hitems : y.items = x.items.put item := hwrites.items
      rw [hitems, Table.rows_put_of_fresh (hid ▸ hd.item (by omega))]
    · exact fun key hkey => replayed_of_writes hwrites hkey _

/-! ### All chunks -/

/-- Every chunk, from the index `n` on, draws new identifiers. -/
def FreshChunks (env : Deployment) (d : ℕ → Draws) :
    ℕ → List DocumentChunk → InMemoryMemoryStore → Prop
  | _, [], _ => True
  | n, chunk :: rest, x =>
    (d n).Fresh 2 x.usedIds ∧
      FreshChunks env d (n + 1) rest (retainChunk sha256Hex command env (d n) n chunk x).2

/-- How a chunk was answered by a run from `x` to `t`. -/
inductive Answered (env : Deployment) (x t : InMemoryMemoryStore) (index : ℕ)
    (chunk : DocumentChunk) : RetainResult → Prop
  | replayed (e : IdempotencyEntry) (i : MemoryItem)
      (entry : x.replayed command.tenantId (scopedChunkKey sha256Hex command index chunk) = some e)
      (mem : i ∈ t.items.rows) (id : i.id = e.itemId) :
      Answered env x t index chunk ⟨i, false, []⟩
  | stored (d : Draws) (item : MemoryItem) (event : IntegrationEvent)
      (unused : x.replayed command.tenantId (scopedChunkKey sha256Hex command index chunk) = none)
      (prepared : prepare env.privacy (chunkCommand sha256Hex command index chunk) d =
        .ok (item, event))
      (mem : item ∈ t.items.rows) (new : item ∉ x.items.rows) :
      Answered env x t index chunk ⟨item, true, [event.id]⟩

/-- One retention leads from a reachable store to a reachable store. -/
theorem retainChunk_reachable {env : Deployment} {x : InMemoryMemoryStore}
    (hx : Reachable env x) {d : Draws} (hd : d.Fresh 2 x.usedIds)
    (index : ℕ) (chunk : DocumentChunk) :
    Reachable env (retainChunk sha256Hex command env d index chunk x).2 := by
  have hstep := Reachable.step (.retain (chunkCommand sha256Hex command index chunk) none) d hx hd
  simpa [Operation.run, Operation.program, MemoryOperation.program, inMemoryStores, Proc.run_wrap,
    retainChunk] using hstep

variable {sha256Hex command} {env : Deployment} {x y t : InMemoryMemoryStore}

/-- What the chunks of a document meet when a run returns. -/
structure Ingested (sha256Hex : String → String) (command : IngestDocumentCommand)
    (env : Deployment) (x t : InMemoryMemoryStore) (n : ℕ) (chunks : List DocumentChunk)
    (results : List RetainResult) : Prop where
  reachable : Reachable env t
  rows : t.items.rows = x.items.rows ++ (results.filter fun r => r.created).map fun r => r.item
  length : results.length = chunks.length
  answered : ∀ k chunk result, chunks[k]? = some chunk → results[k]? = some result →
    Answered sha256Hex command env x t (n + k) chunk result

/-- An answer seen from before an earlier chunk. -/
theorem Answered.before {index : ℕ} {chunk : DocumentChunk} {result : RetainResult}
    (h : Answered sha256Hex command env y t index chunk result)
    (hkey : y.replayed command.tenantId (scopedChunkKey sha256Hex command index chunk) =
      x.replayed command.tenantId (scopedChunkKey sha256Hex command index chunk))
    (hkept : ∀ i ∈ x.items.rows, i ∈ y.items.rows) :
    Answered sha256Hex command env x t index chunk result := by
  cases h with
  | replayed e i entry mem id => exact .replayed e i (hkey ▸ entry) mem id
  | stored d item event unused prepared mem new =>
    exact .stored d item event (hkey ▸ unused) prepared mem fun hi => new (hkept item hi)

/-- A run over the chunks that returns has answered each of them. -/
theorem retainChunks_ingested {d : ℕ → Draws} {n : ℕ} {chunks : List DocumentChunk}
    {results : List RetainResult} (hx : Reachable env x)
    (hd : FreshChunks sha256Hex command env d n chunks x)
    (h : (retainChunks sha256Hex inMemoryRetention env.privacy command d n chunks).run x =
      (.ok results, t)) : Ingested sha256Hex command env x t n chunks results := by
  induction chunks generalizing n x results with
  | nil =>
    cases h
    exact ⟨hx, by simp, rfl, fun k chunk _ hk => by simp at hk⟩
  | cons chunk rest ih =>
    rw [retainChunks] at h
    obtain ⟨result, y, hfirst, h⟩ := Proc.run_bind_ok.mp h
    obtain ⟨others, z, hothers, h⟩ := Proc.run_bind_ok.mp h
    cases h
    obtain ⟨hfresh, hrest⟩ := hd
    have hy := retainChunk_reachable sha256Hex command hx hfresh n chunk
    have hout := retainChunk_outcome sha256Hex command env hx.consistent.keyed hfresh n chunk
    have hround : retainChunk sha256Hex command env (d n) n chunk x = (.ok result, y) := hfirst
    rw [hround] at hrest hy hout
    dsimp only at hrest hy hout
    have hin := ih hy hrest hothers
    have hlater : ∀ k later, y.replayed command.tenantId
          (scopedChunkKey sha256Hex command (n + 1 + k) later) =
        x.replayed command.tenantId (scopedChunkKey sha256Hex command (n + 1 + k) later) := by
      intro k later
      cases hout with
      | replayed => rfl
      | stored _ _ _ _ _ _ keys =>
        apply keys
        intro heq
        have hindex := scopedChunkKey_index heq
        omega
    have hmem : ∀ i ∈ y.items.rows, i ∈ t.items.rows := by
      intro i hi
      rw [hin.rows]
      exact List.mem_append_left _ hi
    refine ⟨hin.reachable, ?_, by rw [List.length_cons, hin.length, List.length_cons], ?_⟩
    · rw [hin.rows]
      cases hout with
      | replayed => rfl
      | stored _ _ _ _ _ hrows _ => simp [hrows]
    · intro k c r hc hr
      cases k with
      | zero =>
        cases hc
        cases hr
        rw [Nat.add_zero]
        cases hout with
        | replayed e i entry mem id => exact .replayed e i entry (hmem i mem) id
        | stored item event _ unused prepared hrows _ =>
          refine .stored (d n) item event unused prepared (hmem item (by simp [hrows])) fun hi => ?_
          have hnodup := y.items.nodup.of_map
          rw [hrows, List.nodup_append] at hnodup
          exact hnodup.2.2 item hi item (List.mem_singleton.mpr rfl) rfl
      | succ k =>
        have hanswer := hin.answered k c r hc hr
        rw [show n + 1 + k = n + (k + 1) by omega] at hanswer
        refine hanswer.before ?_ ?_
        · rw [show n + (k + 1) = n + 1 + k by omega]
          exact hlater k c
        · intro i hi
          cases hout with
          | replayed => exact hi
          | stored _ _ _ _ _ hrows _ =>
            rw [hrows]
            exact List.mem_append_left _ hi

/-- Ingestion removes no memory. -/
theorem Ingested.kept {n : ℕ} {chunks : List DocumentChunk} {results : List RetainResult}
    (h : Ingested sha256Hex command env x t n chunks results) :
    ∀ i ∈ x.items.rows, i ∈ t.items.rows := by
  intro i hi
  rw [h.rows]
  exact List.mem_append_left _ hi

/-- What an ingestion returns, in terms of its chunks. -/
theorem ingestText_ingested {d : ℕ → Draws} {r : IngestResult} (hx : Reachable env x)
    (hd : FreshChunks sha256Hex command env d 0 command.chunks x)
    (h : (ingestText sha256Hex inMemoryRetention env.privacy command d).run x = (.ok r, t)) :
    ∃ results, Ingested sha256Hex command env x t 0 command.chunks results ∧
      r.memoryIds = results.map fun result => result.item.id := by
  rw [ingestText] at h
  obtain ⟨results, y, hresults, h⟩ := Proc.run_bind_ok.mp h
  cases h
  exact ⟨results, retainChunks_ingested hx hd hresults, rfl⟩

/-! ### What a request is answered with -/

/-- The memory has the boundary, scope and thread of the request and the guarded text of the
chunk. -/
structure AskedFor (privacy : PrivacyGuard) (command : IngestDocumentCommand)
    (chunk : DocumentChunk) (item : MemoryItem) : Prop where
  tenant : item.tenantId = command.tenantId
  workspace : item.workspaceId = command.workspaceId
  scope : item.scope = requestedScope command
  thread : item.threadId = command.threadId
  text : (privacy.apply chunk.text).map PrivacyDecision.text = .ok item.text

/-- Whatever the store holds under the key of the chunk has the requested scope and thread and the
guarded text of the chunk. -/
def KeyFits (sha256Hex : String → String) (privacy : PrivacyGuard)
    (command : IngestDocumentCommand) (x : InMemoryMemoryStore) (index : ℕ)
    (chunk : DocumentChunk) : Prop :=
  ∀ e, x.replayed command.tenantId (scopedChunkKey sha256Hex command index chunk) = some e →
    ∀ item ∈ x.items.rows, item.id = e.itemId →
      item.scope = requestedScope command ∧ item.threadId = command.threadId ∧
        (privacy.apply chunk.text).map PrivacyDecision.text = .ok item.text

/-- A key leads to a stored memory of its own tenant and workspace. -/
theorem keyed_boundary (hx : x.toLedger.Keyed) {tenantId workspaceId : UUID} {key : String}
    {e : IdempotencyEntry}
    (h : x.replayed tenantId (scopeIdempotencyKey workspaceId (some key)) = some e) :
    ∃ i ∈ x.items.rows, i.id = e.itemId ∧ i.tenantId = tenantId ∧ i.workspaceId = workspaceId := by
  obtain ⟨k, hk, hfind⟩ := Option.bind_eq_some_iff.mp h
  obtain ⟨he, hkey⟩ := Table.find_eq_some.mp hfind
  obtain ⟨i, hi, hid, htenant, raw, hraw⟩ := hx e he
  have hcommand : e.tenantId = tenantId := congrArg Prod.fst hkey
  have hscoped : e.key = k := congrArg Prod.snd hkey
  rw [← hscoped, hraw] at hk
  have hworkspace := VaultExporter.scopeIdempotencyKey_workspace hk
  exact ⟨i, hi, hid, htenant.trans hcommand, hworkspace.symm⟩

/-- A chunk gets what was asked for, unless its key leads to something else. -/
theorem Answered.askedFor_iff {index : ℕ} {chunk : DocumentChunk} {result : RetainResult}
    (h : Answered sha256Hex command env x t index chunk result) (hx : x.toLedger.Keyed)
    (hkept : ∀ i ∈ x.items.rows, i ∈ t.items.rows) :
    (∃ item, t.get command.tenantId result.item.id = some item ∧
        AskedFor env.privacy command chunk item) ↔
      KeyFits sha256Hex env.privacy command x index chunk := by
  cases h with
  | replayed e i entry mem id =>
    have hscoped := entry
    rw [scopedChunkKey] at hscoped
    obtain ⟨j, hj, hjd, htenant, hworkspace⟩ := keyed_boundary hx hscoped
    obtain rfl : j = i := t.items.eq_of_key_eq (hkept j hj) mem (hjd.trans id.symm)
    have hget : t.get command.tenantId j.id = some j :=
      Ledger.get_eq_some.mpr ⟨mem, rfl, htenant⟩
    constructor
    · rintro ⟨item, hitem, hasked⟩ e' he' other hother hid
      rw [hget] at hitem
      cases hitem
      rw [entry] at he'
      cases he'
      obtain rfl : other = j := x.items.eq_of_key_eq hother hj (hid.trans hjd.symm)
      exact ⟨hasked.scope, hasked.thread, hasked.text⟩
    · intro hall
      obtain ⟨hscope, hthread, htext⟩ := hall e entry j hj hjd
      exact ⟨j, hget, htenant, hworkspace, hscope, hthread, htext⟩
  | stored d item event unused prepared mem _ =>
    obtain ⟨-, -, -, -, htenant, hworkspace, -, -⟩ := prepare_eq_ok prepared
    obtain ⟨hscope, hthread, htext⟩ := prepare_asked prepared
    apply iff_of_true
    · exact ⟨item, Ledger.get_eq_some.mpr ⟨mem, rfl, htenant⟩, htenant, hworkspace, hscope, hthread,
        htext⟩
    · intro e he
      rw [unused] at he
      cases he

/-- An ingestion returns what was asked for exactly if each chunk whose key was used before finds a
memory of the requested scope and thread with its own guarded text there. -/
theorem ingestion_respects_scope_iff (sha256Hex : String → String) (env : Deployment)
    (command : IngestDocumentCommand) (d : ℕ → Draws) (s t : InMemoryMemoryStore)
    (r : IngestResult) (hs : Reachable env s)
    (hd : FreshChunks sha256Hex command env d 0 command.chunks s)
    (h : (ingestText sha256Hex inMemoryRetention env.privacy command d).run s = (.ok r, t)) :
    List.Forall₂ (fun id chunk => ∃ item, t.get command.tenantId id = some item ∧
        AskedFor env.privacy command chunk item) r.memoryIds command.chunks ↔
      ∀ k chunk, command.chunks[k]? = some chunk →
        KeyFits sha256Hex env.privacy command s k chunk := by
  obtain ⟨results, hin, hids⟩ := ingestText_ingested hs hd h
  rw [hids, List.forall₂_map_left_iff]
  refine List.forall₂_iff_of_getElem? hin.length fun k result chunk hr hc => ?_
  have hanswer := hin.answered k chunk result hc hr
  rw [Nat.zero_add] at hanswer
  exact hanswer.askedFor_iff hs.consistent.keyed hin.kept

/-- A plan with a checksum of its own. -/
def planFields : IngestFields where
  tenantId := .ofNat 1
  workspaceId := .ofNat 2
  text := "plan"
  originUri := "file:plan"
  documentChecksum := some "c1"

/-- The fields of the example pass their validation. -/
theorem planFields_valid : planFields.postInit = .ok () := by decide

/-- The plan, to be ingested for a thread. -/
def planDocument (thread : ℕ) : IngestDocumentCommand :=
  { planFields with threadId := some (.ofNat thread), valid := planFields_valid }

/-- The digest of the origin of the plan. -/
def planDigest (_ : String) : String :=
  "9953b2ee1236f6e1a6a8c2abc8b014b0efe8bd7a95974ef5d8a7d44431fc9454"

/-- The plan ingested for a thread, with the given identifiers. -/
def ingestPlan (thread base : ℕ) (x : InMemoryMemoryStore) :
    Except Exn IngestResult × InMemoryMemoryStore :=
  (ingestText planDigest inMemoryRetention (plainDeployment (.ofNat 0)).privacy
    (planDocument thread) fun _ => drawsFrom base).run x

/-- The store after the plan was ingested for thread 5. -/
def planStore : InMemoryMemoryStore := (ingestPlan 5 10 .empty).2

/-- The example's document is one chunk. -/
theorem planDocument_chunks (thread : ℕ) :
    (planDocument thread).chunks = [⟨0, 4, "plan"⟩] := by
  rw [IngestDocumentCommand.chunks]
  change TextChunker.split "plan" 2400 240 = _
  decide +kernel

/-- The example's first ingestion retains its chunk. -/
theorem planRun : ingestPlan 5 10 .empty = (.ok ⟨"c1", [.ofNat 10], 1⟩, planStore) := by
  refine Prod.ext ?_ rfl
  rw [ingestPlan, ingestText, planDocument_chunks]
  decide +kernel

/-- The example's draws are fresh for its chunk. -/
theorem planRun_fresh : FreshChunks planDigest (planDocument 5) (plainDeployment (.ofNat 0))
    (fun _ => drawsFrom 10) 0 (planDocument 5).chunks .empty := by
  rw [planDocument_chunks]
  exact ⟨by decide +kernel, trivial⟩

/-- The example's store is reached by its ingestion. -/
theorem planStore_reachable : Reachable (plainDeployment (.ofNat 0)) planStore := by
  obtain ⟨results, hin, -⟩ := ingestText_ingested .empty planRun_fresh planRun
  exact hin.reachable

/-- The same plan, ingested for thread 6, is answered with the memory of thread 5. -/
theorem ingestion_returns_other_thread :
    Reachable (plainDeployment (.ofNat 0)) planStore ∧
      (ingestPlan 6 20 planStore).1 = .ok ⟨"c1", [.ofNat 10], 0⟩ ∧
      ¬ List.Forall₂ (fun id chunk => ∃ item,
          (ingestPlan 6 20 planStore).2.get (.ofNat 1) id = some item ∧
            AskedFor (plainDeployment (.ofNat 0)).privacy (planDocument 6) chunk item)
        [.ofNat 10] (planDocument 6).chunks := by
  have hrun : (ingestPlan 6 20 planStore).1 = .ok ⟨"c1", [.ofNat 10], 0⟩ ∧
      ∀ i ∈ (ingestPlan 6 20 planStore).2.items.rows, i.threadId ≠ some (.ofNat 6) := by
    rw [planStore, ingestPlan, ingestPlan, ingestText, ingestText, planDocument_chunks,
      planDocument_chunks]
    decide +kernel
  refine ⟨planStore_reachable, hrun.1, fun hall => ?_⟩
  rw [planDocument_chunks] at hall
  obtain ⟨⟨item, hitem, hasked⟩, -⟩ := List.forall₂_cons.mp hall
  exact hrun.2 item (Ledger.get_eq_some.mp hitem).1 hasked.thread

/-- The plan ingested again for thread 5: the memory of the first time is what it asks for. -/
theorem ingestion_respects_scope_again :
    (ingestPlan 5 20 planStore).1 = .ok ⟨"c1", [.ofNat 10], 0⟩ ∧
      List.Forall₂ (fun id chunk => ∃ item,
          (ingestPlan 5 20 planStore).2.get (.ofNat 1) id = some item ∧
            AskedFor (plainDeployment (.ofNat 0)).privacy (planDocument 5) chunk item)
        [.ofNat 10] (planDocument 5).chunks := by
  have hrun : (ingestPlan 5 20 planStore).1 = .ok ⟨"c1", [.ofNat 10], 0⟩ := by
    rw [planStore, ingestPlan, ingestPlan, ingestText, planDocument_chunks]
    decide +kernel
  have hfresh : FreshChunks planDigest (planDocument 5) (plainDeployment (.ofNat 0))
      (fun _ => drawsFrom 20) 0 (planDocument 5).chunks planStore := by
    rw [planStore, ingestPlan, ingestText, planDocument_chunks]
    exact ⟨by decide +kernel, trivial⟩
  have hstored : ∀ item ∈ planStore.items.rows,
      item.scope = requestedScope (planDocument 5) ∧
        item.threadId = (planDocument 5).threadId ∧
        ((plainDeployment (.ofNat 0)).privacy.apply "plan").map PrivacyDecision.text =
          .ok item.text := by
    rw [planStore, ingestPlan, ingestText, planDocument_chunks]
    decide +kernel
  refine ⟨hrun, (ingestion_respects_scope_iff planDigest (plainDeployment (.ofNat 0))
    (planDocument 5) (fun _ => drawsFrom 20) planStore (ingestPlan 5 20 planStore).2
    ⟨"c1", [.ofNat 10], 0⟩ planStore_reachable hfresh (Prod.ext hrun rfl)).mpr ?_⟩
  intro k chunk hchunk e _ item hitem _
  rw [planDocument_chunks] at hchunk
  obtain rfl : chunk = ⟨0, 4, "plan"⟩ := List.mem_singleton.mp (List.mem_of_getElem? hchunk)
  exact hstored item hitem

/-! ### What the guard sees -/

/-- The characters of a finding. -/
def rawText (chunk : String) (f : PrivacyFinding) : List Char :=
  PrivacyGuard.slice chunk.toList f.start f.stop

/-- Text and quote are what the guard made of the chunk, and show no finding. -/
structure GuardedItem (g : PrivacyGuard) (chunk : String) (item : MemoryItem) : Prop where
  text : (g.apply chunk).map PrivacyDecision.text = .ok item.text
  quote : ∀ q, item.provenance.quote = some q →
    (g.apply chunk).map PrivacyDecision.text = .ok q
  textClean : ∀ f ∈ g.scan chunk, ¬ rawText chunk f <:+: item.text.toList
  quoteClean : ∀ f ∈ g.scan chunk, ∀ q, item.provenance.quote = some q →
    ¬ rawText chunk f <:+: q.toList

/-- The quote of a prepared chunk is the chunk itself, so it is guarded only without findings. -/
theorem guardedItem_iff {d : Draws} {index : ℕ} {chunk : DocumentChunk} {item : MemoryItem}
    {event : IntegrationEvent}
    (h : prepare env.privacy (chunkCommand sha256Hex command index chunk) d = .ok (item, event)) :
    GuardedItem env.privacy chunk.text item ↔ env.privacy.scan chunk.text = [] := by
  obtain ⟨-, -, -, -, -, -, hprovenance, -⟩ := prepare_eq_ok h
  obtain ⟨-, -, htext⟩ := prepare_asked h
  have hquote : item.provenance.quote = some chunk.text := by
    rw [hprovenance]
    rfl
  constructor
  · intro hguarded
    by_contra hne
    obtain ⟨f, hf⟩ := List.exists_mem_of_ne_nil _ hne
    apply hguarded.quoteClean f hf chunk.text hquote
    exact (List.take_prefix _ _).isInfix.trans (List.drop_suffix _ _).isInfix
  · intro hscan
    refine ⟨htext, fun q hq => ?_, fun f hf => ?_, fun f hf => ?_⟩
    · rw [hquote, Option.some.injEq] at hq
      rw [← hq]
      exact PrivacyGuard.apply_of_no_findings hscan
    · rw [hscan] at hf
      cases hf
    · rw [hscan] at hf
      cases hf

/-- A guard that does not reject lets every chunk be prepared. -/
theorem exists_prepare_chunk (haction : env.privacy.action ≠ .reject) {chunk : DocumentChunk}
    (hchunk : Text.isBlank chunk.text = false) (index : ℕ) (d : Draws) :
    ∃ r, prepare env.privacy (chunkCommand sha256Hex command index chunk) d = .ok r := by
  obtain ⟨decision, hdecision⟩ := PrivacyGuard.exists_apply haction chunk.text
  have happly : env.privacy.apply (chunkCommand sha256Hex command index chunk).text =
      .ok decision := hdecision
  have hblank := PrivacyGuard.apply_not_blank hdecision hchunk
  apply exists_prepare d happly hblank
  · exact ⟨by norm_num [chunkCommand], by norm_num [chunkCommand]⟩
  · exact ⟨by norm_num [chunkCommand], by norm_num [chunkCommand]⟩
  · intro hscope
    simp only [chunkCommand, requestedScope] at hscope ⊢
    split at hscope
    · rename_i hthread
      exact Option.isSome_iff_ne_none.mp hthread
    · cases hscope
  · intro hscope
    simp only [chunkCommand, requestedScope] at hscope
    split at hscope <;> cases hscope
  · intro hstatus
    cases hstatus

/-- With such a guard a run over chunks returns. -/
theorem retainChunks_returns (haction : env.privacy.action ≠ .reject) {d : ℕ → Draws} {n : ℕ}
    {chunks : List DocumentChunk} (hchunks : ∀ c ∈ chunks, Text.isBlank c.text = false)
    (hx : Reachable env x) (hd : FreshChunks sha256Hex command env d n chunks x) :
    ∃ results t, (retainChunks sha256Hex inMemoryRetention env.privacy command d n chunks).run x =
      (.ok results, t) := by
  induction chunks generalizing n x with
  | nil => exact ⟨[], x, rfl⟩
  | cons chunk rest ih =>
    obtain ⟨hfresh, hrest⟩ := hd
    have hy := retainChunk_reachable sha256Hex command hx hfresh n chunk
    obtain ⟨r, hr⟩ := exists_prepare_chunk haction (hchunks chunk (List.mem_cons_self ..)) n (d n)
    have hout := retainChunk_outcome sha256Hex command env hx.consistent.keyed hfresh n chunk
    obtain ⟨result, hresult⟩ : ∃ result,
        (retainChunk sha256Hex command env (d n) n chunk x).1 = .ok result := by
      generalize retainChunk sha256Hex command env (d n) n chunk x = round at hout
      obtain ⟨first, y⟩ := round
      cases hout with
      | unprepared e prepared =>
        rw [hr] at prepared
        cases prepared
      | replayed | stored => exact ⟨_, rfl⟩
    obtain ⟨results, t, hrun⟩ := ih (fun c hc => hchunks c (List.mem_cons_of_mem _ hc)) hy hrest
    refine ⟨result :: results, t, ?_⟩
    rw [retainChunks, Proc.run_bind_ok]
    refine ⟨result, _, Prod.ext hresult rfl, ?_⟩
    rw [Proc.run_bind_ok]
    exact ⟨results, t, hrun, rfl⟩

/-- Ingestion under a redacting or withholding guard returns, and what it newly stores is guarded
exactly if the guard finds nothing in the chunks whose keys were unused. -/
theorem ingestion_guarded_iff (sha256Hex : String → String) (env : Deployment)
    (command : IngestDocumentCommand) (d : ℕ → Draws) (s : InMemoryMemoryStore)
    (hs : Reachable env s) (hd : FreshChunks sha256Hex command env d 0 command.chunks s)
    (haction : env.privacy.action = .redact ∨ env.privacy.action = .metadataOnly) :
    ∃ r t, (ingestText sha256Hex inMemoryRetention env.privacy command d).run s = (.ok r, t) ∧
      (∀ item ∈ t.items.rows, item ∈ s.items.rows ∨ item.id ∈ r.memoryIds) ∧
      ((∀ (k : ℕ) (chunk : DocumentChunk) (id : UUID) (item : MemoryItem),
          command.chunks[k]? = some chunk → r.memoryIds[k]? = some id →
          t.get command.tenantId id = some item → item ∉ s.items.rows →
          GuardedItem env.privacy chunk.text item) ↔
        ∀ k chunk, command.chunks[k]? = some chunk →
          s.replayed command.tenantId (scopedChunkKey sha256Hex command k chunk) = none →
          env.privacy.scan chunk.text = []) := by
  have hnot : env.privacy.action ≠ .reject := by
    rintro heq
    rw [heq] at haction
    obtain h | h := haction <;> cases h
  have hchunks : ∀ c ∈ command.chunks, Text.isBlank c.text = false := by
    intro c hc
    rw [IngestDocumentCommand.chunks] at hc
    exact TextChunker.not_blank_of_mem_splitFrom hc
  obtain ⟨results, t, hrun⟩ := retainChunks_returns hnot hchunks hs hd
  have hin := retainChunks_ingested hs hd hrun
  refine ⟨⟨documentDigest sha256Hex command, results.map fun r => r.item.id,
    (results.filter fun r => r.created).length⟩, t, ?_, ?_, ?_⟩
  · rw [ingestText, Proc.run_bind_ok]
    exact ⟨results, t, hrun, rfl⟩
  · intro item hitem
    rw [hin.rows] at hitem
    obtain hold | hnew := List.mem_append.mp hitem
    · exact .inl hold
    · obtain ⟨result, hresult, rfl⟩ := List.mem_map.mp hnew
      exact .inr (List.mem_map.mpr ⟨result, List.mem_of_mem_filter hresult, rfl⟩)
  · constructor
    · intro hall k chunk hc hunused
      have hlt : k < results.length := by
        rw [hin.length]
        exact (List.getElem?_eq_some_iff.mp hc).1
      have hr := List.getElem?_eq_getElem hlt
      have hanswer := hin.answered k chunk _ hc hr
      rw [Nat.zero_add] at hanswer
      generalize results[k] = result at hr hanswer
      cases hanswer with
      | replayed e i entry =>
        rw [hunused] at entry
        cases entry
      | stored _ item event _ prepared mem new =>
        obtain ⟨-, -, -, -, htenant, -, -, -⟩ := prepare_eq_ok prepared
        have hid : (results.map fun r => r.item.id)[k]? = some item.id := by
          rw [List.getElem?_map, hr]
          rfl
        have hguarded := hall k chunk item.id item hc hid
          (Ledger.get_eq_some.mpr ⟨mem, rfl, htenant⟩) new
        exact (guardedItem_iff prepared).mp hguarded
    · intro hall k chunk id item hc hid hget hnew
      rw [List.getElem?_map, Option.map_eq_some_iff] at hid
      obtain ⟨result, hr, rfl⟩ := hid
      have hanswer := hin.answered k chunk result hc hr
      rw [Nat.zero_add] at hanswer
      obtain ⟨hitem, hsame, -⟩ := Ledger.get_eq_some.mp hget
      cases hanswer with
      | replayed e i entry mem id =>
        have hscoped := entry
        rw [scopedChunkKey] at hscoped
        obtain ⟨j, hj, hjd, -⟩ := keyed_boundary hs.consistent.keyed hscoped
        have hji := t.items.eq_of_key_eq (hin.kept j hj) hitem
          (hjd.trans (id.symm.trans hsame.symm))
        rw [hji] at hj
        exact absurd hj hnew
      | stored _ stored event unused prepared mem _ =>
        obtain rfl : item = stored := t.items.eq_of_key_eq hitem mem hsame
        exact (guardedItem_iff prepared).mpr (hall k chunk hc unused)

/-- The spans of `\d{3}-\d{2}-\d{4}` between word boundaries, in an ASCII text. -/
def ssnSpans (text : List Char) : List (ℕ × ℕ) :=
  ((List.range text.length).filter fun i =>
    (((text.drop i).take 11).map fun c => if c.isDigit then 'd' else c) = "ddd-dd-dddd".toList &&
      (i = 0 || !((text.drop (i - 1)).take 1).any Char.isAlphanum) &&
      !((text.drop (i + 11)).take 1).any Char.isAlphanum).map fun i => (i, i + 11)

/-- A redacting guard with the detector of social security numbers. -/
def ssnGuard : PrivacyGuard := { detectors := [⟨"ssn", ssnSpans, fun _ => true⟩] }

/-- A deployment with that guard. -/
def ssnDeployment : Deployment := { plainDeployment (.ofNat 0) with privacy := ssnGuard }

/-- The fields of a note with a social security number. -/
def ssnFields : IngestFields where
  tenantId := .ofNat 1
  workspaceId := .ofNat 2
  text := "ssn 123-45-6789"
  originUri := "file:plan"
  documentChecksum := some "c2"

/-- The note. -/
def ssnDocument : IngestDocumentCommand := ⟨ssnFields, by decide⟩

/-- The document with the number is one chunk. -/
theorem ssnDocument_chunks : ssnDocument.chunks = [⟨0, 15, "ssn 123-45-6789"⟩] := by
  rw [IngestDocumentCommand.chunks]
  change TextChunker.split "ssn 123-45-6789" 2400 240 = _
  decide +kernel

/-- The draws for the document with the number are fresh. -/
theorem ssnDocument_fresh : FreshChunks planDigest ssnDocument ssnDeployment
    (fun _ => drawsFrom 10) 0 ssnDocument.chunks .empty := by
  rw [ssnDocument_chunks]
  exact ⟨by decide +kernel, trivial⟩

/-- The note ingested into the empty store. -/
def ingestSsn : Except Exn IngestResult × InMemoryMemoryStore :=
  (ingestText planDigest inMemoryRetention ssnDeployment.privacy ssnDocument fun _ =>
    drawsFrom 10).run .empty

/-- The text is stored redacted and the quote as it came. -/
theorem ingestion_stores_raw_quote :
    ingestSsn.1 = .ok ⟨"c2", [.ofNat 10], 1⟩ ∧
      ¬ ∀ (k : ℕ) (chunk : DocumentChunk) (id : UUID) (item : MemoryItem),
        ssnDocument.chunks[k]? = some chunk → [UUID.ofNat 10][k]? = some id →
        ingestSsn.2.get (.ofNat 1) id = some item →
        item ∉ InMemoryMemoryStore.empty.items.rows →
        GuardedItem ssnDeployment.privacy chunk.text item := by
  have hrun : ingestSsn.1 = .ok ⟨"c2", [.ofNat 10], 1⟩ ∧
      (ingestSsn.2.get (.ofNat 1) (.ofNat 10)).map (fun i => i.provenance.quote) =
        some (some "ssn 123-45-6789") := by
    rw [ingestSsn, ingestText, ssnDocument_chunks]
    decide +kernel
  have hguard : (ssnDeployment.privacy.apply "ssn 123-45-6789").map PrivacyDecision.text =
      .ok "ssn [REDACTED:ssn]" := by decide +kernel
  refine ⟨hrun.1, fun hall => ?_⟩
  obtain ⟨item, hget, hquote⟩ := Option.map_eq_some_iff.mp hrun.2
  have hguarded := (hall 0 _ _ item (by rw [ssnDocument_chunks]; rfl) rfl hget
    List.not_mem_nil).quote _ hquote
  rw [hguard] at hguarded
  exact absurd hguarded (by decide)

/-- The store after the document with the number is reachable. -/
theorem ingestSsn_reachable : Reachable ssnDeployment ingestSsn.2 := by
  have hrun : ingestSsn.1 = .ok ⟨"c2", [.ofNat 10], 1⟩ := by
    rw [ingestSsn, ingestText, ssnDocument_chunks]
    decide +kernel
  obtain ⟨results, hin, -⟩ := ingestText_ingested .empty ssnDocument_fresh (Prod.ext hrun rfl)
  exact hin.reachable

/-- The plan ingested beside the note: nothing is found in it, and its memory is guarded. -/
theorem ingestion_guarded_of_plan :
    ∃ r t, (ingestText planDigest inMemoryRetention ssnDeployment.privacy (planDocument 5) fun _ =>
        drawsFrom 20).run ingestSsn.2 = (.ok r, t) ∧
      (∀ item ∈ t.items.rows, item ∈ ingestSsn.2.items.rows ∨ item.id ∈ r.memoryIds) ∧
      ∀ (k : ℕ) (chunk : DocumentChunk) (id : UUID) (item : MemoryItem),
        (planDocument 5).chunks[k]? = some chunk → r.memoryIds[k]? = some id →
        t.get (.ofNat 1) id = some item → item ∉ ingestSsn.2.items.rows →
        GuardedItem ssnDeployment.privacy chunk.text item := by
  have hfresh : FreshChunks planDigest (planDocument 5) ssnDeployment (fun _ => drawsFrom 20) 0
      (planDocument 5).chunks ingestSsn.2 := by
    rw [ingestSsn, ingestText, ssnDocument_chunks, planDocument_chunks]
    exact ⟨by decide +kernel, trivial⟩
  obtain ⟨r, t, hrun, hrows, hguarded⟩ := ingestion_guarded_iff planDigest ssnDeployment
    (planDocument 5) (fun _ => drawsFrom 20) ingestSsn.2 ingestSsn_reachable hfresh (.inl rfl)
  refine ⟨r, t, hrun, hrows, hguarded.mpr ?_⟩
  intro k chunk hchunk _
  rw [planDocument_chunks] at hchunk
  obtain rfl : chunk = ⟨0, 4, "plan"⟩ := List.mem_singleton.mp (List.mem_of_getElem? hchunk)
  decide +kernel

end MemoryPlane
