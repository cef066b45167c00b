import MemoryPlane.Domain.Models
import MemoryPlane.Lib.Table

/-!
# API key registry

Metadata of API keys and the two repositories that keep it. In memory the records are kept under
their identifiers and looked up by scanning; the database keeps one row for each fingerprint of a
tenant. Both are described by what they do to the list of records of one fingerprint.
-/

namespace MemoryPlane

/-- Metadata for one configured API key without storing its secret. -/
structure ApiKeyRecord where
  tenantId : UUID
  name : String
  secretFingerprint : String
  scopes : List String
  id : UUID
  createdAt : DateTime
  lastUsedAt : Option DateTime
  revokedAt : Option DateTime
  revokedReason : String
  name_given : Text.isBlank name = false
  fingerprint_given : Text.isBlank secretFingerprint = false
  scopes_given : scopes ≠ []
  deriving DecidableEq

/-- The scopes that are not blank, stripped and in lower case. -/
def normalizedScopes (lower : String → String) (scopes : List String) : List String :=
  (scopes.filter fun scope => !Text.isBlank scope).map fun scope => lower (Text.strip scope)

/-- The constructor with its checks. -/
def ApiKeyRecord.create (lower : String → String) (tenantId : UUID) (name fingerprint : String)
    (scopes : List String) (id : UUID) (createdAt : DateTime)
    (lastUsedAt revokedAt : Option DateTime)
    (revokedReason : String) : Except Exn ApiKeyRecord :=
  if hn : Text.isBlank name = true then .error (.valueError "api key name must not be empty")
  else if hf : Text.isBlank fingerprint = true then
    .error (.valueError "api key fingerprint must not be empty")
  else if hs : normalizedScopes lower scopes = [] then
    .error (.valueError "api key scopes must not be empty")
  else
    .ok ⟨tenantId, name, fingerprint, normalizedScopes lower scopes, id, createdAt, lastUsedAt,
      revokedAt, revokedReason, Text.isBlank_eq_false hn, Text.isBlank_eq_false hf, hs⟩

theorem ApiKeyRecord.create_eq_ok {lower : String → String} {tenantId : UUID}
    {name fingerprint : String} {scopes : List String} {id : UUID} {createdAt : DateTime}
    {lastUsedAt revokedAt : Option DateTime} {revokedReason : String} {r : ApiKeyRecord}
    (h : create lower tenantId name fingerprint scopes id createdAt lastUsedAt revokedAt
      revokedReason = .ok r) :
    r.tenantId = tenantId ∧ r.secretFingerprint = fingerprint ∧ r.id = id ∧
      r.revokedAt = revokedAt := by
  unfold create at h
  split at h
  · cases h
  split at h
  · cases h
  split at h
  · cases h
  · cases h
    exact ⟨rfl, rfl, rfl, rfl⟩

/-- The record belongs to a fingerprint of a tenant. -/
def ApiKeyRecord.Matches (tenantId : UUID) (fingerprint : String) (r : ApiKeyRecord) : Prop :=
  r.tenantId = tenantId ∧ r.secretFingerprint = fingerprint

instance (tenantId : UUID) (fingerprint : String) (r : ApiKeyRecord) :
    Decidable (r.Matches tenantId fingerprint) := by
  unfold ApiKeyRecord.Matches
  infer_instance

/-- The record after its last use was written. -/
def ApiKeyRecord.touched (r : ApiKeyRecord) (usedAt : DateTime) : ApiKeyRecord :=
  { r with lastUsedAt := some usedAt }

/-- The record after its revocation was written. -/
def ApiKeyRecord.revoked (r : ApiKeyRecord) (revokedAt : DateTime) (reason : String) :
    ApiKeyRecord :=
  { r with revokedAt := some revokedAt, revokedReason := reason }

/-- The atomic calls of a registry. -/
structure ApiKeyRepository (σ : Type) where
  getByFingerprint : UUID → String → σ → Option ApiKeyRecord
  save : ApiKeyRecord → σ → Except Exn ApiKeyRecord × σ
  touch : UUID → String → DateTime → σ → Option ApiKeyRecord × σ
  revoke : UUID → UUID → DateTime → String → σ → Except Exn ApiKeyRecord × σ

abbrev InMemoryApiKeys := Table ApiKeyRecord fun r => r.id

/-- `InMemoryMemoryStore`. -/
def inMemoryApiKeys : ApiKeyRepository InMemoryApiKeys where
  getByFingerprint tenantId fingerprint s := s.rows.find? fun r => r.Matches tenantId fingerprint
  save record s := (.ok record, s.put record)
  touch tenantId fingerprint usedAt s :=
    match s.rows.find? fun r => r.Matches tenantId fingerprint with
    | none => (none, s)
    | some r =>
      (some (r.touched usedAt), s.put (r.touched usedAt))
  revoke tenantId keyId revokedAt reason s :=
    match s.find keyId with
    | none => (.error (.keyError "api key not found"), s)
    | some r =>
      if r.tenantId ≠ tenantId then (.error (.keyError "api key not found"), s)
      else
        (.ok (r.revoked revokedAt reason), s.put (r.revoked revokedAt reason))

abbrev PostgresApiKeys := Table ApiKeyRecord fun r => (r.tenantId, r.secretFingerprint)

/-- The row after `on conflict (tenant_id, secret_fingerprint) do update`. -/
def ApiKeyRecord.merged (r excluded : ApiKeyRecord) : ApiKeyRecord :=
  { r with
    name := excluded.name
    scopes := excluded.scopes
    lastUsedAt := r.lastUsedAt <|> excluded.lastUsedAt
    revokedAt := excluded.revokedAt
    revokedReason := excluded.revokedReason
    name_given := excluded.name_given
    scopes_given := excluded.scopes_given }

/-- `PostgresMemoryLedger`. -/
def postgresApiKeys : ApiKeyRepository PostgresApiKeys where
  getByFingerprint tenantId fingerprint s := s.find (tenantId, fingerprint)
  save record s :=
    match s.find (record.tenantId, record.secretFingerprint) with
    | some r => (.ok (r.merged record), s.put (r.merged record))
    | none =>
      if s.rows.any fun r => r.id = record.id then
        (.error (.databaseError "api_key_registry_pkey"), s)
      else (.ok record, s.put record)
  touch tenantId fingerprint usedAt s :=
    match s.find (tenantId, fingerprint) with
    | none => (none, s)
    | some r =>
      (some (r.touched usedAt), s.put (r.touched usedAt))
  revoke tenantId keyId revokedAt reason s :=
    match s.rows.find? fun r => r.id = keyId ∧ r.tenantId = tenantId with
    | none => (.error (.keyError "api key not found"), s)
    | some r =>
      (.ok (r.revoked revokedAt reason), s.put (r.revoked revokedAt reason))

/-- What matters of a list of records: their identifiers and which are revoked. -/
def revocations (rows : List ApiKeyRecord) : List (UUID × Bool) :=
  rows.map fun r => (r.id, r.revokedAt.isSome)

/-- A revocation in the list. -/
def markRevoked (id : UUID) (flags : List (UUID × Bool)) : List (UUID × Bool) :=
  flags.map fun e => (e.1, e.2 || e.1 = id)

/-- A write in the list: in place of what it replaces, else at the end. -/
def writeRecord (replaces : UUID → UUID → Bool) (id : UUID) (revoked : Bool)
    (flags : List (UUID × Bool)) : List (UUID × Bool) :=
  if flags.any fun e => replaces id e.1 then
    flags.map fun e => if replaces id e.1 then (e.1, revoked) else e
  else flags ++ [(id, revoked)]

/-- What a registry does that holds records of one fingerprint only. -/
structure ApiKeyLaws {σ : Type} (repository : ApiKeyRepository σ) (rows : σ → List ApiKeyRecord)
    (replaces : UUID → UUID → Bool) (t : UUID) (f : String) : Prop where
  finds : ∀ s, (∀ r ∈ rows s, r.Matches t f) → repository.getByFingerprint t f s = (rows s).head?
  touches : ∀ s usedAt, (∀ r ∈ rows s, r.Matches t f) →
    (∀ r ∈ rows (repository.touch t f usedAt s).2, r.Matches t f) ∧
      revocations (rows (repository.touch t f usedAt s).2) = revocations (rows s)
  revokes : ∀ s keyId revokedAt reason, (∀ r ∈ rows s, r.Matches t f) →
    (∀ r ∈ rows (repository.revoke t keyId revokedAt reason s).2, r.Matches t f) ∧
      revocations (rows (repository.revoke t keyId revokedAt reason s).2) =
        markRevoked keyId (revocations (rows s))
  saves : ∀ s record, record.Matches t f → (∀ r ∈ rows s, r.Matches t f) →
    (∀ r ∈ rows (repository.save record s).2, r.Matches t f) ∧
      revocations (rows (repository.save record s).2) =
        writeRecord replaces record.id record.revokedAt.isSome (revocations (rows s))

section Laws

variable {t : UUID} {f : String} {κ : Type} [DecidableEq κ] {key : ApiKeyRecord → κ}

/-- Records that match stay matching when one of them is replaced by a matching one. -/
theorem matches_put {s : Table ApiKeyRecord key} {r : ApiKeyRecord} (hr : r.Matches t f)
    (hs : ∀ r ∈ s.rows, r.Matches t f) : ∀ x ∈ (s.put r).rows, x.Matches t f := by
  intro x hx
  rcases Table.mem_put.mp hx with rfl | ⟨hx, -⟩
  · exact hr
  · exact hs x hx

theorem find_matches {rows : List ApiKeyRecord} (h : ∀ r ∈ rows, r.Matches t f) :
    (rows.find? fun r => r.Matches t f) = rows.head? := by
  cases rows with
  | nil => rfl
  | cons r rest => simp [h r (List.mem_cons_self ..)]

/-- The flags after a stored record was replaced by one with its identifier. -/
theorem revocations_put {s : Table ApiKeyRecord fun r => r.id} {r : ApiKeyRecord}
    (r' : ApiKeyRecord) (hr : r ∈ s.rows) (hid : r'.id = r.id) :
    revocations (s.put r').rows =
      s.rows.map fun x =>
        (x.id, if x.id = r.id then r'.revokedAt.isSome else x.revokedAt.isSome) := by
  have hany : s.rows.any (fun x => x.id = r'.id) = true :=
    List.any_eq_true.mpr ⟨r, hr, by simp [hid]⟩
  simp only [revocations, Table.put, Table.putRows, hany, if_true, List.map_map]
  refine List.map_congr_left fun x _ => ?_
  by_cases hx : x.id = r.id <;> simp [hx, hid]

/-- The in-memory registry replaces the record with the identifier that is written. -/
theorem inMemory_apiKeyLaws :
    ApiKeyLaws inMemoryApiKeys (fun s => s.rows) (fun id old => id = old) t f where
  finds s h := find_matches h
  touches s usedAt h := by
    cases hhead : s.rows.head? with
    | none =>
      have hsame : (inMemoryApiKeys.touch t f usedAt s).2 = s := by
        simp only [inMemoryApiKeys, find_matches h, hhead]
      rw [hsame]
      exact ⟨h, rfl⟩
    | some r =>
      have hput : (inMemoryApiKeys.touch t f usedAt s).2 =
          s.put (r.touched usedAt) := by
        simp only [inMemoryApiKeys, find_matches h, hhead]
      have hr := List.mem_of_head? hhead
      rw [hput]
      refine ⟨matches_put (h r hr) h, ?_⟩
      rw [revocations_put (r.touched usedAt) hr rfl]
      refine List.map_congr_left fun x hx => ?_
      by_cases hid : x.id = r.id
      · rw [s.eq_of_key_eq hx hr hid, if_pos rfl, ApiKeyRecord.touched]
      · rw [if_neg hid]
  revokes s keyId revokedAt reason h := by
    cases hfind : s.find keyId with
    | none =>
      have hsame : (inMemoryApiKeys.revoke t keyId revokedAt reason s).2 = s := by
        simp only [inMemoryApiKeys, hfind]
      rw [hsame]
      refine ⟨h, ?_⟩
      simp only [markRevoked, revocations, List.map_map]
      refine List.map_congr_left fun x hx => ?_
      simp [Table.find_eq_none.mp hfind x hx]
    | some r =>
      obtain ⟨hr, rfl⟩ := Table.find_eq_some.mp hfind
      have hput : (inMemoryApiKeys.revoke t r.id revokedAt reason s).2 =
          s.put (r.revoked revokedAt reason) := by
        simp only [inMemoryApiKeys, hfind, (h r hr).1, ne_eq, not_true, if_false]
      rw [hput]
      refine ⟨matches_put (h r hr) h, ?_⟩
      rw [revocations_put (r.revoked revokedAt reason) hr rfl]
      simp only [markRevoked, revocations, List.map_map]
      refine List.map_congr_left fun x _ => ?_
      by_cases hid : x.id = r.id <;> simp [ApiKeyRecord.revoked, hid]
  saves s record hrecord h := by
    refine ⟨matches_put hrecord h, ?_⟩
    change revocations (s.put record).rows = _
    by_cases hany : s.rows.any (fun x => x.id = record.id) = true
    · obtain ⟨r, hr, hid⟩ := List.any_eq_true.mp hany
      have hid : record.id = r.id := by simpa using Eq.symm (of_decide_eq_true hid)
      have hflags : (revocations s.rows).any (fun e => record.id = e.1) = true :=
        List.any_eq_true.mpr ⟨(r.id, r.revokedAt.isSome), List.mem_map.mpr ⟨r, hr, rfl⟩,
          by simp [hid]⟩
      rw [revocations_put record hr hid, writeRecord, if_pos hflags]
      simp only [revocations, List.map_map]
      refine List.map_congr_left fun x _ => ?_
      by_cases hx : x.id = r.id
      · simp [hx, hid]
      · simp [hx, hid, Ne.symm hx]
    · have hnew : ∀ x ∈ s.rows, x.id ≠ record.id := by simpa [List.any_eq_true] using hany
      have hflags : ¬ (revocations s.rows).any (fun e => record.id = e.1) = true := by
        rw [List.any_eq_true]
        rintro ⟨e, he, hid⟩
        obtain ⟨x, hx, rfl⟩ := List.mem_map.mp he
        exact hnew x hx (of_decide_eq_true hid).symm
      rw [Table.rows_put_of_fresh (Table.find_eq_none.mpr hnew), writeRecord, if_neg hflags]
      simp [revocations]

/-- A database that holds one fingerprint only holds at most one row. -/
theorem rows_of_matches {s : PostgresApiKeys} (h : ∀ r ∈ s.rows, r.Matches t f) :
    s.rows = [] ∨ ∃ r, s.rows = [r] := by
  cases hrows : s.rows with
  | nil => exact .inl rfl
  | cons r rest =>
    refine .inr ⟨r, ?_⟩
    cases rest with
    | nil => rfl
    | cons r' rest =>
      have hnodup := s.nodup
      rw [hrows] at h hnodup
      have hr := h r (by simp)
      have hr' := h r' (by simp)
      simp [hr.1, hr.2, hr'.1, hr'.2] at hnodup

theorem find_of_matches {s : PostgresApiKeys} (h : ∀ r ∈ s.rows, r.Matches t f) :
    s.find (t, f) = s.rows.head? := by
  cases hhead : s.rows.head? with
  | none =>
    rw [List.head?_eq_none_iff] at hhead
    simp [Table.find, hhead]
  | some r =>
    have hr := List.mem_of_head? hhead
    exact Table.find_eq_some.mpr ⟨hr, Prod.ext (h r hr).1 (h r hr).2⟩

/-- The only row replaced by one of its fingerprint. -/
theorem rows_put_of_singleton {s : PostgresApiKeys} {r : ApiKeyRecord} (r' : ApiKeyRecord)
    (hrows : s.rows = [r])
    (h : r.Matches t f) (h' : r'.Matches t f) : (s.put r').rows = [r'] := by
  simp [Table.put, Table.putRows, hrows, h.1, h.2, h'.1, h'.2]

/-- The database replaces the row of the fingerprint whatever its identifier. -/
theorem postgres_apiKeyLaws :
    ApiKeyLaws postgresApiKeys (fun s => s.rows) (fun _ _ => true) t f where
  finds s h := find_of_matches h
  touches s usedAt h := by
    rcases rows_of_matches h with hrows | ⟨r, hrows⟩
    · have hsame : (postgresApiKeys.touch t f usedAt s).2 = s := by
        simp only [postgresApiKeys, find_of_matches h, hrows, List.head?_nil]
      rw [hsame]
      exact ⟨h, rfl⟩
    · have hput : (postgresApiKeys.touch t f usedAt s).2 = s.put (r.touched usedAt) := by
        simp only [postgresApiKeys, find_of_matches h, hrows, List.head?_cons]
      have hr := h r (by simp [hrows])
      rw [hput]
      refine ⟨matches_put hr h, ?_⟩
      rw [rows_put_of_singleton (r.touched usedAt) hrows hr hr, hrows]
      rfl
  revokes s keyId revokedAt reason h := by
    rcases rows_of_matches h with hrows | ⟨r, hrows⟩
    · have hsame : (postgresApiKeys.revoke t keyId revokedAt reason s).2 = s := by
        simp only [postgresApiKeys, hrows, List.find?_nil]
      rw [hsame]
      exact ⟨h, by simp [revocations, markRevoked, hrows]⟩
    · have hr := h r (by simp [hrows])
      by_cases hid : r.id = keyId
      · have hput : (postgresApiKeys.revoke t keyId revokedAt reason s).2 =
            s.put (r.revoked revokedAt reason) := by
          simp [postgresApiKeys, hrows, hid, hr.1]
        rw [hput]
        refine ⟨matches_put hr h, ?_⟩
        rw [rows_put_of_singleton (r.revoked revokedAt reason) hrows hr hr, hrows]
        simp [revocations, markRevoked, ApiKeyRecord.revoked, hid]
      · have hsame : (postgresApiKeys.revoke t keyId revokedAt reason s).2 = s := by
          simp [postgresApiKeys, hrows, hid]
        rw [hsame]
        exact ⟨h, by simp [revocations, markRevoked, hrows, hid]⟩
  saves s record hrecord h := by
    rcases rows_of_matches h with hrows | ⟨r, hrows⟩
    · have hnone : s.find (t, f) = none := by rw [find_of_matches h, hrows, List.head?_nil]
      have hput : (postgresApiKeys.save record s).2 = s.put record := by
        simp [postgresApiKeys, hrecord.1, hrecord.2, hnone, hrows]
      rw [hput, Table.rows_put_of_fresh (by rw [hrecord.1, hrecord.2]; exact hnone), hrows]
      simp [revocations, writeRecord, hrecord]
    · have hr := h r (by simp [hrows])
      have hput : (postgresApiKeys.save record s).2 = s.put (r.merged record) := by
        simp [postgresApiKeys, hrecord.1, hrecord.2, find_of_matches h, hrows]
      rw [hput]
      refine ⟨matches_put hr h, ?_⟩
      rw [rows_put_of_singleton (r.merged record) hrows hr hr, hrows]
      simp [revocations, writeRecord, ApiKeyRecord.merged]

end Laws

end MemoryPlane
