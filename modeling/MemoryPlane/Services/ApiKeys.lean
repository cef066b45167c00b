import MemoryPlane.Adapters.ApiKeys
import MemoryPlane.Lib.Proc

/-!
# API key registry service

Registration reads the record of a fingerprint and writes it back under the configured name and
scopes, with the revocation that it read.
-/

namespace MemoryPlane

namespace ApiKeyRegistryService

variable {σ : Type} (repository : ApiKeyRepository σ)

/-- `save_api_key_record` as a call. -/
def saveKey (record : ApiKeyRecord) : Proc σ Exn (Option ApiKeyRecord) :=
  .invoke fun s => ((repository.save record s).1.map some, (repository.save record s).2)

/-- Create/update registry metadata for one env-configured key. -/
def ensureConfiguredKey (lower : String → String) (tenantId : UUID)
    (name secretFingerprint : String)
    (scopes : List String) (id : UUID) (createdAt : DateTime) :
    Proc σ Exn (Option ApiKeyRecord) := do
  match ← Proc.read fun s => repository.getByFingerprint tenantId secretFingerprint s with
  | some existing =>
    if existing.name = name ∧ existing.scopes = scopes then
      pure (some existing)
    else
      let updated ← Proc.ofExcept (ApiKeyRecord.create lower tenantId name secretFingerprint scopes
        existing.id existing.createdAt existing.lastUsedAt existing.revokedAt
        existing.revokedReason)
      saveKey repository updated
  | none =>
    let record ← Proc.ofExcept (ApiKeyRecord.create lower tenantId name secretFingerprint scopes
      id createdAt none none "")
    saveKey repository record

/-- Update last-used timestamp for a successfully authenticated key. -/
def touch (tenantId : UUID) (secretFingerprint : String) (usedAt : DateTime) :
    Proc σ Exn (Option ApiKeyRecord) :=
  .effect fun s => repository.touch tenantId secretFingerprint usedAt s

/-- Mark a key revoked without deleting audit evidence. -/
def revoke (tenantId keyId : UUID) (revokedAt : DateTime) (reason : String) :
    Proc σ Exn (Option ApiKeyRecord) :=
  .invoke fun s =>
    let r := repository.revoke tenantId keyId revokedAt reason s
    (r.1.map some, r.2)

end ApiKeyRegistryService

end MemoryPlane
