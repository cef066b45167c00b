import MemoryPlane.Services.Retention
import MemoryPlane.Services.VaultNotes

/-!
# Vault import

An import plans one change for each Markdown file from the ledger as it stands, and then applies
the planned replacements one after the other, each in its own transaction. The file of a planned
change is looked up again by its path, and the revision that it creates is stored under a key made
of that path and the expected revision.
-/

namespace MemoryPlane

/-- `str(exc)`. -/
def Exn.text : Exn → String
  | .valueError message | .keyError message | .runtimeError message | .typeError message
  | .overflowError message => message
  | .databaseError constraint => constraint
  | .revisionConflict itemId expected actual =>
    s!"stale revision for memory {itemId.str}: expected {expected}, actual {actual}"

/-- One Markdown file supplied by a vault import client. -/
structure VaultImportSource where
  path : String
  content : List Char
  deriving DecidableEq

/-- What is done with a file. -/
inductive VaultImportAction where
  | error | skip | conflict | unchanged | supersede | archive
  deriving DecidableEq

/-- One planned or applied import action. -/
structure VaultImportChange where
  path : String
  action : VaultImportAction
  itemId : Option UUID
  expectedRevision : Option ℤ
  newItemId : Option UUID
  message : String
  deriving DecidableEq

/-- Planned changes, or those that were applied. -/
structure VaultImportResult where
  tenantId : UUID
  workspaceId : UUID
  dryRun : Bool
  changes : List VaultImportChange
  deriving DecidableEq

namespace VaultExporter

variable {σ : Type} (rt : NoteRuntime) (store : RetentionStore σ) (tenantId workspaceId : UUID)

/-- The item, the revision and the boundary that a note names. -/
def noteHead (frontmatter : Frontmatter) : Except Exn (UUID × ℤ × UUID × UUID) := do
  let itemId ← VaultNotes.parseNoteId rt (frontmatter.get "id")
  let expectedRevision ← VaultNotes.noteRevision rt frontmatter
  let noteTenantId ← VaultNotes.noteUuid rt frontmatter "tenant_id"
  let noteWorkspaceId ← VaultNotes.noteUuid rt frontmatter "workspace_id"
  return (itemId, expectedRevision, noteTenantId, noteWorkspaceId)

/-- `_plan_file_import`. -/
def planFileImport (x : σ) (file : VaultImportSource) : VaultImportChange :=
  match VaultNotes.parseMarkdownNote rt file.content with
  | .error e => ⟨file.path, .error, none, none, none, e.text⟩
  | .ok note =>
    if note.frontmatter.get "type" ≠ some (.scalar (.str "memory".toList)) then
      ⟨file.path, .skip, none, none, none, "only memory notes are imported"⟩
    else if note.frontmatter.get "status" = some (.scalar (.str "superseded".toList)) then
      ⟨file.path, .skip, none, none, none,
        "superseded notes are audit history, not import heads"⟩
    else
      match noteHead rt note.frontmatter with
      | .error e =>
        ⟨file.path, .error, none, none, none, s!"invalid memory frontmatter: {e.text}"⟩
      | .ok (itemId, expectedRevision, noteTenantId, noteWorkspaceId) =>
        if noteTenantId ≠ tenantId ∨ noteWorkspaceId ≠ workspaceId then
          ⟨file.path, .error, some itemId, some expectedRevision, none,
            "tenant/workspace mismatch"⟩
        else
          match store.get x tenantId itemId with
          | none =>
            ⟨file.path, .error, some itemId, some expectedRevision, none,
              "memory item not found"⟩
          | some current =>
            if (current.revision : ℤ) ≠ expectedRevision then
              ⟨file.path, .conflict, some itemId, some expectedRevision, none,
                s!"expected revision {expectedRevision}, actual {current.revision}"⟩
            else if Text.stripWith isSpace current.text.toList =
                Text.stripWith isSpace note.body then
              ⟨file.path, .unchanged, some itemId, some expectedRevision, none,
                "memory text unchanged"⟩
            else
              ⟨file.path, .supersede, some itemId, some expectedRevision, none,
                "memory text changed"⟩

/-- Inspect Markdown vault files and plan safe CAS supersede operations. -/
def planImport (x : σ) (files : List VaultImportSource) : VaultImportResult :=
  ⟨tenantId, workspaceId, true, files.map (planFileImport rt store tenantId workspaceId x)⟩

/-- The key under which the revision of an imported file is stored. -/
def importKey (path : String) (expectedRevision : ℤ) : String :=
  s!"vault-import:{path}:{expectedRevision}"

/-- The note of the first file with a path. -/
def noteAt (files : List VaultImportSource) (path : String) : Except Exn ParsedMarkdownNote :=
  match files.find? fun file => file.path = path with
  | none => .error (.runtimeError "StopIteration")
  | some file => VaultNotes.parseMarkdownNote rt file.content

/-- The command that applies a planned change. -/
def importCommand (files : List VaultImportSource) (path : String) (itemId : UUID)
    (expectedRevision : ℤ) : Except Exn SupersedeMemoryCommand := do
  let note ← noteAt rt files path
  let confidence ← VaultNotes.optionalFloat rt (note.frontmatter.get "confidence")
  SupersedeMemoryCommand.create tenantId itemId (String.ofList note.body) expectedRevision
    confidence none (some (importKey path expectedRevision))

/-- One round of the loop of `apply_import`. -/
def applyChange (privacy : PrivacyGuard) (files : List VaultImportSource) (d : Draws)
    (change : VaultImportChange) (x : σ) : Except Exn VaultImportChange × σ :=
  match change.action, change.itemId, change.expectedRevision with
  | .supersede, some itemId, some expectedRevision =>
    match importCommand rt tenantId files change.path itemId expectedRevision with
    | .error e => (.error e, x)
    | .ok command =>
      match (RetentionService.supersede store privacy command none d).run x with
      | (.ok result, y) =>
        (.ok ⟨change.path, .supersede, some itemId, some expectedRevision, some result.item.id,
          "created new memory revision"⟩, y)
      | (.error (.revisionConflict conflictId expected actual), y) =>
        (.ok ⟨change.path, .conflict, some itemId, some expectedRevision, none,
          (Exn.revisionConflict conflictId expected actual).text⟩, y)
      | (.error e, y) => (.error e, y)
  | _, _, _ => (.ok change, x)

/-- The loop of `apply_import`, from the round `n` on; each round draws for itself. -/
def applyChanges (privacy : PrivacyGuard) (files : List VaultImportSource) (d : ℕ → Draws) (n : ℕ) :
    List VaultImportChange → σ → Except Exn (List VaultImportChange) × σ
  | [], x => (.ok [], x)
  | change :: rest, x =>
    match applyChange rt store tenantId privacy files (d n) change x with
    | (.error e, y) => (.error e, y)
    | (.ok applied, y) =>
      match applyChanges privacy files d (n + 1) rest y with
      | (.error e, z) => (.error e, z)
      | (.ok others, z) => (.ok (applied :: others), z)

/-- Apply a vault import by creating new memory revisions only. The exporter may have no retention
service, which is given by its guard. -/
def applyImport (retention : Option PrivacyGuard) (files : List VaultImportSource) (d : ℕ → Draws)
    (x : σ) : Except Exn VaultImportResult × σ :=
  match retention with
  | none => (.error (.runtimeError "vault import requires a retention service"), x)
  | some privacy =>
    let planned := planImport rt store tenantId workspaceId x files
    match applyChanges rt store tenantId privacy files d 0 planned.changes x with
    | (.error e, y) => (.error e, y)
    | (.ok applied, y) => (.ok ⟨tenantId, workspaceId, false, applied⟩, y)

section Rounds

variable {rt : NoteRuntime} {store : RetentionStore σ} {tenantId : UUID} {privacy : PrivacyGuard}
  {files : List VaultImportSource} {d : ℕ → Draws} {n : ℕ} {change a : VaultImportChange}
  {rest : List VaultImportChange} {e : Exn} {x y : σ}

/-- The loop ends at the first round that raises. -/
theorem applyChanges_store_of_error
    (h : applyChange rt store tenantId privacy files (d n) change x = (.error e, y)) :
    (applyChanges rt store tenantId privacy files d n (change :: rest) x).2 = y := by
  rw [applyChanges, h]

/-- The loop goes on with the store of a round that returns. -/
theorem applyChanges_store_of_ok
    (h : applyChange rt store tenantId privacy files (d n) change x = (.ok a, y)) :
    (applyChanges rt store tenantId privacy files d n (change :: rest) x).2 =
      (applyChanges rt store tenantId privacy files d (n + 1) rest y).2 := by
  rw [applyChanges, h]
  dsimp only
  rcases applyChanges rt store tenantId privacy files d (n + 1) rest y with ⟨r, z⟩
  cases r <;> rfl

end Rounds

/-- A scoped key tells the key. -/
theorem scopeIdempotencyKey_inj {w w' : UUID} {k k' : String}
    (h : scopeIdempotencyKey w (some k) = scopeIdempotencyKey w' (some k')) : k = k' := by
  simp only [scopeIdempotencyKey, Option.map_some, Option.some.injEq] at h
  have hlist := congrArg String.toList h
  simp only [String.toList_append, List.append_assoc] at hlist
  have hlength : w.str.toList.length = w'.str.toList.length := by
    rw [UUID.length_str, UUID.length_str]
  obtain ⟨-, htail⟩ := List.append_inj hlist hlength
  exact String.toList_inj.mp (List.append_cancel_left htail)

/-- A scoped key tells the workspace. -/
theorem scopeIdempotencyKey_workspace {w w' : UUID} {k : String} {k' : Option String}
    (h : scopeIdempotencyKey w (some k) = scopeIdempotencyKey w' k') : w = w' := by
  cases k' with
  | none => simp [scopeIdempotencyKey] at h
  | some k' =>
    simp only [scopeIdempotencyKey, Option.map_some, Option.some.injEq] at h
    have hlist := congrArg String.toList h
    simp only [String.toList_append, List.append_assoc] at hlist
    have hlength : w.str.toList.length = w'.str.toList.length := by
      rw [UUID.length_str, UUID.length_str]
    obtain ⟨hinit, -⟩ := List.append_inj hlist hlength
    have hstr : w.str = w'.str := String.toList_inj.mp hinit
    exact UUID.str_injective hstr

/-- A printed number has no colon. -/
theorem colon_not_mem_toString (n : ℤ) : ':' ∉ (toString n).toList := by
  intro hmem
  obtain h | h := mem_toString hmem
  · exact absurd h (by decide)
  · exact absurd h (by decide)

/-- The key of an imported file tells its path. -/
theorem importKey_path {path path' : String} {r r' : ℤ}
    (h : importKey path r = importKey path' r') :
    path = path' := by
  have hkey : ∀ (p : String) (n : ℤ), (importKey p n).toList =
      "vault-import:".toList ++ (p.toList ++ ':' :: (toString n).toList) := by
    intro p n
    have hkey : importKey p n = "vault-import:" ++ p ++ ":" ++ toString n := rfl
    simp [hkey]
  have hlist := congrArg String.toList h
  rw [hkey, hkey, List.append_cancel_left_eq] at hlist
  obtain ⟨hpath, -⟩ := List.append_cons_inj_of_not_mem hlist (colon_not_mem_toString r)
    (colon_not_mem_toString r')
  exact String.toList_inj.mp hpath

end VaultExporter

end MemoryPlane
