import MemoryPlane.Services.VaultImport

/-!
# Vault archive

Deleting a note archives its memory: the ledger gets a further revision with the text of the note
and the status `archived`, by the same compare-and-swap as an edit.
-/

namespace MemoryPlane

namespace VaultExporter

variable {σ : Type} (rt : NoteRuntime) (store : RetentionStore σ) (tenantId workspaceId : UUID)

/-- `value in {"archived", "superseded"}`: a list or a dictionary has no hash. -/
def isRetiredStatus : Option FrontmatterValue → Except Exn Bool
  | some (.list _) | some (.scalar .emptyList) => .error (.typeError "unhashable type: 'list'")
  | some (.scalar .emptyDict) => .error (.typeError "unhashable type: 'dict'")
  | some (.scalar (.str text)) =>
    .ok (text = "archived".toList || text = "superseded".toList)
  | _ => .ok false

/-- The change of a note that is still live. -/
def planLiveArchive (x : σ) (path : String) (frontmatter : Frontmatter) : VaultImportChange :=
  match noteHead rt frontmatter with
  | .error e => ⟨path, .error, none, none, none, s!"invalid memory frontmatter: {e.text}"⟩
  | .ok (itemId, expectedRevision, noteTenantId, noteWorkspaceId) =>
    if noteTenantId ≠ tenantId ∨ noteWorkspaceId ≠ workspaceId then
      ⟨path, .error, some itemId, some expectedRevision, none, "tenant/workspace mismatch"⟩
    else
      match store.get x tenantId itemId with
      | none =>
        ⟨path, .error, some itemId, some expectedRevision, none, "memory item not found"⟩
      | some current =>
        if (current.revision : ℤ) ≠ expectedRevision then
          ⟨path, .conflict, some itemId, some expectedRevision, none,
            s!"expected revision {expectedRevision}, actual {current.revision}"⟩
        else
          ⟨path, .archive, some itemId, some expectedRevision, none, "memory will be archived"⟩

/-- `_plan_file_archive`. -/
def planFileArchive (x : σ) (file : VaultImportSource) : Except Exn VaultImportChange :=
  match VaultNotes.parseMarkdownNote rt file.content with
  | .error e => .ok ⟨file.path, .error, none, none, none, e.text⟩
  | .ok note =>
    if note.frontmatter.get "type" ≠ some (.scalar (.str "memory".toList)) then
      .ok ⟨file.path, .skip, none, none, none, "only memory notes can be archived"⟩
    else
      (isRetiredStatus (note.frontmatter.get "status")).map fun retired =>
        if retired then
          ⟨file.path, .unchanged, none, none, none, "note is already archived or superseded"⟩
        else planLiveArchive rt store tenantId workspaceId x file.path note.frontmatter

/-- The key under which the archived revision is stored. -/
def archiveKey (path : String) (expectedRevision : ℤ) : String :=
  s!"vault-archive:{path}:{expectedRevision}"

/-- The command that archives the item of a note. -/
def archiveCommand (file : VaultImportSource) (itemId : UUID) (expectedRevision : ℤ) :
    Except Exn SupersedeMemoryCommand := do
  let note ← VaultNotes.parseMarkdownNote rt file.content
  let confidence ← VaultNotes.optionalFloat rt (note.frontmatter.get "confidence")
  SupersedeMemoryCommand.create tenantId itemId (String.ofList note.body) expectedRevision
    confidence (some .archived) (some (archiveKey file.path expectedRevision))

/-- The planned archive of a file, applied. -/
def applyArchive (privacy : PrivacyGuard) (file : VaultImportSource) (d : Draws)
    (change : VaultImportChange) (x : σ) : Except Exn VaultImportChange × σ :=
  match change.action, change.itemId, change.expectedRevision with
  | .archive, some itemId, some expectedRevision =>
    match archiveCommand rt tenantId file itemId expectedRevision with
    | .error e => (.error e, x)
    | .ok command =>
      match (RetentionService.supersede store privacy command none d).run x with
      | (.ok result, y) =>
        (.ok ⟨file.path, .archive, some itemId, some expectedRevision, some result.item.id,
          "created archived memory revision"⟩, y)
      | (.error (.revisionConflict conflictId expected actual), y) =>
        (.ok ⟨file.path, .conflict, some itemId, some expectedRevision, none,
          (Exn.revisionConflict conflictId expected actual).text⟩, y)
      | (.error e, y) => (.error e, y)
  | _, _, _ => (.ok change, x)

/-- Archive a memory note through the same CAS path as human edits. -/
def archiveFile (retention : Option PrivacyGuard) (file : VaultImportSource) (d : Draws) (x : σ) :
    Except Exn VaultImportResult × σ :=
  match retention with
  | none => (.error (.runtimeError "vault delete requires a retention service"), x)
  | some privacy =>
    match planFileArchive rt store tenantId workspaceId x file with
    | .error e => (.error e, x)
    | .ok planned =>
      match applyArchive rt store tenantId privacy file d planned x with
      | (.error e, y) => (.error e, y)
      | (.ok change, y) => (.ok ⟨tenantId, workspaceId, false, [change]⟩, y)

variable {rt store tenantId workspaceId} {privacy : PrivacyGuard} {file : VaultImportSource}
  {d : Draws} {change : VaultImportChange} {x : σ}

/-- The command of an archive names the item of the note. -/
theorem archiveCommand_eq_ok {itemId : UUID} {expectedRevision : ℤ}
    {command : SupersedeMemoryCommand}
    (h : archiveCommand rt tenantId file itemId expectedRevision = .ok command) :
    command.tenantId = tenantId ∧ command.itemId = itemId := by
  unfold archiveCommand at h
  obtain ⟨note, -, h⟩ := Except.bind_eq_ok.mp h
  obtain ⟨confidence, -, h⟩ := Except.bind_eq_ok.mp h
  obtain ⟨htenant, hid, -⟩ := SupersedeMemoryCommand.create_eq_ok h
  exact ⟨htenant, hid⟩

/-- A planned archive whose command is admitted makes one call of the retention service. -/
theorem applyArchive_store {itemId : UUID} {expectedRevision : ℤ} {command : SupersedeMemoryCommand}
    (haction : change.action = .archive) (hid : change.itemId = some itemId)
    (hexpected : change.expectedRevision = some expectedRevision)
    (hcommand : archiveCommand rt tenantId file itemId expectedRevision = .ok command) :
    (applyArchive rt store tenantId privacy file d change x).2 =
      ((RetentionService.supersede store privacy command none d).run x).2 := by
  unfold applyArchive
  simp only [haction, hid, hexpected, hcommand]
  rcases (RetentionService.supersede store privacy command none d).run x with ⟨r, y⟩
  cases r with
  | ok result => rfl
  | error e => cases e <;> rfl

/-- Otherwise it leaves the store. -/
theorem applyArchive_store_of_none
    (h : ∀ itemId expectedRevision command, change.action = .archive →
      change.itemId = some itemId → change.expectedRevision = some expectedRevision →
      archiveCommand rt tenantId file itemId expectedRevision ≠ .ok command) :
    (applyArchive rt store tenantId privacy file d change x).2 = x := by
  unfold applyArchive
  split
  · rename_i itemId expectedRevision haction hid hexpected
    cases hcommand : archiveCommand rt tenantId file itemId expectedRevision with
    | error e => rfl
    | ok command => exact absurd hcommand (h _ _ _ haction hid hexpected)
  · rfl

/-- What an archive leaves is what its planned change leaves. -/
theorem archiveFile_store
    (hplan : planFileArchive rt store tenantId workspaceId x file = .ok change) :
    (archiveFile rt store tenantId workspaceId (some privacy) file d x).2 =
      (applyArchive rt store tenantId privacy file d change x).2 := by
  unfold archiveFile
  simp only [hplan]
  rcases applyArchive rt store tenantId privacy file d change x with ⟨r, y⟩
  cases r <;> rfl

end VaultExporter

end MemoryPlane
