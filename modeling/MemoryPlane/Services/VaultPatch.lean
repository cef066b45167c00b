import Mathlib.Data.String.Basic
import MemoryPlane.Services.VaultExport
import MemoryPlane.Services.VaultImport

/-!
# Vault patches

A patch names an item at a revision and replaces its text, one section of it or its confidence. The
patched text is cleared like the text of a note, and the revision is stored under a key made of the
item, its revision and a digest of the complete outcome, unless the client brings a key of its own.
-/

namespace MemoryPlane

/-- The fields of one bounded edit against a canonical memory head. -/
structure VaultPatchFields where
  tenantId : UUID
  workspaceId : UUID
  itemId : UUID
  expectedRevision : ℤ
  replaceBody : Option String := none
  sectionHeading : Option String := none
  sectionContent : Option String := none
  confidence : Option ℚ := none
  idempotencyKey : Option String := none

/-- `VaultPatchCommand.__post_init__`. -/
def VaultPatchFields.postInit (c : VaultPatchFields) : Except Exn Unit :=
  let hasSection := c.sectionHeading.isSome || c.sectionContent.isSome
  let heading := c.sectionHeading.getD ""
  if c.expectedRevision < 1 then .error (.valueError "expected_revision must be positive")
  else if c.replaceBody.isSome && hasSection then
    .error (.valueError "replace_body and section patch are mutually exclusive")
  else if hasSection && (heading = "" || c.sectionContent = none) then
    .error (.valueError "section_heading and section_content are required together")
  else if !c.replaceBody.isSome && !hasSection && c.confidence = none then
    .error (.valueError "patch must change body, one section, or confidence")
  else if heading.toList.any fun x => x = '\n' ∨ x = '\r' then
    .error (.valueError "section heading must be one line")
  else if ∃ q ∈ c.confidence, ¬(0 ≤ q ∧ q ≤ 1) then
    .error (.valueError "confidence must be between 0 and 1")
  else .ok ()

/-- An edit that passed its constructor. -/
structure VaultPatchCommand extends VaultPatchFields where
  valid : toVaultPatchFields.postInit = .ok ()

/-- The key that the client brings; an empty one counts as none. -/
def VaultPatchCommand.clientKey (command : VaultPatchCommand) : Option String :=
  command.idempotencyKey.filter fun key => key ≠ ""

/-- Canonical outcome of a targeted vault edit. -/
structure VaultPatchResult where
  item : MemoryItem
  changed : Bool
  queuedEventIds : List UUID
  deriving DecidableEq

namespace VaultNotes

variable (rt : NoteRuntime)

/-- `re.match(r"^(#{1,6})\s+", line)`: the number of marks. -/
def headingLevel (line : List Char) : Option ℕ :=
  let level := (line.takeWhile (· = '#')).length
  if 1 ≤ level ∧ level ≤ 6 ∧ (line.dropWhile (· = '#')).head?.any isSpace then some level else none

/-- `\s*#*\s*$`. -/
def closesHeading (s : List Char) : Bool := ((s.dropWhile isSpace).dropWhile (· = '#')).all isSpace

/-- `(.+?)\s*#*\s*$` on a rest that is not empty: the shortest title. -/
def lazyTitle : List Char → List Char
  | [] => []
  | c :: cs => if closesHeading cs then [c] else c :: lazyTitle cs

/-- `re.match(r"^(#{1,6})\s+(.+?)\s*#*\s*$", line)`: the number of marks and the stripped title. A
heading of white space alone has an empty title if one character of it can be the title. -/
def headingOf (line : List Char) : Option (ℕ × List Char) :=
  (headingLevel line).bind fun level =>
    let rest := line.drop level
    match rest.dropWhile isSpace with
    | [] => if 2 ≤ rest.length then some (level, []) else none
    | c :: cs => some (level, Text.stripWith isSpace (lazyTitle (c :: cs)))

/-- `str.casefold`. -/
def casefold (s : List Char) : List Char := s.flatMap rt.unicode.casefold

/-- The places and levels of the headings with a title. -/
def sectionMatches (requested : List Char) (lines : List (List Char)) : List (ℕ × ℕ) :=
  lines.zipIdx.filterMap fun (line, index) =>
    (headingOf line).bind fun (level, title) =>
      if casefold rt title = casefold rt requested then some (index, level) else none

/-- Replace exactly one Markdown section without touching adjacent sections. -/
def replaceMarkdownSection (text heading content : List Char) : Except Exn (List Char) :=
  let requested := Text.stripWith isSpace ((Text.stripWith isSpace heading).dropWhile (· = '#'))
  let shown := String.ofList requested
  if requested = [] then .error (.valueError "section heading must not be empty")
  else if isSystemHeading rt ("## ".toList ++ requested) then
    .error (.valueError "system-managed sections cannot be patched")
  else
    let lines := Text.splitlines text
    match sectionMatches rt requested lines with
    | [] => .error (.valueError s!"section not found: {shown}")
    | [(start, level)] =>
      let after := (lines.drop (start + 1)).dropWhile fun line =>
        !(headingLevel line).any fun n => n ≤ level
      let replacement := Text.splitlines (Text.stripWith isSpace content)
      .ok (sanitizeEditableBody rt
        (Text.joinLines (lines.take (start + 1) ++ replacement ++ after)))
    | _ => .error (.valueError s!"section heading is ambiguous: {shown}")

end VaultNotes

/-- The parts of the library that name the key of a patch. -/
structure PatchRuntime where
  notes : NoteRuntime
  /-- `str` of a float. -/
  float : ℚ → String
  /-- The hexadecimal digest of a text in UTF-8. -/
  sha256Hex : String → String

namespace VaultExporter

variable (rt : PatchRuntime)

/-- The printed confidence of a patch; without one it is empty. -/
def confidenceText (confidence : Option ℚ) : String := (confidence.map rt.float).getD ""

/-- The outcome that the digest of a key covers. -/
def patchPayload (command : VaultPatchCommand) (text : String) : String :=
  "\x1f".intercalate [command.tenantId.str, command.workspaceId.str, command.itemId.str,
    toString command.expectedRevision, text, confidenceText rt command.confidence]

/-- `_vault_patch_idempotency_key`. -/
def patchKey (command : VaultPatchCommand) (text : String) : String :=
  let digest := rt.sha256Hex (patchPayload rt command text)
  s!"vault-patch:{command.itemId.str}:{command.expectedRevision}:{digest}"

/-- The text that a patch asks for. -/
def replacementText (current : MemoryItem) (command : VaultPatchCommand) : Except Exn String :=
  match command.replaceBody, command.sectionHeading, command.sectionContent with
  | some body, _, _ =>
    .ok (String.ofList (VaultNotes.sanitizeEditableBody rt.notes body.toList))
  | none, some heading, some content =>
    (VaultNotes.replaceMarkdownSection rt.notes current.text.toList heading.toList
      content.toList).map String.ofList
  | none, _, _ => .ok current.text

/-- The text and the confidence that a patch leads to, or nothing if it changes neither. -/
def patchOutcome (current : MemoryItem) (command : VaultPatchCommand) :
    Except Exn (Option (String × ℚ)) := do
  let text ← replacementText rt current command
  if Text.isBlank text then throw (.valueError "replacement text must not be empty")
  let confidence := command.confidence.getD current.confidence
  if Text.strip text = Text.strip current.text ∧ confidence = current.confidence then return none
  return some (text, confidence)

/-- The replacement that carries a patch out. -/
def patchCommand (command : VaultPatchCommand) (text : String) :
    Except Exn SupersedeMemoryCommand :=
  SupersedeMemoryCommand.create command.tenantId command.itemId text command.expectedRevision
    command.confidence none (some (command.clientKey.getD (patchKey rt command text)))

variable {σ : Type} (store : RetentionStore σ)

/-- The item that a patch names, at its revision. -/
def patchTarget (command : VaultPatchCommand) (x : σ) : Except Exn MemoryItem :=
  match store.get x command.tenantId command.itemId with
  | none => .error (.keyError "memory item not found")
  | some current =>
    if current.workspaceId ≠ command.workspaceId then .error (.keyError "memory item not found")
    else if (current.revision : ℤ) ≠ command.expectedRevision then
      .error (.revisionConflict command.itemId command.expectedRevision.toNat current.revision)
    else if current.status = .archived ∨ current.status = .rejected then
      .error (.valueError "archived or rejected memory cannot be patched")
    else .ok current

/-- Apply a body or section edit as an append-only revision. The exporter may have no retention
service, which is given by its guard. -/
def patchMemory (retention : Option PrivacyGuard) (command : VaultPatchCommand) (d : Draws)
    (x : σ) : Except Exn VaultPatchResult × σ :=
  match retention with
  | none => (.error (.runtimeError "vault patch requires a retention service"), x)
  | some privacy =>
    match patchTarget store command x with
    | .error e => (.error e, x)
    | .ok current =>
      match patchOutcome rt current command with
      | .error e => (.error e, x)
      | .ok none => (.ok ⟨current, false, []⟩, x)
      | .ok (some (text, _)) =>
        match patchCommand rt command text with
        | .error e => (.error e, x)
        | .ok replacement =>
          match (RetentionService.supersede store privacy replacement none d).run x with
          | (.ok retained, y) =>
            (.ok ⟨retained.item, retained.created, retained.queuedEventIds⟩, y)
          | (.error e, y) => (.error e, y)

variable {rt store} {privacy : PrivacyGuard} {command : VaultPatchCommand} {d : Draws} {x y : σ}

/-- A patch that returns found its item, and changed nothing or replaced it. -/
theorem patchMemory_eq_ok {result : VaultPatchResult}
    (h : patchMemory rt store (some privacy) command d x = (.ok result, y)) :
    ∃ current, patchTarget store command x = .ok current ∧
      ((patchOutcome rt current command = .ok none ∧ result = ⟨current, false, []⟩ ∧ y = x) ∨
        ∃ text confidence replacement retained,
          patchOutcome rt current command = .ok (some (text, confidence)) ∧
            patchCommand rt command text = .ok replacement ∧
            (RetentionService.supersede store privacy replacement none d).run x =
              (.ok retained, y) ∧
            result = ⟨retained.item, retained.created, retained.queuedEventIds⟩) := by
  unfold patchMemory at h
  simp only at h
  cases htarget : patchTarget store command x with
  | error e => simp [htarget] at h
  | ok current =>
    refine ⟨current, rfl, ?_⟩
    simp only [htarget] at h
    cases houtcome : patchOutcome rt current command with
    | error e => simp [houtcome] at h
    | ok outcome =>
      cases outcome with
      | none =>
        simp only [houtcome, Prod.mk.injEq, Except.ok.injEq] at h
        exact .inl ⟨rfl, h.1.symm, h.2.symm⟩
      | some pair =>
        obtain ⟨text, confidence⟩ := pair
        simp only [houtcome] at h
        cases hcommand : patchCommand rt command text with
        | error e => simp [hcommand] at h
        | ok replacement =>
          simp only [hcommand] at h
          refine .inr ⟨text, confidence, replacement, ?_⟩
          rcases hrun : (RetentionService.supersede store privacy replacement none d).run x
            with ⟨r, z⟩
          rw [hrun] at h
          cases r with
          | error e => simp at h
          | ok retained =>
            simp only [Prod.mk.injEq, Except.ok.injEq] at h
            obtain ⟨hresult, rfl⟩ := h
            exact ⟨retained, rfl, hcommand, rfl, hresult.symm⟩

variable (rt store) in
/-- A patch makes one call of the retention service at most. -/
theorem patchMemory_store (privacy : PrivacyGuard) (command : VaultPatchCommand) (d : Draws)
    (x : σ) :
    (patchMemory rt store (some privacy) command d x).2 = x ∨
      ∃ replacement, (patchMemory rt store (some privacy) command d x).2 =
        ((RetentionService.supersede store privacy replacement none d).run x).2 := by
  unfold patchMemory
  simp only
  cases patchTarget store command x with
  | error e => exact .inl rfl
  | ok current =>
    cases houtcome : patchOutcome rt current command with
    | error e => exact .inl (by simp only [houtcome])
    | ok outcome =>
      cases outcome with
      | none => exact .inl (by simp only [houtcome])
      | some pair =>
        simp only [houtcome]
        cases patchCommand rt command pair.1 with
        | error e => exact .inl rfl
        | ok replacement =>
          refine .inr ⟨replacement, ?_⟩
          dsimp only
          rcases (RetentionService.supersede store privacy replacement none d).run x with ⟨r, z⟩
          cases r <;> rfl

/-- The item that a patch names is stored, and it is of the workspace and the revision of the
patch. -/
theorem patchTarget_eq_ok {current : MemoryItem} (h : patchTarget store command x = .ok current) :
    store.get x command.tenantId command.itemId = some current ∧
      current.workspaceId = command.workspaceId ∧
      (current.revision : ℤ) = command.expectedRevision := by
  unfold patchTarget at h
  cases hget : store.get x command.tenantId command.itemId with
  | none => simp [hget] at h
  | some i =>
    simp only [hget] at h
    split at h
    · cases h
    split at h
    · cases h
    split at h
    · cases h
    · rename_i hworkspace hrevision _
      cases h
      exact ⟨rfl, not_not.mp hworkspace, not_not.mp hrevision⟩

/-- The target depends on what is found under the identifier. -/
theorem patchTarget_congr
    (h : store.get y command.tenantId command.itemId =
      store.get x command.tenantId command.itemId) :
    patchTarget store command y = patchTarget store command x := by
  unfold patchTarget
  rw [h]

theorem patchCommand_eq_ok {text : String} {replacement : SupersedeMemoryCommand}
    (h : patchCommand rt command text = .ok replacement) :
    replacement.tenantId = command.tenantId ∧ replacement.itemId = command.itemId ∧
      replacement.idempotencyKey = some (command.clientKey.getD (patchKey rt command text)) := by
  obtain ⟨htenant, hid, -, -, -, -, hkey⟩ := SupersedeMemoryCommand.create_eq_ok h
  exact ⟨htenant, hid, hkey⟩

/-- The outcome of a patch is the text that it asks for, with its own confidence or the one that
the item has. -/
theorem patchOutcome_eq_some {current : MemoryItem} {text : String} {confidence : ℚ}
    (h : patchOutcome rt current command = .ok (some (text, confidence))) :
    confidence = command.confidence.getD current.confidence := by
  unfold patchOutcome at h
  obtain ⟨asked, -, h⟩ := Except.bind_eq_ok.mp h
  split at h
  · cases h
  dsimp only at h
  split at h
  · cases h
  · cases h
    rfl

end VaultExporter

end MemoryPlane
