import MemoryPlane.Runs.Keys
import MemoryPlane.Runs.Replacements
import MemoryPlane.Services.VaultArchive
import MemoryPlane.Services.VaultPatch

/-!
# Retried patches

The key of a patch tells its complete outcome. A patch that returned either changed nothing, which
depends on an item that never changes, or left its key with the item that it returned; a retry finds
one or the other, however far the chain of the item has moved on.
-/

namespace MemoryPlane

open VaultExporter InMemoryMemoryStore

/-- Different floats have different texts, none of which is empty or holds the separator of the
parts of a key. -/
structure TellsFloats (float : ℚ → String) : Prop where
  injective : Function.Injective float
  nonempty : ∀ q, float q ≠ ""
  unseparated : ∀ q, '\x1f' ∉ (float q).toList

/-- Stores that further operations, patches and archives lead to. -/
inductive LaterByVault (rt : PatchRuntime) (env : Deployment) (s : InMemoryMemoryStore) :
    InMemoryMemoryStore → Prop
  | refl : LaterByVault rt env s s
  | operation {t : InMemoryMemoryStore} (op : Operation) (d : Draws)
      (before : LaterByVault rt env s t) (fresh : d.Fresh (op.drawCount t) t.usedIds) :
      LaterByVault rt env s (op.run env d t).2
  | patch {t : InMemoryMemoryStore} (command : VaultPatchCommand) (d : Draws)
      (before : LaterByVault rt env s t) (fresh : d.Fresh 2 t.usedIds) :
      LaterByVault rt env s
        (patchMemory rt inMemoryRetention (some env.privacy) command d t).2
  | archive {t : InMemoryMemoryStore} (tenantId workspaceId : UUID) (file : VaultImportSource)
      (d : Draws) (before : LaterByVault rt env s t) (fresh : d.Fresh 2 t.usedIds) :
      LaterByVault rt env s (archiveFile rt.notes inMemoryRetention tenantId workspaceId
        (some env.privacy) file d t).2

section Keys

variable {rt : PatchRuntime} {command other : VaultPatchCommand} {text text' : String}

theorem confidenceText_inj (hfloat : TellsFloats rt.float) {a b : Option ℚ}
    (h : confidenceText rt a = confidenceText rt b) : a = b := by
  cases a with
  | none =>
    cases b with
    | none => rfl
    | some q => exact absurd h.symm (hfloat.nonempty q)
  | some p =>
    cases b with
    | none => exact absurd h (hfloat.nonempty p)
    | some q => rw [hfloat.injective h]

theorem unseparated_confidenceText (hfloat : TellsFloats rt.float) (confidence : Option ℚ) :
    '\x1f' ∉ (confidenceText rt confidence).toList := by
  cases confidence with
  | none => exact List.not_mem_nil
  | some q => exact hfloat.unseparated q

/-- The text of a payload stands between the head that two patches share and the confidence. -/
theorem patchPayload_toList :
    (patchPayload rt command text).toList =
      ("\x1f".intercalate [command.tenantId.str, command.workspaceId.str, command.itemId.str,
        toString command.expectedRevision]).toList ++
        '\x1f' :: (text.toList ++ '\x1f' :: (confidenceText rt command.confidence).toList) := by
  simp [patchPayload]

/-- Patches of one item and one revision with the same key have the same text and confidence. -/
theorem patchKey_inj (hsha : Function.Injective rt.sha256Hex) (hfloat : TellsFloats rt.float)
    (htenant : command.tenantId = other.tenantId)
    (hworkspace : command.workspaceId = other.workspaceId) (hitem : command.itemId = other.itemId)
    (hrevision : command.expectedRevision = other.expectedRevision)
    (h : patchKey rt command text = patchKey rt other text') :
    text = text' ∧ command.confidence = other.confidence := by
  have hkey : ∀ (c : VaultPatchCommand) (t : String), (patchKey rt c t).toList =
      ("vault-patch:".toList ++ (c.itemId.str.toList ++ ':' ::
        ((toString c.expectedRevision).toList ++ [':']))) ++
          (rt.sha256Hex (patchPayload rt c t)).toList := by
    intro c t
    have hkey : patchKey rt c t = "vault-patch:" ++ c.itemId.str ++ ":" ++
        toString c.expectedRevision ++ ":" ++ rt.sha256Hex (patchPayload rt c t) := rfl
    simp [hkey]
  have hlist := congrArg String.toList h
  rw [hkey, hkey, hitem, hrevision, List.append_cancel_left_eq] at hlist
  have hdigest : rt.sha256Hex (patchPayload rt command text) =
      rt.sha256Hex (patchPayload rt other text') := String.toList_inj.mp hlist
  have hpayload := congrArg String.toList (hsha hdigest)
  rw [patchPayload_toList, patchPayload_toList, htenant, hworkspace, hitem, hrevision] at hpayload
  have htail := (List.cons.inj (List.append_cancel_left hpayload)).2
  obtain ⟨htext, hconfidence⟩ := List.append_cons_inj_of_not_mem htail
    (unseparated_confidenceText hfloat command.confidence)
    (unseparated_confidenceText hfloat other.confidence)
  exact ⟨String.toList_inj.mp htext, confidenceText_inj hfloat (String.toList_inj.mp hconfidence)⟩

end Keys

section Steps

variable {rt : PatchRuntime} {env : Deployment} {s t u : InMemoryMemoryStore} {d : Draws}

/-- One call of the retention service is an operation. -/
theorem Later.replacement (h : Later env s t) (command : SupersedeMemoryCommand)
    (hd : d.Fresh 2 t.usedIds) :
    Later env s
      ((RetentionService.supersede inMemoryRetention env.privacy command none d).run t).2 := by
  have hstep := Later.step (.supersede command none) d h hd
  simpa only [Operation.run, Operation.program, MemoryOperation.program, inMemoryStores,
    Proc.run_wrap] using hstep

variable (rt) in
theorem Later.patch (h : Later env s t) (command : VaultPatchCommand) (hd : d.Fresh 2 t.usedIds) :
    Later env s (patchMemory rt inMemoryRetention (some env.privacy) command d t).2 := by
  rcases patchMemory_store rt inMemoryRetention env.privacy command d t with
    hsame | ⟨replacement, hcall⟩
  · rw [hsame]
    exact h
  · rw [hcall]
    exact h.replacement replacement hd

theorem Later.archive (h : Later env s t) (tenantId workspaceId : UUID) (file : VaultImportSource)
    (hd : d.Fresh 2 t.usedIds) :
    Later env s (archiveFile rt.notes inMemoryRetention tenantId workspaceId (some env.privacy) file
      d t).2 := by
  cases hplan : planFileArchive rt.notes inMemoryRetention tenantId workspaceId t file with
  | error e =>
    have hsame : (archiveFile rt.notes inMemoryRetention tenantId workspaceId (some env.privacy)
        file d t).2 = t := by
      simp only [archiveFile, hplan]
    rw [hsame]
    exact h
  | ok change =>
    rw [archiveFile_store hplan]
    by_cases hcall : ∃ itemId expectedRevision command, change.action = .archive ∧
        change.itemId = some itemId ∧ change.expectedRevision = some expectedRevision ∧
        archiveCommand rt.notes tenantId file itemId expectedRevision = .ok command
    · obtain ⟨itemId, expectedRevision, command, haction, hid, hexpected, hcommand⟩ := hcall
      rw [applyArchive_store haction hid hexpected hcommand]
      exact h.replacement command hd
    · rw [applyArchive_store_of_none fun i r c ha hi hr hc => hcall ⟨i, r, c, ha, hi, hr, hc⟩]
      exact h

/-- Patches and archives are operations. -/
theorem LaterByVault.later (h : LaterByVault rt env s t) : Later env s t := by
  induction h with
  | refl => exact .refl
  | operation op d _ fresh ih => exact .step op d ih fresh
  | patch command d _ fresh ih => exact ih.patch rt command fresh
  | archive tenantId workspaceId file d _ fresh ih =>
    exact ih.archive tenantId workspaceId file fresh

end Steps

section Answers

variable (rt : PatchRuntime) (env : Deployment) (s : InMemoryMemoryStore)
  (command : VaultPatchCommand) (current item : MemoryItem)

/-- The key of a patch that replaces the item leads to the item of the answer. -/
structure KeyedAnswer (text : String) (replacement : SupersedeMemoryCommand) : Prop where
  asked : patchCommand rt command text = .ok replacement
  prepared : ∃ d r, RetentionService.prepareReplacement env.privacy replacement current d = .ok r
  entry : ∃ e, s.replayed current.tenantId
      (scopeIdempotencyKey current.workspaceId replacement.idempotencyKey) = some e ∧
    s.items.find e.itemId = some item

/-- The store answers the patch: it changes nothing, or its key was used. -/
structure PatchAnswered : Prop where
  target : patchTarget inMemoryRetention command s = .ok current
  answer : (patchOutcome rt current command = .ok none ∧ item = current) ∨
    ∃ text confidence replacement, patchOutcome rt current command = .ok (some (text, confidence)) ∧
      KeyedAnswer rt env s command current item text replacement

variable {rt env s command current item} {t : InMemoryMemoryStore} {d : Draws}

/-- An answer stays. -/
theorem PatchAnswered.later (h : PatchAnswered rt env s command current item) (hs : Reachable env s)
    (hlater : Later env s t) : PatchAnswered rt env t command current item := by
  obtain ⟨hfound, -, -⟩ := patchTarget_eq_ok h.target
  have hlast : t.get command.tenantId command.itemId = s.get command.tenantId command.itemId :=
    (hlater.found hs hfound).trans hfound.symm
  refine ⟨(patchTarget_congr hlast).trans h.target, ?_⟩
  rcases h.answer with hnone | ⟨text, confidence, replacement, houtcome, hkeyed⟩
  · exact .inl hnone
  · refine .inr ⟨text, confidence, replacement, houtcome, hkeyed.asked, hkeyed.prepared, ?_⟩
    obtain ⟨e, hentry, hfind⟩ := hkeyed.entry
    refine ⟨e, hlater.keeps_key hs hentry, ?_⟩
    obtain ⟨hmem, hid⟩ := Table.find_eq_some.mp hfind
    exact Table.find_eq_some.mpr ⟨hlater.keeps_items hs hmem, hid⟩

/-- A patch that returned leaves its answer. -/
theorem answered_of_patch (hs : Reachable env s) (hd : d.Fresh 2 s.usedIds)
    {result : VaultPatchResult}
    (h : patchMemory rt inMemoryRetention (some env.privacy) command d s = (.ok result, t)) :
    ∃ current, PatchAnswered rt env t command current result.item := by
  have hlater : Later env s t := by
    have hstep := (Later.refl : Later env s s).patch rt command hd
    rwa [h] at hstep
  obtain ⟨current, htarget, hreturned⟩ := patchMemory_eq_ok h
  obtain ⟨hfound, -, -⟩ := patchTarget_eq_ok htarget
  have hlast : t.get command.tenantId command.itemId = s.get command.tenantId command.itemId :=
    (hlater.found hs hfound).trans hfound.symm
  refine ⟨current, (patchTarget_congr hlast).trans htarget, ?_⟩
  rcases hreturned with ⟨houtcome, rfl, -⟩ |
    ⟨text, confidence, replacement, retained, houtcome, hcommand, hrun, rfl⟩
  · exact .inl ⟨houtcome, rfl⟩
  · refine .inr ⟨text, confidence, replacement, houtcome, ?_⟩
    obtain ⟨htenant, hitem, hkey⟩ := patchCommand_eq_ok hcommand
    have hsupersede := supersede_outcome env.privacy s d replacement
    rw [hrun] at hsupersede
    obtain ⟨current', item, event, e, hready, hentry, hfind⟩ := hsupersede.keyed hkey
    have hsame : current' = current := by
      have hfound' := hready.found
      rw [htenant, hitem] at hfound'
      exact Option.some.inj (hfound'.symm.trans hfound)
    subst hsame
    obtain ⟨-, -, -, -, hitenant, hworkspace, -⟩ :=
      RetentionService.prepareReplacement_eq_ok hready.prepared
    refine ⟨hcommand, ⟨d, _, hready.prepared⟩, e, ?_, hfind⟩
    rw [← hitenant, ← hworkspace]
    exact hentry

/-- A store that answers a patch returns the item and is not changed. -/
theorem PatchAnswered.retry (h : PatchAnswered rt env s command current item) (d : Draws) :
    patchMemory rt inMemoryRetention (some env.privacy) command d s =
      (.ok ⟨item, false, []⟩, s) := by
  rcases h.answer with ⟨houtcome, rfl⟩ | ⟨text, confidence, replacement, houtcome, hkeyed⟩
  · simp only [patchMemory, h.target, houtcome]
  · obtain ⟨d', ⟨prepared, event⟩, hprepared⟩ := hkeyed.prepared
    obtain ⟨e, hentry, hfind⟩ := hkeyed.entry
    obtain ⟨htenant, hitem, -⟩ := patchCommand_eq_ok hkeyed.asked
    obtain ⟨again, event', hagain, hsametenant, hsameworkspace⟩ :=
      prepareReplacement_redrawn hprepared d
    obtain ⟨-, -, -, -, hitenant, hworkspace, -⟩ :=
      RetentionService.prepareReplacement_eq_ok hprepared
    have hready : Replaceable env.privacy s d replacement current again event' := by
      refine ⟨?_, hagain⟩
      rw [htenant, hitem]
      exact (patchTarget_eq_ok h.target).1
    have hrun := hready.run_replayed (e := e) <| by
      rw [replacementKey, hsametenant, hsameworkspace, hitenant, hworkspace]
      exact hentry
    have hstored : s.itemAt e.itemId = .ok item := by
      simp only [itemAt, hfind]
    rw [hstored] at hrun
    simp only [patchMemory, h.target, houtcome, hkeyed.asked, hrun, Except.map]

/-- Answers to two patches of one item and revision with one new item have the same outcome. -/
theorem PatchAnswered.outcome_eq (hsha : Function.Injective rt.sha256Hex)
    (hfloat : TellsFloats rt.float) (hs : Reachable env s) {other : VaultPatchCommand}
    {current' item' : MemoryItem} (h : PatchAnswered rt env s command current item)
    (h' : PatchAnswered rt env s other current' item') (hkey : command.clientKey = none)
    (hkey' : other.clientKey = none) (hitem : other.itemId = command.itemId)
    (hrevision : other.expectedRevision = command.expectedRevision) (hsame : item'.id = item.id)
    (hnew : item.id ≠ command.itemId) :
    current' = current ∧ patchOutcome rt current other = patchOutcome rt current command := by
  obtain ⟨hfound, hworkspace, -⟩ := patchTarget_eq_ok h.target
  obtain ⟨hfound', hworkspace', -⟩ := patchTarget_eq_ok h'.target
  obtain ⟨hmem, hid, htenant⟩ := Ledger.get_eq_some.mp hfound
  obtain ⟨hmem', hid', htenant'⟩ := Ledger.get_eq_some.mp hfound'
  have hcurrent : current' = current :=
    s.items.eq_of_key_eq hmem' hmem (hid'.trans (hitem.trans hid.symm))
  subst hcurrent
  refine ⟨rfl, ?_⟩
  rcases h.answer with ⟨-, rfl⟩ | ⟨text, confidence, replacement, houtcome, hkeyed⟩
  · exact absurd hid hnew
  rcases h'.answer with ⟨-, rfl⟩ | ⟨text', confidence', replacement', houtcome', hkeyed'⟩
  · exact absurd (hsame.symm.trans hid) hnew
  obtain ⟨e, hentry, hfind⟩ := hkeyed.entry
  obtain ⟨e', hentry', hfind'⟩ := hkeyed'.entry
  have hentries : e'.itemId = e.itemId :=
    (Table.find_eq_some.mp hfind').2.symm.trans (hsame.trans (Table.find_eq_some.mp hfind).2)
  have hscoped := hs.key_eq hentry' hentry hentries
  rw [(patchCommand_eq_ok hkeyed.asked).2.2, (patchCommand_eq_ok hkeyed'.asked).2.2, hkey, hkey',
    Option.getD_none, Option.getD_none] at hscoped
  obtain ⟨rfl, hconfidence⟩ := patchKey_inj hsha hfloat (htenant'.symm.trans htenant)
    (hworkspace'.symm.trans hworkspace) hitem hrevision (scopeIdempotencyKey_inj hscoped)
  rw [houtcome, houtcome', patchOutcome_eq_some houtcome, patchOutcome_eq_some houtcome',
    hconfidence]

end Answers

/-- For every reachable store and every patch without a key of the client that returned: after any
number of further operations, patches and archives, the same patch returns the same item as not
changed and leaves the store as it is, and a patch of the same item and revision with another
outcome does not return the same new item. -/
theorem vault_patch_retry_safe (rt : PatchRuntime) (hsha : Function.Injective rt.sha256Hex)
    (hfloat : TellsFloats rt.float) (env : Deployment) (s : InMemoryMemoryStore)
    (hs : Reachable env s) (command : VaultPatchCommand) (hkey : command.clientKey = none)
    (d : Draws) (hd : d.Fresh 2 s.usedIds) (result : VaultPatchResult) (t : InMemoryMemoryStore)
    (hfirst : patchMemory rt inMemoryRetention (some env.privacy) command d s = (.ok result, t))
    (u : InMemoryMemoryStore) (hlater : LaterByVault rt env t u) :
    (∀ d', patchMemory rt inMemoryRetention (some env.privacy) command d' u =
      (.ok ⟨result.item, false, []⟩, u)) ∧
    ∀ (other : VaultPatchCommand) (d' : Draws) (result' : VaultPatchResult)
      (v : InMemoryMemoryStore) (current : MemoryItem), other.clientKey = none →
      other.itemId = command.itemId → other.expectedRevision = command.expectedRevision →
      d'.Fresh 2 u.usedIds →
      patchMemory rt inMemoryRetention (some env.privacy) other d' u = (.ok result', v) →
      u.get command.tenantId command.itemId = some current →
      patchOutcome rt current other ≠ patchOutcome rt current command →
      result.item.id ≠ command.itemId → result'.item.id ≠ result.item.id := by
  have ht : Reachable env t := by
    have hstep := ((Later.refl : Later env s s).patch rt command hd).reachable hs
    rwa [hfirst] at hstep
  have hu := hlater.later.reachable ht
  obtain ⟨current, hanswered⟩ := answered_of_patch hs hd hfirst
  have hlast := hanswered.later ht hlater.later
  refine ⟨hlast.retry, ?_⟩
  intro other d' result' v found hkey' hitem hrevision hd' hsecond hfound hdiffer hnew hsame
  have hstep := (Later.refl : Later env u u).patch rt other hd'
  rw [hsecond] at hstep
  have hfinal := hlast.later hu hstep
  obtain ⟨current', hanswered'⟩ := answered_of_patch hu hd' hsecond
  obtain ⟨-, houtcome⟩ := hfinal.outcome_eq hsha hfloat (hstep.reachable hu) hanswered' hkey hkey'
    hitem hrevision hsame hnew
  have hcurrent : found = current :=
    Option.some.inj (hfound.symm.trans (patchTarget_eq_ok hlast.target).1)
  rw [hcurrent] at hdiffer
  exact hdiffer houtcome

/-- The parts of a fraction, as a text. -/
def fractionText (q : ℚ) : String :=
  s!"{(q.num.toNat : ℤ)}/{((-q.num).toNat : ℤ)}/{(q.den : ℤ)}"

/-- Printed fractions tell numbers. -/
theorem tellsFloats_fractionText : TellsFloats fractionText := by
  have hlist : ∀ q, (fractionText q).toList =
      ((toString (q.num.toNat : ℤ)).toList ++ '/' :: (toString ((-q.num).toNat : ℤ)).toList) ++
        '/' :: (toString (q.den : ℤ)).toList := by
    intro q
    have hmark : (toString "/").toList = ['/'] := rfl
    simp [fractionText, hmark]
  have habsent : ∀ (c : Char) (n : ℤ), c.isDigit = false → c ≠ '-' → c ∉ (toString n).toList := by
    intro c n hdigit hsign hmem
    obtain h | h := mem_toString hmem
    · rw [hdigit] at h
      cases h
    · exact hsign h
  have hslash : ∀ n : ℤ, '/' ∉ (toString n).toList := fun n =>
    habsent '/' n (by decide) (by decide)
  have hnat : ∀ m n : ℕ, (toString (m : ℤ)).toList = (toString (n : ℤ)).toList → m = n := by
    intro m n h
    have hread := readInt_toString asciiUnicode m
    rw [h, readInt_toString] at hread
    exact_mod_cast (Option.some.inj hread).symm
  constructor
  · intro p q h
    have hparts := congrArg String.toList h
    rw [hlist, hlist] at hparts
    obtain ⟨hnum, hden⟩ := List.append_cons_inj_of_not_mem hparts (hslash _) (hslash _)
    obtain ⟨hpositive, hnegative⟩ := List.append_cons_inj_of_not_mem hnum (hslash _) (hslash _)
    have hpositive := hnat _ _ hpositive
    have hnegative := hnat _ _ hnegative
    apply Rat.ext
    · omega
    · exact hnat _ _ hden
  · intro q h
    have hempty := hlist q
    rw [h] at hempty
    simp at hempty
  · intro q hmem
    have hunit : ∀ n : ℤ, '\x1f' ∉ (toString n).toList := fun n =>
      habsent '\x1f' n (by decide) (by decide)
    rw [hlist, List.mem_append, List.mem_append, List.mem_cons, List.mem_cons] at hmem
    obtain (hmem | hmem | hmem) | hmem | hmem := hmem
    · exact hunit _ hmem
    · exact absurd hmem (by decide)
    · exact hunit _ hmem
    · exact absurd hmem (by decide)
    · exact hunit _ hmem

/-- What the digest of the small run covers. -/
def shipPayload : String :=
  "00000000-0000-0000-0000-000000000001\x1f00000000-0000-0000-0000-000000000002\x1f" ++
    "00000000-0000-0000-0000-00000000000a\x1f1\x1f# Plan\n\n## Goal\nShip it.\n## Limits\nNone.\x1f"

/-- The digest of that text; every other text stands for its own. -/
def shipDigest (text : String) : String :=
  if text = shipPayload then "505c04a49c1924fe2eaa1f882280e3d004977184372c956de9acd5061f0869d3"
  else "-" ++ text

theorem shipDigest_injective : Function.Injective shipDigest := by
  have hmarked : ∀ text : String,
      "505c04a49c1924fe2eaa1f882280e3d004977184372c956de9acd5061f0869d3" ≠ "-" ++ text := by
    intro text h
    have hhead := congrArg (fun x => x.toList.head?) h
    simp at hhead
  intro a b h
  unfold shipDigest at h
  split at h
  · split at h
    · simp_all
    · exact absurd h (hmarked b)
  · split at h
    · exact absurd h.symm (hmarked a)
    · have htail := congrArg String.toList h
      exact String.toList_inj.mp (by simpa using htail)

/-- The library for small runs. -/
def shipRuntime : PatchRuntime := ⟨asciiNotes, fractionText, shipDigest⟩

/-- A store with a plan of two sections. -/
def storeWithPlan : InMemoryMemoryStore :=
  let text := "# Plan\n\n## Goal\nDraft it.\n\n## Limits\nNone."
  ((Operation.retain (plainRetain text .workspace none) none).run (plainDeployment (UUID.ofNat 0))
    (drawsFrom 10) .empty).2

/-- The patch of one of its sections. -/
def goalPatch : VaultPatchCommand where
  tenantId := UUID.ofNat 1
  workspaceId := UUID.ofNat 2
  itemId := UUID.ofNat 10
  expectedRevision := 1
  sectionHeading := some "Goal"
  sectionContent := some "Ship it."
  valid := by decide +kernel

/-- The first run of the patch. -/
def firstPatch : Except Exn VaultPatchResult × InMemoryMemoryStore :=
  patchMemory shipRuntime inMemoryRetention (some { enabled := false }) goalPatch (drawsFrom 20)
    storeWithPlan

/-- A patch of the section beside it, in the item that the first patch left. -/
def limitsPatch : VaultPatchCommand where
  tenantId := UUID.ofNat 1
  workspaceId := UUID.ofNat 2
  itemId := UUID.ofNat 20
  expectedRevision := 2
  sectionHeading := some "Limits"
  sectionContent := some "Two days."
  valid := by decide +kernel

/-- A patch of the first item that asks for the text it has. -/
def draftPatch : VaultPatchCommand where
  tenantId := UUID.ofNat 1
  workspaceId := UUID.ofNat 2
  itemId := UUID.ofNat 10
  expectedRevision := 1
  replaceBody := some "# Plan\n\n## Goal\nDraft it.\n\n## Limits\nNone."
  valid := by decide +kernel

/-- The store after both patches. -/
def storeWithLimits : InMemoryMemoryStore :=
  (patchMemory shipRuntime inMemoryRetention (some { enabled := false }) limitsPatch (drawsFrom 30)
    firstPatch.2).2

/-- The run of the other patch on that store. -/
def draftRun : Except Exn VaultPatchResult × InMemoryMemoryStore :=
  patchMemory shipRuntime inMemoryRetention (some { enabled := false }) draftPatch (drawsFrom 40)
    storeWithLimits

/-- A run without an error returns. -/
theorem exists_returned {ε α β : Type} {run : Except ε α × β} (h : run.1.isOk = true) :
    ∃ result, run = (.ok result, run.2) := by
  rcases run with ⟨r, t⟩
  cases r with
  | error e => cases h
  | ok result => exact ⟨result, rfl⟩

/-- All three runs succeed under fresh draws, the first one leaves a new item, and the item that it
patched stays where the other patch asks for another outcome. -/
theorem goal_runs :
    (firstPatch.1.isOk = true ∧ draftRun.1.isOk = true) ∧
      ((drawsFrom 20).Fresh 2 storeWithPlan.usedIds ∧
        (drawsFrom 30).Fresh 2 firstPatch.2.usedIds ∧
          (drawsFrom 40).Fresh 2 storeWithLimits.usedIds) ∧
      (∀ r ∈ firstPatch.1.toOption, r.item.id ≠ UUID.ofNat 10) ∧
      (storeWithLimits.get (UUID.ofNat 1) (UUID.ofNat 10)).isSome = true ∧
      ∀ current ∈ storeWithLimits.get (UUID.ofNat 1) (UUID.ofNat 10),
        patchOutcome shipRuntime current draftPatch ≠
          patchOutcome shipRuntime current goalPatch := by
  decide +kernel

/-- After a patch of the item that it left, a retry of the first patch returns its item and leaves
the store; the patch that asks for the first text returns another item. -/
theorem vault_patch_retry_of_goal : ∃ result, firstPatch = (.ok result, firstPatch.2) ∧
    (∀ d, patchMemory shipRuntime inMemoryRetention (some { enabled := false }) goalPatch d
      storeWithLimits = (.ok ⟨result.item, false, []⟩, storeWithLimits)) ∧
    ∃ kept, draftRun = (.ok kept, draftRun.2) ∧ kept.item.id ≠ result.item.id := by
  obtain ⟨⟨hfirst, hdraft⟩, ⟨hd₁, hd₂, hd₃⟩, hnew, hfound, hdiffer⟩ := goal_runs
  obtain ⟨result, hresult⟩ := exists_returned hfirst
  obtain ⟨kept, hkept⟩ := exists_returned hdraft
  have hstore : Reachable (plainDeployment (UUID.ofNat 0)) storeWithPlan :=
    .step _ (drawsFrom 10) .empty (by decide +kernel)
  have hlater : LaterByVault shipRuntime (plainDeployment (UUID.ofNat 0)) firstPatch.2
      storeWithLimits := .patch limitsPatch (drawsFrom 30) .refl hd₂
  have hsafe := vault_patch_retry_safe shipRuntime shipDigest_injective tellsFloats_fractionText
    (plainDeployment (UUID.ofNat 0)) storeWithPlan hstore goalPatch rfl (drawsFrom 20) hd₁ result
    firstPatch.2 hresult storeWithLimits hlater
  obtain ⟨current, hcurrent⟩ := Option.isSome_iff_exists.mp hfound
  refine ⟨result, hresult, hsafe.1, kept, hkept, ?_⟩
  refine hsafe.2 draftPatch (drawsFrom 40) kept draftRun.2 current rfl rfl rfl hd₃ hkept hcurrent
    (hdiffer current hcurrent) (hnew result ?_)
  rw [hresult]
  rfl

end MemoryPlane
