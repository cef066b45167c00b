import MemoryPlane.Scripts.AuditBundle
import MemoryPlane.Lib.Proc

/-!
# What a verified bundle has passed

Every collected check is characterised by the files it reads. A bundle that is accepted has passed
each of them, but a manifest that is no object has no check of the events among them, and an empty
signing key has no check of the signature.
-/

namespace MemoryPlane

namespace AuditBundle

variable (rt : BundleRuntime) (directory : BundleDirectory)

/-- The first field of a digest file. -/
def DigestIs (name digest : String) : Prop := readDigest directory name = .ok (some digest, [])

/-- The manifest is a JSON object. -/
def ManifestIs (bytes : List UInt8) (members : JsonMembers) : Prop :=
  parseManifest rt (some bytes) = .ok (some members, [])

/-- The manifest is JSON but no object. -/
def NotAnObject (bytes : List UInt8) : Prop := parseManifest rt (some bytes) = .ok (none, [])

/-- The manifest lists the digest of the events. -/
def Listed (members : JsonMembers) (events : List UInt8) : Prop :=
  listedDigest rt members ≠ "" ∧ sha256Hex rt events = listedDigest rt members

/-- The signature of the manifest under a key. -/
def SignedBy (key : String) (bytes : List UInt8) : Prop :=
  DigestIs directory "manifest.sig" (hmacSha256Hex rt key bytes)

/-- What an accepted bundle should be. -/
def Sound (signingKey : Option String) : Prop :=
  ∃ bytes members events,
    directory "manifest.json" = .file bytes ∧ ManifestIs rt bytes members ∧
    DigestIs directory "manifest.sha256" (sha256Hex rt bytes) ∧
    directory "audit-events.jsonl" = .file events ∧ Listed rt members events ∧
    ∀ key, signingKey = some key → SignedBy rt directory key bytes

/-- A key that is not empty has signed the manifest; without one there is no signature. -/
def SignatureHolds (signingKey : Option String) (bytes : List UInt8) : Prop :=
  match signingKey.filter (· ≠ "") with
  | some key => SignedBy rt directory key bytes
  | none => ∃ error, directory "manifest.sig" = .absent error

/-- A component of the bundle is checked by nothing, and what is checked passes. -/
def Unchecked (signingKey : Option String) : Prop :=
  ∃ bytes events,
    directory "manifest.json" = .file bytes ∧
    DigestIs directory "manifest.sha256" (sha256Hex rt bytes) ∧
    directory "audit-events.jsonl" = .file events ∧
    SignatureHolds rt directory signingKey bytes ∧
    (NotAnObject rt bytes ∨
      signingKey = some "" ∧ ∃ members, ManifestIs rt bytes members ∧ Listed rt members events)

/-- A computation returns checks that all pass. -/
def Passes (x : Except String (List BundleCheck)) : Prop :=
  ∃ checks, x = .ok checks ∧ checks.all (·.ok) = true

section Checks

variable {rt directory} {name : String}

theorem hexdigest_ascii (bytes : List UInt8) :
    (hexdigest bytes).toList.all (fun c => c.toNat < 128) = true := by
  have hdigit : ∀ d < 16, (hexDigit d).toNat < 128 := by decide
  have htoList : (hexdigest bytes).toList = bytes.flatMap fun byte => hexDigits 2 byte.toNat :=
    String.toList_ofList
  rw [htoList, List.all_eq_true]
  intro c hc
  obtain ⟨byte, -, hmem⟩ := List.mem_flatMap.mp hc
  obtain ⟨d, hd, rfl⟩ := mem_hexDigits hmem
  exact decide_eq_true (hdigit d hd)

theorem compareDigest_hexdigest (bytes : List UInt8) (expected : String) :
    compareDigest (hexdigest bytes) expected = .ok true ↔ expected = hexdigest bytes := by
  have hascii := hexdigest_ascii bytes
  rw [compareDigest, hascii, Bool.true_and]
  constructor
  · intro h
    split at h
    · exact (of_decide_eq_true (Except.ok.inj h)).symm
    · cases h
  · rintro rfl
    rw [if_pos hascii, decide_eq_true rfl]

/-- A single check passes if its outcome is true. -/
theorem passes_single {x : Except String Bool} {check : Bool → BundleCheck}
    (hcheck : ∀ ok, (check ok).ok = ok) :
    Passes (x >>= fun ok => pure [check ok]) ↔ x = .ok true := by
  constructor
  · rintro ⟨checks, h, hok⟩
    obtain ⟨ok, hx, hchecks⟩ := Except.bind_eq_ok.mp h
    cases hchecks
    rw [List.all_cons, List.all_nil, Bool.and_true, hcheck] at hok
    rw [hx, hok]
  · rintro rfl
    refine ⟨[check true], rfl, ?_⟩
    rw [List.all_cons, List.all_nil, Bool.and_true, hcheck]

theorem digestChecks_passes (bytes : List UInt8) (expected : String) :
    Passes (digestChecks name (some (hexdigest bytes)) (some expected)) ↔
      expected = hexdigest bytes := by
  rw [← compareDigest_hexdigest]
  exact passes_single fun ok => rfl

/-- A required file passes if it can be read. -/
theorem readRequired_passes :
    (readRequired directory name).2.all (·.ok) = true ↔
      ∃ bytes, directory name = .file bytes := by
  rw [readRequired]
  cases directory name with
  | absent error => simp
  | unreadable error => simp
  | file bytes => simp

theorem readRequired_file {bytes : List UInt8} (h : directory name = .file bytes) :
    readRequired directory name = (some bytes, []) := by
  rw [readRequired, h]

/-- A digest file passes if it has a first field. -/
theorem readDigest_passes {expected : Option String} {checks : List BundleCheck}
    (h : readDigest directory name = .ok (expected, checks))
    (hok : checks.all (·.ok) = true) : checks = [] ∧ ∃ digest, expected = some digest := by
  rw [readDigest] at h
  split at h
  · cases h
    cases hok
  · cases h
    cases hok
  · split at h
    · cases h
    · split at h
      · cases h
        cases hok
      · cases h
        exact ⟨rfl, _, rfl⟩

/-- A manifest that passes is JSON. -/
theorem parseManifest_passes {bytes : List UInt8} {manifest : Option JsonMembers}
    {checks : List BundleCheck} (h : parseManifest rt (some bytes) = .ok (manifest, checks))
    (hok : checks.all (·.ok) = true) : checks = [] := by
  rw [parseManifest] at h
  split at h
  · cases h
  · split at h
    · cases h
      rfl
    · cases h
      rfl
    · cases h
      cases hok
    · cases h

theorem eventChecks_passes (members : JsonMembers) (events : List UInt8) :
    Passes (eventChecks rt (some members) (some events)) ↔ Listed rt members events := by
  rw [Listed, eventChecks]
  by_cases hempty : listedDigest rt members = ""
  · rw [if_pos hempty]
    constructor
    · intro h
      cases (passes_single fun ok => rfl).mp h
    · exact fun h => absurd hempty h.1
  · rw [if_neg hempty]
    constructor
    · intro h
      have hcompare := (passes_single fun ok => rfl).mp h
      exact ⟨hempty, ((compareDigest_hexdigest _ _).mp hcompare).symm⟩
    · exact fun h => (passes_single fun ok => rfl).mpr ((compareDigest_hexdigest _ _).mpr h.2.symm)

theorem signatureChecks_passes (bytes : List UInt8) (signingKey : Option String) :
    Passes (signatureChecks rt directory (some bytes) signingKey) ↔
      SignatureHolds rt directory signingKey bytes := by
  rw [SignatureHolds, signatureChecks]
  cases signingKey.filter (· ≠ "") with
  | none =>
    cases hfile : directory "manifest.sig" with
    | absent error => simp [Passes]
    | unreadable error => simp [Passes]
    | file bytes => simp [Passes]
  | some key =>
    constructor
    · rintro ⟨checks, h, hok⟩
      obtain ⟨⟨expected, unread⟩, hread, h⟩ := Except.bind_eq_ok.mp h
      obtain ⟨signed, hsigned, hchecks⟩ := Except.bind_eq_ok.mp h
      cases hchecks
      rw [List.all_append, Bool.and_eq_true] at hok
      obtain ⟨rfl, digest, rfl⟩ := readDigest_passes hread hok.1
      have hdigest := (digestChecks_passes _ _).mp ⟨signed, hsigned, hok.2⟩
      rw [hdigest] at hread
      exact hread
    · intro h
      have hsigned : Passes (digestChecks "manifest.sig" (some (hmacSha256Hex rt key bytes))
          (some (hmacSha256Hex rt key bytes))) := (digestChecks_passes _ _).mpr rfl
      have hread : readDigest directory "manifest.sig" =
          .ok (some (hmacSha256Hex rt key bytes), []) := h
      obtain ⟨checks, hchecks, hok⟩ := hsigned
      refine ⟨[] ++ checks, ?_, hok⟩
      simp only [hread, Except.ok_bind, Option.map_some, hchecks]
      rfl

end Checks

/-- A bundle is accepted if all of these hold. -/
theorem verifyBundle_eq_zero_iff (signingKey : Option String) :
    verifyBundle rt directory signingKey = .ok 0 ↔
      ∃ bytes events,
        directory "manifest.json" = .file bytes ∧
        DigestIs directory "manifest.sha256" (sha256Hex rt bytes) ∧
        directory "audit-events.jsonl" = .file events ∧
        SignatureHolds rt directory signingKey bytes ∧
        (NotAnObject rt bytes ∨ ∃ members, ManifestIs rt bytes members ∧
          Listed rt members events) := by
  constructor
  · intro h
    obtain ⟨checks, hcollect, hzero⟩ := Except.bind_eq_ok.mp h
    have hok : checks.all (·.ok) = true := by
      by_contra hfail
      rw [if_neg hfail] at hzero
      cases hzero
    obtain ⟨⟨expected, unread⟩, hread, hcollect⟩ := Except.bind_eq_ok.mp hcollect
    obtain ⟨digests, hdigests, hcollect⟩ := Except.bind_eq_ok.mp hcollect
    obtain ⟨⟨manifest, malformed⟩, hparse, hcollect⟩ := Except.bind_eq_ok.mp hcollect
    obtain ⟨listed, hlisted, hcollect⟩ := Except.bind_eq_ok.mp hcollect
    obtain ⟨signed, hsigned, hchecks⟩ := Except.bind_eq_ok.mp hcollect
    cases hchecks
    simp only [List.all_append, Bool.and_eq_true] at hok
    obtain ⟨⟨⟨⟨⟨⟨hmanifest, hunread⟩, hdigests'⟩, hmalformed⟩, hevents⟩, hlisted'⟩, hsigned'⟩ := hok
    obtain ⟨bytes, hbytes⟩ := readRequired_passes.mp hmanifest
    obtain ⟨events, hfile⟩ := readRequired_passes.mp hevents
    rw [readRequired_file hbytes] at hdigests hparse hsigned
    rw [readRequired_file hfile] at hlisted
    obtain ⟨rfl, digest, rfl⟩ := readDigest_passes hread hunread
    have hdigest := (digestChecks_passes _ _).mp ⟨digests, hdigests, hdigests'⟩
    rw [hdigest] at hread
    have hparsed := parseManifest_passes hparse hmalformed
    rw [hparsed] at hparse
    refine ⟨bytes, events, hbytes, hread, hfile,
      (signatureChecks_passes _ _).mp ⟨signed, hsigned, hsigned'⟩, ?_⟩
    cases manifest with
    | none => exact .inl hparse
    | some members =>
      exact .inr ⟨members, hparse, (eventChecks_passes _ _).mp ⟨listed, hlisted, hlisted'⟩⟩
  · rintro ⟨bytes, events, hbytes, hread, hfile, hsignature, hmanifest⟩
    obtain ⟨signed, hsigned, hsigned'⟩ := (signatureChecks_passes _ _).mpr hsignature
    have hdigests : Passes (digestChecks "manifest.sha256" (some (sha256Hex rt bytes))
        (some (sha256Hex rt bytes))) := (digestChecks_passes _ _).mpr rfl
    obtain ⟨digests, hdigests, hdigests'⟩ := hdigests
    have hlisted : ∃ manifest listed, parseManifest rt (some bytes) = .ok (manifest, []) ∧
        eventChecks rt manifest (some events) = .ok listed ∧ listed.all (·.ok) = true := by
      rcases hmanifest with hparse | ⟨members, hparse, hlisted⟩
      · exact ⟨none, [], hparse, rfl, rfl⟩
      · obtain ⟨listed, hlisted, hok⟩ := (eventChecks_passes _ _).mpr hlisted
        exact ⟨some members, listed, hparse, hlisted, hok⟩
    obtain ⟨manifest, listed, hparse, hlisted, hlisted'⟩ := hlisted
    have hread : readDigest directory "manifest.sha256" =
        .ok (some (sha256Hex rt bytes), []) := hread
    simp only [verifyBundle, collectChecks, readRequired_file hbytes, readRequired_file hfile,
      hread, Option.map_some, hdigests, hparse, hlisted, hsigned, Except.ok_bind]
    simp [pure, Except.pure, Except.bind, bind, hdigests', hlisted', hsigned']

/-- A verification that accepts is sound unless a component is left unchecked. -/
theorem verifyBundle_sound_iff (signingKey : Option String) :
    (verifyBundle rt directory signingKey = .ok 0 → Sound rt directory signingKey) ↔
      ¬ Unchecked rt directory signingKey := by
  rw [verifyBundle_eq_zero_iff]
  constructor
  · rintro h ⟨bytes, events, hbytes, hread, hfile, hsignature, hmanifest⟩
    have haccepted := hmanifest.imp_right And.right
    obtain ⟨bytes', members, events', hbytes', hobject, -, -, -, hkey⟩ :=
      h ⟨bytes, events, hbytes, hread, hfile, hsignature, haccepted⟩
    cases hbytes.symm.trans hbytes'
    rcases hmanifest with hnone | ⟨rfl, -⟩
    · cases hnone.symm.trans hobject
    · -- An empty key is not looked at, and the signature it asks for is not there.
      obtain ⟨error, habsent⟩ := hsignature
      have hsigned := hkey "" rfl
      rw [SignedBy, DigestIs, readDigest, habsent] at hsigned
      cases hsigned
  · rintro h ⟨bytes, events, hbytes, hread, hfile, hsignature, hmanifest⟩
    rcases hmanifest with hnone | ⟨members, hobject, hlisted⟩
    · exact absurd ⟨bytes, events, hbytes, hread, hfile, hsignature, .inl hnone⟩ h
    · refine ⟨bytes, members, events, hbytes, hobject, hread, hfile, hlisted, ?_⟩
      rintro key rfl
      by_cases hkey : key = ""
      · subst hkey
        have hunchecked : Unchecked rt directory (some "") :=
          ⟨bytes, events, hbytes, hread, hfile, hsignature, .inr ⟨rfl, members, hobject, hlisted⟩⟩
        exact absurd hunchecked h
      · rw [SignatureHolds, Option.filter_some, if_pos (decide_eq_true hkey)] at hsignature
        exact hsignature

/-- The decoder and the hash on the text of the empty list. -/
def emptyListRuntime : BundleRuntime where
  loads text := if text = ['[', ']'] then .value (.arr []) else .malformed "Expecting value"
  str _ := ""
  sha256 payload :=
    if payload = [0x5b, 0x5d] then
      [0x4f, 0x53, 0xcd, 0xa1, 0x8c, 0x2b, 0xaa, 0x0c, 0x03, 0x54, 0xbb, 0x5f, 0x9a, 0x3e, 0xcb,
        0xe5, 0xed, 0x12, 0xab, 0x4d, 0x8e, 0x11, 0xba, 0x87, 0x3c, 0x2f, 0x11, 0x16, 0x12, 0x02,
        0xb9, 0x45]
    else []
  hmacSha256 _ _ := []

/-- A bundle whose manifest is the empty list, with its checksum and without a signature. -/
def emptyListBundle : BundleDirectory
  | "manifest.json" => .file [0x5b, 0x5d]
  | "manifest.sha256" =>
    .file (Utf8.encode
      "4f53cda18c2baa0c0354bb5f9a3ecbe5ed12ab4d8e11ba873c2f11161202b945".toList)
  | "audit-events.jsonl" => .file []
  | _ => .absent "No such file or directory"

/-- The empty list is accepted as a manifest. -/
theorem verifyBundle_emptyList :
    verifyBundle emptyListRuntime emptyListBundle none = .ok 0 ∧
      ¬ Sound emptyListRuntime emptyListBundle none := by
  refine ⟨by decide +kernel, ?_⟩
  rintro ⟨bytes, members, events, hbytes, hobject, -⟩
  cases hbytes
  cases hobject

end AuditBundle

end MemoryPlane
