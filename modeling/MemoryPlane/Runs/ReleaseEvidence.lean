import Mathlib.Data.List.Dedup
import MemoryPlane.Lib.Returns
import MemoryPlane.Runs.AuditBundle
import MemoryPlane.Runs.ReleaseUrls

/-!
# Evidence of a release

A verification that returns is sound: if all its checks passed, the manifest is signed and lists
exactly the required artifacts, and each of them is the file that the manifest says. It returns
unless a field that a verifier coerces has a value that cannot be coerced.
-/

namespace MemoryPlane

namespace ReleaseEvidence

open ReleaseReports

section Statement

variable (rt : EvidenceRuntime) (files : EvidenceFiles) (options : EvidenceOptions)
variable (manifest : JsonMembers)

/-- The object that the file of an entry decodes to, if the entry is valid and the file is read. -/
def payloadAt (entry : JsonValue) : Option JsonMembers :=
  match artifactEntry files entry with
  | .ok (path, _) =>
    match files.readBytes path with
    | .ok bytes => (decodeJsonObject rt bytes).toOption
    | .error _ => none
  | .error _ => none

/-- The report of an artifact, if it can be read. -/
def reportOf (name : String) : Option JsonMembers :=
  payloadAt rt files (JsonValue.get (JsonValue.get manifest "artifacts").members name)

/-- The manifest's signature value is the HMAC of its canonical bytes under a long key. -/
def Signed : Prop :=
  ∃ signature value key, JsonValue.get manifest "signature" = .obj signature ∧
    JsonValue.get signature "value" = .str value ∧ options.signingKey = some key ∧
    32 ≤ key.toList.length ∧ signManifest rt manifest key = .ok value

/-- The file of an entry has the digest that the entry lists, and decodes to an object. -/
def Verified (entry : JsonValue) : Prop :=
  ∃ row path digest listed bytes report, entry = .obj row ∧
    artifactEntry files entry = .ok (path, digest) ∧ JsonValue.get row "sha256" = .str listed ∧
    files.readBytes path = .ok bytes ∧
    AuditBundle.hexdigest (rt.sha256 bytes) = String.ofList (listed.toList.map Char.toLower) ∧
    decodeJsonObject rt bytes = .ok report

/-- What passed checks promise. -/
structure SoundEvidence : Prop where
  signed : Signed rt options manifest
  artifacts : ∃ artifacts, JsonValue.get manifest "artifacts" = .obj artifacts ∧
    (∀ name, name ∈ artifacts.map Prod.fst ↔ name ∈ requiredArtifacts) ∧
    ∀ name ∈ requiredArtifacts, Verified rt files (JsonValue.get artifacts name)

/-- Verification returns, and is sound. -/
def TotalAndSound : Prop :=
  (∃ checks, verifyManifest rt files options = .ok checks) ∧
    ∀ checks, verifyManifest rt files options = .ok checks → checks.all (·.passed) = true →
      ∃ manifest, readJson rt files = .ok manifest ∧ SoundEvidence rt files options manifest

/-- A value that `int(value or 0)` accepts: nothing, a number that is neither infinite nor NaN, or
the text of an integer of up to 4300 digits. -/
def IntReadable : JsonValue → Prop
  | .null | .bool _ | .int _ => True
  | .float f => ∃ q, f = .finite q
  | .str s => s = "" ∨ tooManyDigits rt.unicode s.toList = false ∧
    (readInt rt.unicode s.toList).isSome = true
  | .arr xs => xs = []
  | .obj members => members = []

/-- The reports that are asked for their age. -/
def datedReports : List String := runtimeReports ++ ["embedding", "memory_llm"]

/-- A text can be encoded: it holds no surrogate. -/
def Encodable (text : String) : Prop := Utf8.hasSurrogate rt.surrogate text = false

/-- The names and texts of the manifest can be encoded, apart from the value of its signature. -/
def EncodableManifest : Prop :=
  (JsonValue.obj (unsigned manifest)).anyText (Utf8.hasSurrogate rt.surrogate) = false

/-- The values at which nothing raises. -/
structure Coercible : Prop where
  /-- A signature that is compared has ASCII characters only, and what is signed and its key can be
  encoded. -/
  signature : ∀ signature value key, JsonValue.get manifest "signature" = .obj signature →
    JsonValue.get signature "value" = .str value →
    JsonValue.get signature "algorithm" = .str signatureAlgorithm →
    options.signingKey = some key → 32 ≤ key.toList.length →
    value.toList.all (fun c => c.toNat < 128) = true ∧ Encodable rt key ∧
      EncodableManifest rt manifest
  /-- A generation time is in the calendar in UTC, and so is the latest plausible one. -/
  time : ∀ t, awareDatetime rt (JsonValue.get manifest "generated_at") = some t →
    minMoment ≤ t.utc ∧ t.utc ≤ maxMoment ∧ options.now + fiveMinutes ≤ maxMoment
  /-- An age limit beyond the language's times is never compared with an age. -/
  age : ∀ t hours, awareDatetime rt (JsonValue.get manifest "generated_at") = some t →
    positiveHours options.maxAgeHours = some hours → rt.timedeltaHours hours = none →
    options.now < t.utc ∧ ∀ name ∈ datedReports, ∀ report r,
      reportOf rt files manifest name = some report →
      awareDatetime rt (JsonValue.get report "generated_at") = some r →
      t.utc - r.utc < -fiveMinutes
  /-- The number of agents is readable, and the number of operations is if there are two agents. -/
  loadSmoke : ∀ report, reportOf rt files manifest "load_smoke" = some report →
    IntReadable rt (JsonValue.get report "agents") ∧
      ∀ n, toInt rt (orZero (JsonValue.get report "agents")) = .ok n → 2 ≤ n →
        IntReadable rt (JsonValue.get report "total_operations")
  /-- The rollback instructions are nothing or can be iterated over. -/
  releaseNotes : ∀ report, reportOf rt files manifest "release_notes" = some report →
    (JsonValue.get report "rollback").truthy = true →
    (JsonValue.get report "rollback").iterable = true
  /-- The steps, the secrets and the checks are missing or can be iterated over. -/
  rows : ∀ name field, (name, field) ∈ [("scheduled_backup", "steps"),
      ("secret_files", "required_secrets"), ("ui_walkthrough", "checks")] →
    ∀ report, reportOf rt files manifest name = some report →
      (JsonValue.getD report field (.arr [])).iterable = true

end Statement

section Values

variable {rt : EvidenceRuntime} {payload : JsonMembers}

/-- `int` of a truthy value is called with the value itself, and of any other value with zero. -/
theorem toInt_returns_iff (v : JsonValue) : (toInt rt (orZero v)).Returns ↔ IntReadable rt v := by
  have hzero : ∀ v : JsonValue, v.truthy = false → (toInt rt (orZero v)).Returns := by
    intro v hv
    rw [orZero, hv]
    exact ⟨0, rfl⟩
  cases v with
  | null => exact iff_of_true (hzero _ rfl) trivial
  | bool b =>
    cases b with
    | false => exact iff_of_true (hzero _ rfl) trivial
    | true => exact iff_of_true ⟨1, rfl⟩ trivial
  | int n =>
    by_cases hn : n = 0
    · exact iff_of_true (hzero _ (by simp [JsonValue.truthy, hn])) trivial
    · have : orZero (.int n) = .int n := by simp [orZero, JsonValue.truthy, hn]
      rw [this]
      exact iff_of_true ⟨n, rfl⟩ trivial
  | float f =>
    cases f with
    | finite q =>
      by_cases hq : q = 0
      · exact iff_of_true (hzero _ (by simp [JsonValue.truthy, hq])) ⟨q, rfl⟩
      · have : orZero (.float (.finite q)) = .float (.finite q) := by
          simp [orZero, JsonValue.truthy, hq]
        rw [this]
        exact iff_of_true ⟨_, rfl⟩ ⟨q, rfl⟩
    | infinite negative => exact iff_of_false (Except.not_returns_error _) (by simp [IntReadable])
    | nan => exact iff_of_false (Except.not_returns_error _) (by simp [IntReadable])
  | str s =>
    by_cases hs : s = ""
    · exact iff_of_true (hzero _ (by simp [JsonValue.truthy, hs])) (.inl hs)
    · have : orZero (.str s) = .str s := by simp [orZero, JsonValue.truthy, hs]
      rw [this, IntReadable, toInt, JsonValue.textWith]
      cases hdigits : tooManyDigits rt.unicode s.toList with
      | true => simp [hs]
      | false =>
        simp only [cond_false, JsonValue.toInt, parseInt_of_few hdigits, hs, false_or, true_and]
        cases readInt rt.unicode s.toList with
        | none => simp
        | some n => simp
  | arr xs =>
    cases xs with
    | nil => exact iff_of_true (hzero _ rfl) rfl
    | cons x xs => exact iff_of_false (Except.not_returns_error _) (by simp [IntReadable])
  | obj ms =>
    cases ms with
    | nil => exact iff_of_true (hzero _ rfl) rfl
    | cons m ms => exact iff_of_false (Except.not_returns_error _) (by simp [IntReadable])

/-- A for loop over a value starts exactly when the value is iterable. -/
theorem iterate_returns_iff {v : JsonValue} : v.iterate.Returns ↔ v.iterable = true :=
  JsonValue.iterate_eq_ok

/-- The load check reads the operations only after at least two agents. -/
theorem verifyLoadSmoke_returns_iff : (verifyLoadSmoke rt payload).Returns ↔
    IntReadable rt (JsonValue.get payload "agents") ∧
      ∀ n, toInt rt (orZero (JsonValue.get payload "agents")) = .ok n → 2 ≤ n →
        IntReadable rt (JsonValue.get payload "total_operations") := by
  rw [verifyLoadSmoke, Except.returns_bind_of_forall fun passed => Except.returns_pure _,
    parallelism, Except.returns_bind, ← toInt_returns_iff]
  have hoperations : ∀ n : ℤ, (bif decide (2 ≤ n) then do
      let operations ← toInt rt (orZero (JsonValue.get payload "total_operations"))
      return decide (4 ≤ operations)
      else return false : Except Exn Bool).Returns ↔
        (2 ≤ n → IntReadable rt (JsonValue.get payload "total_operations")) := by
    intro n
    rw [← toInt_returns_iff]
    by_cases hn : 2 ≤ n
    · rw [decide_eq_true hn, cond_true,
        Except.returns_bind_of_forall fun m => Except.returns_pure _]
      exact ⟨fun h _ => h, fun h => h hn⟩
    · rw [decide_eq_false hn, cond_false]
      exact iff_of_true (Except.returns_pure _) fun h => absurd h hn
  constructor
  · rintro ⟨n, hn, hrest⟩
    refine ⟨⟨n, hn⟩, fun m hm => ?_⟩
    cases hn.symm.trans hm
    exact (hoperations n).mp hrest
  · rintro ⟨⟨n, hn⟩, hrest⟩
    exact ⟨n, hn, (hoperations n).mpr (hrest n hn)⟩

/-- The notes check stops only at a rollback that is set but not iterable. -/
theorem verifyReleaseNotes_returns_iff : (verifyReleaseNotes rt payload).Returns ↔
    ((JsonValue.get payload "rollback").truthy = true →
      (JsonValue.get payload "rollback").iterable = true) := by
  rw [verifyReleaseNotes, Except.returns_bind_of_forall fun items => Except.returns_pure _,
    iterate_returns_iff, orEmpty]
  cases (JsonValue.get payload "rollback").truthy with
  | true => simp
  | false => simp [JsonValue.iterable]

/-- The backup check stops only at steps that are not iterable. -/
theorem verifyScheduledBackup_returns_iff : (verifyScheduledBackup rt payload).Returns ↔
    (JsonValue.getD payload "steps" (.arr [])).iterable = true := by
  rw [verifyScheduledBackup, Except.returns_bind_of_forall fun steps => Except.returns_pure _,
    iterate_returns_iff]

/-- The secrets check stops only at required secrets that are not iterable. -/
theorem verifySecretFiles_returns_iff : (verifySecretFiles rt payload).Returns ↔
    (JsonValue.getD payload "required_secrets" (.arr [])).iterable = true := by
  rw [verifySecretFiles, Except.returns_bind_of_forall fun secrets => Except.returns_pure _,
    iterate_returns_iff]

/-- The walkthrough check stops only at checks that are not iterable. -/
theorem verifyUiWalkthrough_returns_iff : (verifyUiWalkthrough rt payload).Returns ↔
    (JsonValue.getD payload "checks" (.arr [])).iterable = true := by
  rw [verifyUiWalkthrough, Except.returns_bind_of_forall fun rows => Except.returns_pure _,
    iterate_returns_iff]

end Values

section Artifacts

variable {rt : EvidenceRuntime} {files : EvidenceFiles} {entry : JsonValue}

/-- The digest of a valid entry is the listed one in lower case. -/
theorem artifactEntry_eq_ok {path digest : String}
    (h : artifactEntry files entry = .ok (path, digest)) :
    ∃ row listed, entry = .obj row ∧ JsonValue.get row "sha256" = .str listed ∧
      isHexText 64 listed.toList = true ∧
      digest = String.ofList (listed.toList.map Char.toLower) := by
  cases entry with
  | obj row =>
    rw [artifactEntry] at h
    split at h
    · split_ifs at h
      obtain ⟨resolved, -, h⟩ := Except.bind_eq_ok.mp h
      split_ifs at h
      split at h
      · next listed hlisted =>
        split_ifs at h with hhex
        cases h
        exact ⟨row, listed, rfl, hlisted, hhex, rfl⟩
      · cases h
    · cases h
  | null | bool _ | int _ | float _ | str _ | arr _ => cases h

/-- Lower case keeps ASCII text. -/
theorem toLower_ascii {c : Char} (h : c.toNat < 128) : c.toLower.toNat < 128 := by
  have hall : ∀ n < 128, (Char.ofNat n).toLower.toNat < 128 := by decide
  rw [← Char.ofNat_toNat c]
  exact hall c.toNat h

/-- Digests are ASCII text. -/
theorem ascii_of_isHexText {n : ℕ} {s : List Char} (h : isHexText n s = true) :
    (s.map Char.toLower).all (fun c => c.toNat < 128) = true := by
  obtain ⟨-, hall⟩ := Bool.and_eq_true_iff.mp h
  rw [List.all_map, List.all_eq_true]
  intro c hc
  have hhex := List.all_eq_true.mp hall c hc
  refine decide_eq_true (toLower_ascii ?_)
  rw [Urls.hexValue] at hhex
  split_ifs at hhex with hdigit hlower hupper
  · simp only [isDigit, Bool.and_eq_true, decide_eq_true_eq] at hdigit
    omega
  · exact Nat.lt_of_le_of_lt (Char.le_def.mp hlower.2) (by decide)
  · exact Nat.lt_of_le_of_lt (Char.le_def.mp hupper.2) (by decide)
  · cases hhex

/-- On ASCII texts the comparison in constant time is equality. -/
theorem compareDigest_of_ascii {a b : String} (ha : a.toList.all (fun c => c.toNat < 128) = true)
    (hb : b.toList.all (fun c => c.toNat < 128) = true) :
    compareDigest a b = .ok (decide (a = b)) := by
  rw [compareDigest, AuditBundle.compareDigest, ha, hb]
  rfl

/-- The check of a digest does not raise. -/
theorem compareDigest_artifact {path digest : String} (bytes : List UInt8)
    (h : artifactEntry files entry = .ok (path, digest)) :
    compareDigest (AuditBundle.hexdigest bytes) digest =
      .ok (decide (AuditBundle.hexdigest bytes = digest)) := by
  obtain ⟨row, listed, -, -, hhex, rfl⟩ := artifactEntry_eq_ok h
  apply compareDigest_of_ascii (AuditBundle.hexdigest_ascii bytes)
  rw [String.toList_ofList]
  exact ascii_of_isHexText hhex

variable {name : String} {verifier : JsonMembers → Except Exn (List EvidenceCheck)}

/-- Only the verifier of a report can raise. -/
theorem verifyArtifact_returns_iff : (verifyArtifact rt files name verifier entry).Returns ↔
    ∀ report, payloadAt rt files entry = some report → (verifier report).Returns := by
  rw [verifyArtifact, payloadAt]
  cases hentry : artifactEntry files entry with
  | error e => simp
  | ok located =>
    obtain ⟨path, digest⟩ := located
    dsimp only
    cases hread : files.readBytes path with
    | error e => simp
    | ok bytes =>
      dsimp only
      rw [compareDigest_artifact _ hentry, Except.ok_bind]
      cases hdecode : decodeJsonObject rt bytes with
      | error e => simp [Except.toOption]
      | ok payload =>
        dsimp only [Except.toOption]
        rw [Except.returns_bind_of_forall fun checks => Except.returns_pure _]
        simp

/-- The report of an artifact that has been verified is the one that can be read. -/
theorem report_of_verifyArtifact {result : List EvidenceCheck × Option (String × JsonMembers)}
    (h : verifyArtifact rt files name verifier entry = .ok result) :
    result.2 = (payloadAt rt files entry).map fun report => (name, report) := by
  rw [verifyArtifact] at h
  rw [payloadAt]
  cases hentry : artifactEntry files entry with
  | error e =>
    rw [hentry] at h
    cases h
    rfl
  | ok located =>
    obtain ⟨path, digest⟩ := located
    rw [hentry] at h
    dsimp only at h ⊢
    cases hread : files.readBytes path with
    | error e =>
      rw [hread] at h
      cases h
      rfl
    | ok bytes =>
      rw [hread] at h
      dsimp only at h ⊢
      rw [compareDigest_artifact _ hentry, Except.ok_bind] at h
      cases hdecode : decodeJsonObject rt bytes with
      | error e =>
        rw [hdecode] at h
        cases h
        rfl
      | ok payload =>
        rw [hdecode] at h
        obtain ⟨checks, -, h⟩ := Except.bind_eq_ok.mp h
        cases h
        rfl

/-- An artifact whose checks passed is the file that its entry lists. -/
theorem verified_of_verifyArtifact {result : List EvidenceCheck × Option (String × JsonMembers)}
    (h : verifyArtifact rt files name verifier entry = .ok result)
    (hpassed : result.1.all (·.passed) = true) : Verified rt files entry := by
  rw [verifyArtifact] at h
  cases hentry : artifactEntry files entry with
  | error e =>
    rw [hentry] at h
    cases h
    cases hpassed
  | ok located =>
    obtain ⟨path, digest⟩ := located
    rw [hentry] at h
    dsimp only at h
    cases hread : files.readBytes path with
    | error e =>
      rw [hread] at h
      cases h
      cases hpassed
    | ok bytes =>
      rw [hread] at h
      dsimp only at h
      rw [compareDigest_artifact _ hentry, Except.ok_bind] at h
      cases hdecode : decodeJsonObject rt bytes with
      | error e =>
        rw [hdecode] at h
        cases h
        simp [unread] at hpassed
      | ok payload =>
        rw [hdecode] at h
        obtain ⟨checks, -, h⟩ := Except.bind_eq_ok.mp h
        cases h
        obtain ⟨hsum, -⟩ := Bool.and_eq_true_iff.mp hpassed
        obtain ⟨row, listed, hrow, hlisted, -, hdigest⟩ := artifactEntry_eq_ok hentry
        refine ⟨row, path, digest, listed, bytes, payload, hrow, hentry, hlisted, hread,
          ?_, hdecode⟩
        rw [← hdigest]
        exact of_decide_eq_true hsum

end Artifacts

section Times

variable {rt : EvidenceRuntime} {options : EvidenceOptions} {maxAgeHours : PyFloat}
variable {manifest payload : JsonMembers}

/-- The hours are converted only for an age of at least the lower bound. -/
theorem withinAge_returns_iff {low age : ℤ} {hours : Option ℚ} :
    (withinAge rt low age hours).Returns ↔
      ∀ h, hours = some h → rt.timedeltaHours h = none → age < low := by
  rw [withinAge.eq_def]
  split_ifs with hage
  · exact iff_of_true (Except.returns_ok _) fun _ _ _ => hage
  · cases hours with
    | none => simp
    | some h => cases hlimit : rt.timedeltaHours h <;> simp [hlimit, hage]

/-- A limit above zero is valid. -/
theorem maxAgeValid_of_positiveHours {h : ℚ} (hpositive : positiveHours maxAgeHours = some h) :
    maxAgeValid maxAgeHours = true := by
  cases maxAgeHours with
  | finite q =>
    rw [positiveHours] at hpositive
    split_ifs at hpositive with hq
    exact decide_eq_true hq.le
  | infinite negative => cases hpositive
  | nan => cases hpositive

/-- The limit is not compared with the age of a report, or is one of the language's times. -/
def AgeKept (rt : EvidenceRuntime) (maxAgeHours : PyFloat) (manifest payload : JsonMembers) :
    Prop :=
  ∀ t r hours, awareDatetime rt (JsonValue.get manifest "generated_at") = some t →
    awareDatetime rt (JsonValue.get payload "generated_at") = some r →
    positiveHours maxAgeHours = some hours → rt.timedeltaHours hours = none →
    t.utc - r.utc < -fiveMinutes

/-- A report older than the tolerance is refused before its hours are converted. -/
theorem freshReport_returns_iff {report generated : Timestamp} :
    (freshReport rt maxAgeHours report generated).Returns ↔
      ∀ hours, positiveHours maxAgeHours = some hours → rt.timedeltaHours hours = none →
        generated.utc - report.utc < -fiveMinutes := by
  rw [freshReport]
  cases hvalid : maxAgeValid maxAgeHours with
  | true => exact withinAge_returns_iff
  | false =>
    refine iff_of_true (Except.returns_ok _) fun hours hpositive => ?_
    rw [maxAgeValid_of_positiveHours hpositive] at hvalid
    cases hvalid

/-- With both times, only the limit is in question. -/
theorem ageKept_iff {t r : Timestamp}
    (ht : awareDatetime rt (JsonValue.get manifest "generated_at") = some t)
    (hr : awareDatetime rt (JsonValue.get payload "generated_at") = some r) :
    AgeKept rt maxAgeHours manifest payload ↔
      (freshReport rt maxAgeHours r t).Returns := by
  rw [freshReport_returns_iff]
  constructor
  · exact fun h hours => h t r hours ht hr
  · intro h t' r' hours ht' hr'
    cases ht.symm.trans ht'
    cases hr.symm.trans hr'
    exact h hours

/-- A report without a time has no age. -/
theorem ageKept_of_none (h : awareDatetime rt (JsonValue.get payload "generated_at") = none) :
    AgeKept rt maxAgeHours manifest payload := by
  intro t r hours _ hr
  rw [h] at hr
  cases hr

/-- Without the time of the manifest there is no age. -/
theorem ageKept_of_undated (h : awareDatetime rt (JsonValue.get manifest "generated_at") = none) :
    AgeKept rt maxAgeHours manifest payload := by
  intro t r hours ht _
  rw [h] at ht
  cases ht

/-- The freshness of a runtime report stops only at an age limit too large to convert. -/
theorem runtimeFreshness_returns_iff (name : String) :
    (runtimeFreshness rt maxAgeHours manifest name payload).Returns ↔
      AgeKept rt maxAgeHours manifest payload := by
  rw [runtimeFreshness]
  cases hr : awareDatetime rt (JsonValue.get payload "generated_at") with
  | none => exact iff_of_true (Except.returns_ok _) (ageKept_of_none hr)
  | some r =>
    cases ht : awareDatetime rt (JsonValue.get manifest "generated_at") with
    | none => exact iff_of_true (Except.returns_ok _) (ageKept_of_undated ht)
    | some t =>
      rw [ageKept_iff ht hr]
      exact Except.returns_bind_of_forall fun passed => Except.returns_pure _

/-- The freshness of a model report stops only at an age limit too large to convert. -/
theorem modelFreshness_returns_iff (name : String) :
    (modelFreshness rt maxAgeHours manifest name payload).Returns ↔
      AgeKept rt maxAgeHours manifest payload := by
  rw [modelFreshness]
  cases hr : awareDatetime rt (JsonValue.get payload "generated_at") with
  | none => exact iff_of_true (Except.returns_ok _) (ageKept_of_none hr)
  | some r =>
    cases ht : awareDatetime rt (JsonValue.get manifest "generated_at") with
    | none => exact iff_of_true (Except.returns_ok _) (ageKept_of_undated ht)
    | some t =>
      rw [ageKept_iff ht hr]
      exact Except.returns_bind_of_forall fun passed => Except.returns_pure _

/-- A generation time is checked without raising. -/
theorem timeChecks_returns_iff (t : Timestamp) : (timeChecks rt options t).Returns ↔
    (minMoment ≤ t.utc ∧ t.utc ≤ maxMoment ∧ options.now + fiveMinutes ≤ maxMoment) ∧
      ∀ hours, positiveHours options.maxAgeHours = some hours → rt.timedeltaHours hours = none →
        options.now < t.utc := by
  rw [timeChecks]
  split_ifs with hcalendar
  · rw [and_iff_right hcalendar]
    cases positiveHours options.maxAgeHours with
    | none => simp
    | some hours =>
      dsimp only
      rw [Except.returns_bind_of_forall fun fresh => Except.returns_pure _, withinAge_returns_iff]
      simp only [Option.some.injEq, sub_neg, forall_eq']
  · exact iff_of_false (Except.not_returns_error _) fun h => hcalendar h.1

/-- The time checks are reached only with a readable generation time. -/
theorem generatedChecks_returns_iff : (generatedChecks rt options manifest).Returns ↔
    ∀ t, awareDatetime rt (JsonValue.get manifest "generated_at") = some t →
      (timeChecks rt options t).Returns := by
  rw [generatedChecks]
  cases JsonValue.get manifest "generated_at" with
  | str s =>
    rw [awareDatetime]
    dsimp only
    cases parseTimestamp rt s with
    | error message => simp
    | ok t =>
      dsimp only
      split_ifs with hoffset <;> simp
  | null | bool _ | int _ | float _ | arr _ | obj _ => simp [awareDatetime]

/-- Only the generation time can stop the identity checks. -/
theorem verifyManifestIdentity_returns_iff :
    (verifyManifestIdentity rt options manifest).Returns ↔
      (generatedChecks rt options manifest).Returns := by
  rw [verifyManifestIdentity]
  exact Except.returns_bind_of_forall fun generated => Except.returns_pure _

end Times

section Reports

variable {rt : EvidenceRuntime} {files : EvidenceFiles} {maxAgeHours : PyFloat}
variable {manifest artifacts : JsonMembers} {payloads : List (String × JsonMembers)}

/-- A value that is listed for every name is found under its name. -/
theorem find?_keyed {β : Type} (g : String → Option β) (name : String) (names : List String) :
    (names.filterMap fun n => (g n).map fun b => (n, b)).find? (fun p => p.1 = name) =
      if name ∈ names then (g name).map fun b => (name, b) else none := by
  induction names with
  | nil => rfl
  | cons n names ih =>
    rw [List.filterMap_cons]
    by_cases hn : n = name
    · subst hn
      cases hg : g n with
      | none => simp [ih, hg]
      | some b => simp
    · have hmem : name ∈ n :: names ↔ name ∈ names := by simp [Ne.symm hn]
      simp only [hmem]
      cases hg : g n with
      | none => exact ih
      | some b =>
        dsimp only [Option.map_some]
        rw [List.find?_cons_of_neg (by simpa using hn)]
        exact ih

/-- The readers are called for the required artifacts. -/
theorem map_fst_readers (rt : EvidenceRuntime) : (readers rt).map Prod.fst = requiredArtifacts :=
  rfl

/-- The reports of verified artifacts are those that can be read. -/
theorem reports_of_forall₂ {rs : List (String × (JsonMembers → Except Exn (List EvidenceCheck)))}
    {results : List (List EvidenceCheck × Option (String × JsonMembers))}
    (h : List.Forall₂ (fun reader result => verifyArtifact rt files reader.1 reader.2
      (JsonValue.get artifacts reader.1) = .ok result) rs results) :
    results.filterMap Prod.snd = (rs.map Prod.fst).filterMap fun name =>
      (payloadAt rt files (JsonValue.get artifacts name)).map fun report => (name, report) := by
  induction h with
  | nil => rfl
  | cons hreader _ ih =>
    rw [List.filterMap_cons, List.map_cons, List.filterMap_cons, ih,
      report_of_verifyArtifact hreader]

/-- What the comparisons see of a required artifact. -/
theorem payloadOf_reports {name : String} (hname : name ∈ requiredArtifacts) :
    payloadOf (requiredArtifacts.filterMap fun name =>
      (payloadAt rt files (JsonValue.get artifacts name)).map fun report => (name, report)) name =
        (payloadAt rt files (JsonValue.get artifacts name)).getD [] := by
  rw [payloadOf, find?_keyed fun name => payloadAt rt files (JsonValue.get artifacts name),
    if_pos hname, Option.map_map]
  cases payloadAt rt files (JsonValue.get artifacts name) <;> rfl

/-- Only the age can stop the checks of a runtime report. -/
theorem runtimeChecks_returns_iff (hurl : rt.url.TrimsHosts) (name : String) :
    (runtimeChecks rt maxAgeHours manifest payloads name).Returns ↔
      AgeKept rt maxAgeHours manifest (payloadOf payloads name) := by
  rw [runtimeChecks, ← runtimeFreshness_returns_iff name]
  exact Except.returns_bind_of_returns (sameUrl_returns hurl ..) fun same =>
    Except.returns_bind_of_forall fun freshness => Except.returns_pure _

/-- A model check always returns. -/
theorem modelCheck_returns (hurl : rt.url.TrimsHosts) (name : String) (target : JsonValue)
    (report : JsonMembers) (field : String) :
    (modelCheck rt name target report field).Returns := by
  rw [modelCheck, Except.returns_bind_of_forall fun passed => Except.returns_pure _]
  cases target with
  | obj model =>
    rw [modelMatches]
    cases (JsonValue.get model "provider").equal (JsonValue.get report "provider") with
    | false => exact Except.returns_ok _
    | true =>
      rw [cond_true, Except.returns_bind_of_forall fun same => Except.returns_pure _]
      exact sameUrl_returns hurl ..
  | null | bool _ | int _ | float _ | str _ | arr _ => exact Except.returns_ok _

/-- Comparing the reports raises only where a report is asked for its age. -/
theorem verifyCrossArtifactIdentity_returns_iff (hurl : rt.url.TrimsHosts) :
    (verifyCrossArtifactIdentity rt maxAgeHours manifest payloads).Returns ↔
      ∀ name ∈ datedReports, AgeKept rt maxAgeHours manifest (payloadOf payloads name) := by
  have hruntime : (runtimeReports.mapM (runtimeChecks rt maxAgeHours manifest payloads)).Returns ↔
      ∀ name ∈ runtimeReports, AgeKept rt maxAgeHours manifest (payloadOf payloads name) := by
    rw [Except.returns_mapM]
    exact forall₂_congr fun name _ => runtimeChecks_returns_iff hurl name
  rw [datedReports, List.forall_mem_append, ← hruntime, List.forall_mem_cons,
    List.forall_mem_singleton, ← modelFreshness_returns_iff "embedding",
    ← modelFreshness_returns_iff "memory_llm", verifyCrossArtifactIdentity]
  refine Except.returns_bind_iff_and fun runtime _ => ?_
  refine Except.returns_bind_of_returns (modelCheck_returns hurl ..) fun embedding => ?_
  refine Except.returns_bind_of_returns (modelCheck_returns hurl ..) fun llm => ?_
  refine Except.returns_bind_iff_and fun embeddingFresh _ => ?_
  exact Except.returns_bind_of_forall fun llmFresh =>
    (Except.returns_bind_of_forall fun same => Except.returns_pure _).mpr (sameUrl_returns hurl ..)

/-- A report that cannot be read has no age. -/
theorem ageKept_getD {report : Option JsonMembers} :
    AgeKept rt maxAgeHours manifest (report.getD []) ↔
      ∀ r, report = some r → AgeKept rt maxAgeHours manifest r := by
  cases report with
  | none => exact iff_of_true (ageKept_of_none rfl) fun _ h => by cases h
  | some r => simp

/-- Verifying the artifacts raises only where the verifier of a report that can be read raises, or
where such a report is asked for its age. -/
theorem verifyArtifacts_returns_iff {options : EvidenceOptions} (hurl : rt.url.TrimsHosts) :
    (verifyArtifacts rt files options manifest artifacts).Returns ↔
      (∀ reader ∈ readers rt, ∀ report,
        payloadAt rt files (JsonValue.get artifacts reader.1) = some report →
          (reader.2 report).Returns) ∧
      ∀ name ∈ datedReports, ∀ report,
        payloadAt rt files (JsonValue.get artifacts name) = some report →
          AgeKept rt options.maxAgeHours manifest report := by
  have hdated : ∀ name ∈ datedReports, name ∈ requiredArtifacts := by decide
  have hreaders : ((readers rt).mapM fun reader => verifyArtifact rt files reader.1 reader.2
      (JsonValue.get artifacts reader.1)).Returns ↔ ∀ reader ∈ readers rt, ∀ report,
        payloadAt rt files (JsonValue.get artifacts reader.1) = some report →
          (reader.2 report).Returns := by
    rw [Except.returns_mapM]
    exact forall₂_congr fun reader _ => verifyArtifact_returns_iff
  rw [verifyArtifacts, ← hreaders]
  refine Except.returns_bind_iff_and fun results hresults => ?_
  rw [Except.returns_bind_of_forall fun cross => Except.returns_pure _,
    verifyCrossArtifactIdentity_returns_iff hurl,
    reports_of_forall₂ (Except.forall₂_of_mapM hresults), map_fst_readers]
  refine forall₂_congr fun name hname => ?_
  rw [payloadOf_reports (hdated name hname), ageKept_getD]

/-- The readers that can raise. -/
theorem forall_readers_returns {report : String → Option JsonMembers} :
    (∀ reader ∈ readers rt, ∀ payload, report reader.1 = some payload →
      (reader.2 payload).Returns) ↔
    (∀ payload, report "load_smoke" = some payload → (verifyLoadSmoke rt payload).Returns) ∧
    (∀ payload, report "release_notes" = some payload →
      (verifyReleaseNotes rt payload).Returns) ∧
    (∀ payload, report "scheduled_backup" = some payload →
      (verifyScheduledBackup rt payload).Returns) ∧
    (∀ payload, report "secret_files" = some payload → (verifySecretFiles rt payload).Returns) ∧
    ∀ payload, report "ui_walkthrough" = some payload →
      (verifyUiWalkthrough rt payload).Returns := by
  simp only [readers, List.forall_mem_cons, Except.returns_ok, implies_true, true_and,
    List.not_mem_nil, false_imp_iff, and_true]

end Reports

section Signature

variable {rt : EvidenceRuntime} {manifest signature : JsonMembers} {signingKey : Option String}

/-- A comparison that returned had an ASCII text on its left. -/
theorem ascii_of_compareDigest {a b : String} {same : Bool} (h : compareDigest a b = .ok same) :
    a.toList.all (fun c => c.toNat < 128) = true := by
  rw [compareDigest, AuditBundle.compareDigest] at h
  split at h
  · next hcompare =>
    split_ifs at hcompare with hascii
    exact (Bool.and_eq_true_iff.mp hascii).1
  · cases h

/-- A signature is made of what can be encoded, and it is ASCII text. -/
theorem signManifest_eq_ok {key expected : String}
    (h : signManifest rt manifest key = .ok expected) :
    Encodable rt key ∧ EncodableManifest rt manifest ∧
      expected.toList.all (fun c => c.toNat < 128) = true := by
  rw [signManifest] at h
  cases hkey : Utf8.hasSurrogate rt.surrogate key with
  | true =>
    rw [hkey] at h
    cases h
  | false =>
    rw [hkey, cond_false, canonicalManifestBytes] at h
    cases htexts : (JsonValue.obj (unsigned manifest)).anyText (Utf8.hasSurrogate rt.surrogate) with
    | true =>
      rw [htexts] at h
      cases h
    | false =>
      rw [htexts] at h
      cases h
      exact ⟨hkey, htexts, AuditBundle.hexdigest_ascii _⟩

/-- A manifest of encodable texts is signed under an encodable key. -/
theorem signManifest_of_encodable {key : String} (hkey : Encodable rt key)
    (htexts : EncodableManifest rt manifest) :
    ∃ expected, signManifest rt manifest key = .ok expected := by
  rw [signManifest, hkey, cond_false, canonicalManifestBytes, htexts]
  exact ⟨_, rfl⟩

/-- Comparing with a fresh signature needs an ASCII value and encodable key and texts. -/
theorem compareDigest_sign_returns_iff (value key : String) :
    (signManifest rt manifest key >>= compareDigest value).Returns ↔
      value.toList.all (fun c => c.toNat < 128) = true ∧ Encodable rt key ∧
        EncodableManifest rt manifest := by
  constructor
  · rintro ⟨same, h⟩
    obtain ⟨expected, hexpected, hcompare⟩ := Except.bind_eq_ok.mp h
    obtain ⟨hkey, htexts, -⟩ := signManifest_eq_ok hexpected
    exact ⟨ascii_of_compareDigest hcompare, hkey, htexts⟩
  · rintro ⟨hascii, hkey, htexts⟩
    obtain ⟨expected, hexpected⟩ := signManifest_of_encodable hkey htexts
    rw [hexpected, Except.ok_bind]
    exact ⟨_, compareDigest_of_ascii hascii (signManifest_eq_ok hexpected).2.2⟩

/-- Only a text is compared, and only under a key that is long enough. -/
theorem signatureValid_of_text {value key : String}
    (hvalue : JsonValue.get signature "value" = .str value) :
    signatureValid rt manifest signature (some key) =
      bif (JsonValue.get signature "algorithm").equal (.str signatureAlgorithm) &&
          decide (32 ≤ key.toList.length) then
        signManifest rt manifest key >>= compareDigest value
      else .ok false := by
  unfold signatureValid
  rw [hvalue]

/-- Without a text value or a key the signature is refused and nothing is encoded. -/
theorem signatureValid_of_no_text (h : ∀ value key, JsonValue.get signature "value" = .str value →
    signingKey ≠ some key) : signatureValid rt manifest signature signingKey = .ok false := by
  unfold signatureValid
  split
  · next value key hvalue => exact absurd rfl (h value key hvalue)
  · rfl

/-- The signature check encodes only under the right algorithm and a key of full length. -/
theorem signatureValid_returns_iff : (signatureValid rt manifest signature signingKey).Returns ↔
    ∀ value key, JsonValue.get signature "value" = .str value →
      JsonValue.get signature "algorithm" = .str signatureAlgorithm →
      signingKey = some key → 32 ≤ key.toList.length →
      value.toList.all (fun c => c.toNat < 128) = true ∧ Encodable rt key ∧
        EncodableManifest rt manifest := by
  by_cases htext : ∃ value key, JsonValue.get signature "value" = .str value ∧ signingKey = some key
  · obtain ⟨value, key, hvalue, rfl⟩ := htext
    rw [signatureValid_of_text hvalue]
    cases hcompared : (JsonValue.get signature "algorithm").equal (.str signatureAlgorithm) &&
      decide (32 ≤ key.toList.length) with
    | true =>
      obtain ⟨halgorithm, hlong⟩ := Bool.and_eq_true_iff.mp hcompared
      rw [cond_true, compareDigest_sign_returns_iff]
      constructor
      · intro hfit value' key' hvalue' _ hkey _
        cases hvalue.symm.trans hvalue'
        cases hkey
        exact hfit
      · exact fun h => h value key hvalue (JsonValue.equal_str.mp halgorithm) rfl
          (of_decide_eq_true hlong)
    | false =>
      refine iff_of_true (Except.returns_ok _) fun value' key' _ halgorithm hkey hlong => ?_
      cases hkey
      rw [JsonValue.equal_str.mpr halgorithm, decide_eq_true hlong] at hcompared
      cases hcompared
  · rw [signatureValid_of_no_text fun value key hvalue hkey => htext ⟨value, key, hvalue, hkey⟩]
    exact iff_of_true (Except.returns_ok _) fun value key hvalue _ hkey _ =>
      absurd ⟨value, key, hvalue, hkey⟩ htext

/-- A signature that is valid has been compared with the right one. -/
theorem signed_of_signatureValid (h : signatureValid rt manifest signature signingKey = .ok true) :
    ∃ value key, JsonValue.get signature "value" = .str value ∧ signingKey = some key ∧
      32 ≤ key.toList.length ∧ signManifest rt manifest key = .ok value := by
  by_cases htext : ∃ value key, JsonValue.get signature "value" = .str value ∧ signingKey = some key
  · obtain ⟨value, key, hvalue, rfl⟩ := htext
    rw [signatureValid_of_text hvalue] at h
    cases hcompared : (JsonValue.get signature "algorithm").equal (.str signatureAlgorithm) &&
      decide (32 ≤ key.toList.length) with
    | true =>
      rw [hcompared, cond_true] at h
      obtain ⟨expected, hexpected, hcompare⟩ := Except.bind_eq_ok.mp h
      rw [compareDigest_of_ascii (ascii_of_compareDigest hcompare)
        (signManifest_eq_ok hexpected).2.2] at hcompare
      have hsame : value = expected := of_decide_eq_true (Except.ok.inj hcompare)
      exact ⟨value, key, hvalue, rfl, of_decide_eq_true (Bool.and_eq_true_iff.mp hcompared).2,
        hsame ▸ hexpected⟩
    | false =>
      rw [hcompared] at h
      cases h
  · rw [signatureValid_of_no_text fun value key hvalue hkey =>
      htext ⟨value, key, hvalue, hkey⟩] at h
    cases h

/-- The signature check of a manifest adds only the look at its signature object. -/
theorem verifyManifestSignature_returns_iff :
    (verifyManifestSignature rt manifest signingKey).Returns ↔
      ∀ signature value key, JsonValue.get manifest "signature" = .obj signature →
        JsonValue.get signature "value" = .str value →
        JsonValue.get signature "algorithm" = .str signatureAlgorithm →
        signingKey = some key → 32 ≤ key.toList.length →
        value.toList.all (fun c => c.toNat < 128) = true ∧ Encodable rt key ∧
          EncodableManifest rt manifest := by
  rw [verifyManifestSignature]
  split
  · next signature hsignature =>
    rw [Except.returns_bind_of_forall fun valid => Except.returns_pure _,
      signatureValid_returns_iff]
    constructor
    · intro h signature' value key hsignature'
      cases hsignature.symm.trans hsignature'
      exact h value key
    · exact fun h value key => h signature value key hsignature
  · next hnone =>
    exact iff_of_true (Except.returns_ok _) fun signature _ _ h => absurd h (hnone signature)

/-- The signature checks pass for a signed manifest only. -/
theorem signed_of_verifyManifestSignature {options : EvidenceOptions} {checks : List EvidenceCheck}
    (h : verifyManifestSignature rt manifest options.signingKey = .ok checks)
    (hpassed : checks.all (·.passed) = true) : Signed rt options manifest := by
  rw [verifyManifestSignature] at h
  split at h
  · next signature hsignature =>
    obtain ⟨valid, hvalid, h⟩ := Except.bind_eq_ok.mp h
    cases h
    have : valid = true := by
      simp only [List.all_cons, List.all_nil, Bool.and_true, Bool.and_eq_true] at hpassed
      exact hpassed.2.2.2
    rw [this] at hvalid
    obtain ⟨value, key, hvalue, hkey, hlong, hsign⟩ := signed_of_signatureValid hvalid
    exact ⟨signature, value, key, hsignature, hvalue, hkey, hlong, hsign⟩
  · cases h
    cases hpassed

end Signature

section Verification

variable {rt : EvidenceRuntime} {files : EvidenceFiles} {options : EvidenceOptions}

/-- The check of the artifact names passes for the required names only. -/
theorem mem_of_artifactSetCheck {names : List String}
    (h : (artifactSetCheck names).passed = true) (name : String) :
    name ∈ names ↔ name ∈ requiredArtifacts := by
  obtain ⟨hmissing, hextra⟩ := Bool.and_eq_true_iff.mp h
  constructor
  · intro hname
    by_contra hnot
    have : name ∈ sortedBy id (names.dedup.filter fun name => !requiredArtifacts.elem name) := by
      rw [mem_sortedBy, List.mem_filter, List.mem_dedup]
      exact ⟨hname, by simpa using hnot⟩
    rw [List.isEmpty_iff.mp hextra] at this
    cases this
  · intro hname
    by_contra hnot
    have : name ∈ sortedBy id (requiredArtifacts.filter fun name => !names.elem name) := by
      rw [mem_sortedBy, List.mem_filter]
      exact ⟨hname, by simpa using hnot⟩
    rw [List.isEmpty_iff.mp hmissing] at this
    cases this

/-- The artifacts are verified if their checks passed. -/
theorem verified_of_verifyArtifacts {manifest artifacts : JsonMembers} {checks : List EvidenceCheck}
    (h : verifyArtifacts rt files options manifest artifacts = .ok checks)
    (hpassed : checks.all (·.passed) = true) :
    ∀ name ∈ requiredArtifacts, Verified rt files (JsonValue.get artifacts name) := by
  obtain ⟨results, hresults, h⟩ := Except.bind_eq_ok.mp h
  obtain ⟨cross, -, h⟩ := Except.bind_eq_ok.mp h
  cases h
  rw [List.all_append, Bool.and_eq_true] at hpassed
  intro name hname
  rw [← map_fst_readers rt] at hname
  obtain ⟨reader, hreader, rfl⟩ := List.mem_map.mp hname
  obtain ⟨result, hresult, hverify⟩ :=
    (Except.forall₂_of_mapM hresults).exists_of_mem_left hreader
  refine verified_of_verifyArtifact hverify ?_
  rw [List.all_eq_true] at hpassed ⊢
  exact fun check hcheck => hpassed.1 check (List.mem_flatMap.mpr ⟨result, hresult, hcheck⟩)

/-- Verification is sound. -/
theorem soundEvidence_of_verifyManifest {checks : List EvidenceCheck}
    (h : verifyManifest rt files options = .ok checks) (hpassed : checks.all (·.passed) = true) :
    ∃ manifest, readJson rt files = .ok manifest ∧ SoundEvidence rt files options manifest := by
  rw [verifyManifest] at h
  cases hread : readJson rt files with
  | error e =>
    rw [hread] at h
    cases h
    cases hpassed
  | ok manifest =>
    rw [hread] at h
    obtain ⟨identity, -, h⟩ := Except.bind_eq_ok.mp h
    obtain ⟨signature, hsignature, h⟩ := Except.bind_eq_ok.mp h
    refine ⟨manifest, rfl, ?_⟩
    dsimp only at h
    split at h
    · next artifacts hartifacts =>
      obtain ⟨reports, hreports, h⟩ := Except.bind_eq_ok.mp h
      cases h
      simp only [List.all_append, List.all_cons, Bool.and_eq_true] at hpassed
      obtain ⟨⟨-, hsigned⟩, hset, hverified⟩ := hpassed
      exact ⟨signed_of_verifyManifestSignature hsignature hsigned, artifacts, hartifacts,
        mem_of_artifactSetCheck hset, verified_of_verifyArtifacts hreports hverified⟩
    · cases h
      simp [unread] at hpassed

/-- Nothing is read from a manifest whose artifacts are no dictionary. -/
theorem reportOf_of_no_artifacts {manifest : JsonMembers} (h : ∀ artifacts,
    JsonValue.get manifest "artifacts" ≠ .obj artifacts) (name : String) :
    reportOf rt files manifest name = none := by
  have hnone : (JsonValue.get manifest "artifacts").members = [] := by
    cases hartifacts : JsonValue.get manifest "artifacts" with
    | obj artifacts => exact absurd hartifacts (h artifacts)
    | null | bool _ | int _ | float _ | str _ | arr _ => rfl
  rw [reportOf, hnone]
  rfl

/-- With an artifacts object the report of a name is what its entry points to. -/
theorem reportOf_of_artifacts {manifest artifacts : JsonMembers}
    (h : JsonValue.get manifest "artifacts" = .obj artifacts) (name : String) :
    reportOf rt files manifest name = payloadAt rt files (JsonValue.get artifacts name) := by
  rw [reportOf, h]
  rfl

/-- The checks of the reports return, in the terms of the reports that can be read. -/
def ReportsReturn (rt : EvidenceRuntime) (files : EvidenceFiles) (options : EvidenceOptions)
    (manifest : JsonMembers) : Prop :=
  (∀ reader ∈ readers rt, ∀ report, reportOf rt files manifest reader.1 = some report →
    (reader.2 report).Returns) ∧
  ∀ name ∈ datedReports, ∀ report, reportOf rt files manifest name = some report →
    AgeKept rt options.maxAgeHours manifest report

/-- The verification returns exactly when each of its three parts does. -/
theorem verifyManifest_returns_iff (hurl : rt.url.TrimsHosts) :
    (verifyManifest rt files options).Returns ↔
      ∀ manifest, readJson rt files = .ok manifest →
        (verifyManifestIdentity rt options manifest).Returns ∧
          (verifyManifestSignature rt manifest options.signingKey).Returns ∧
          ReportsReturn rt files options manifest := by
  rw [verifyManifest]
  cases readJson rt files with
  | error e => simp
  | ok manifest =>
    simp only [Except.ok.injEq, forall_eq']
    refine Except.returns_bind_iff_and fun identity _ => ?_
    refine Except.returns_bind_iff_and fun signature _ => ?_
    split
    · next artifacts hartifacts =>
      rw [Except.returns_bind_of_forall fun reports => Except.returns_pure _,
        verifyArtifacts_returns_iff hurl, ReportsReturn]
      simp only [reportOf_of_artifacts hartifacts]
    · next hnone =>
      refine iff_of_true (Except.returns_pure _) ?_
      rw [ReportsReturn]
      simp only [reportOf_of_no_artifacts hnone, reduceCtorEq, false_imp_iff, implies_true,
        and_self]

/-- The checks return exactly at the values that can be coerced. -/
theorem coercible_iff {manifest : JsonMembers} :
    (verifyManifestIdentity rt options manifest).Returns ∧
      (verifyManifestSignature rt manifest options.signingKey).Returns ∧
      ReportsReturn rt files options manifest ↔ Coercible rt files options manifest := by
  rw [verifyManifestIdentity_returns_iff, generatedChecks_returns_iff,
    verifyManifestSignature_returns_iff, ReportsReturn, forall_readers_returns]
  simp only [timeChecks_returns_iff, verifyLoadSmoke_returns_iff, verifyReleaseNotes_returns_iff,
    verifyScheduledBackup_returns_iff, verifySecretFiles_returns_iff,
    verifyUiWalkthrough_returns_iff]
  constructor
  · rintro ⟨htime, hsignature, ⟨hload, hnotes, hbackup, hsecrets, hui⟩, hage⟩
    refine ⟨hsignature, fun t ht => (htime t ht).1, ?_, hload, hnotes, ?_⟩
    · intro t hours ht hpositive hlimit
      exact ⟨(htime t ht).2 hours hpositive hlimit, fun name hname report r hreport hr =>
        hage name hname report hreport t r hours ht hr hpositive hlimit⟩
    · intro name field hmem
      simp only [List.mem_cons, Prod.mk.injEq, List.not_mem_nil, or_false] at hmem
      rcases hmem with ⟨rfl, rfl⟩ | ⟨rfl, rfl⟩ | ⟨rfl, rfl⟩
      · exact hbackup
      · exact hsecrets
      · exact hui
  · intro h
    refine ⟨fun t ht => ⟨h.time t ht, fun hours hpositive hlimit =>
      (h.age t hours ht hpositive hlimit).1⟩, h.signature, ⟨h.loadSmoke, h.releaseNotes,
        h.rows _ _ (by simp), h.rows _ _ (by simp), h.rows _ _ (by simp)⟩, ?_⟩
    intro name hname report hreport t r hours ht hr hpositive hlimit
    exact (h.age t hours ht hpositive hlimit).2 name hname report r hreport hr

/-- Verification is total and sound exactly if the manifest cannot be read or has, with its reports,
only values that the verifiers can coerce. -/
theorem totalAndSound_iff (rt : EvidenceRuntime) (files : EvidenceFiles)
    (options : EvidenceOptions) (hurl : rt.url.TrimsHosts) :
    TotalAndSound rt files options ↔
      ∀ manifest, readJson rt files = .ok manifest → Coercible rt files options manifest := by
  have hreturns : (verifyManifest rt files options).Returns ↔
      ∀ manifest, readJson rt files = .ok manifest → Coercible rt files options manifest := by
    rw [verifyManifest_returns_iff hurl]
    exact forall₂_congr fun manifest _ => coercible_iff
  rw [← hreturns]
  exact ⟨fun h => h.1, fun h => ⟨h, fun checks => soundEvidence_of_verifyManifest⟩⟩

end Verification

/-- A manifest that has a generation time only. -/
def datedManifest : String := "\x7b\"generated_at\":\"2024-05-01T00:00:00Z\"\x7d"

/-- A report with a number of agents that is no number. -/
def agentsReport : String := "\x7b\"agents\":\"many\"\x7d"

/-- The digest of the report. -/
def agentsDigest : String := "036c6988daf9e9419bd1d66a17a7f1fab6f72983bb82fe6d29eba5018d320420"

/-- A manifest that lists the report. -/
def agentsManifest : String :=
  "\x7b\"artifacts\":\x7b\"load_smoke\":\x7b\"path\":\"load.json\",\"sha256\":\"" ++
    "036c6988daf9e9419bd1d66a17a7f1fab6f72983bb82fe6d29eba5018d320420\"\x7d\x7d\x7d"

/-- What a manifest that lists the report decodes to. -/
def agentsMembers : JsonMembers :=
  [("artifacts", .obj [("load_smoke",
    .obj [("path", .str "load.json"), ("sha256", .str agentsDigest)])])]

/-- The decoder on these texts. -/
def sampleLoads (text : List Char) : Except String JsonValue :=
  if text = datedManifest.toList then .ok (.obj [("generated_at", .str "2024-05-01T00:00:00Z")])
  else if text = agentsReport.toList then .ok (.obj [("agents", .str "many")])
  else if text = agentsManifest.toList then .ok (.obj agentsMembers)
  else .error "JSONDecodeError: Expecting value"

/-- The rest of the standard library on these texts. -/
def sampleRuntime : EvidenceRuntime where
  unicode := asciiUnicode
  str _ := "None"
  url := ⟨List.map Char.toLower, fun _ => true⟩
  loads := sampleLoads
  dumps _ := []
  surrogate _ := false
  decodeError _ := "UnicodeDecodeError: invalid start byte"
  repr _ := "None"
  reprPairs _ := "[]"
  sha256 bytes :=
    if bytes = Utf8.encode agentsReport.toList then
      [0x03, 0x6c, 0x69, 0x88, 0xda, 0xf9, 0xe9, 0x41, 0x9b, 0xd1, 0xd6, 0x6a, 0x17, 0xa7, 0xf1,
        0xfa, 0xb6, 0xf7, 0x29, 0x83, 0xbb, 0x82, 0xfe, 0x6d, 0x29, 0xeb, 0xa5, 0x01,
        0x8d, 0x32, 0x04, 0x20]
    else []
  hmacSha256 _ _ := []
  fromIsoformat text :=
    if text = "2024-05-01T00:00:00+00:00".toList then .ok ⟨1714521600000000, some 0⟩
    else .error "Invalid isoformat string"
  isoformat _ := "2024-05-01T00:00:00+00:00"
  formatFloat _ := "24.0"
  formatHours _ := "24.00"
  formatAge _ := "1.00"
  timedeltaHours hours := some (hours * 3600000000).floor

/-- A directory with a manifest and the report. -/
def sampleFiles (manifest : String) : EvidenceFiles where
  manifest := .ok (Utf8.encode manifest.toList)
  isAbsolute path := "/".toList.isPrefixOf path.toList
  resolve raw := .ok ("/bundle/" ++ raw)
  isInside path := "/bundle/".toList.isPrefixOf path.toList
  readBytes path :=
    if path = "/bundle/load.json" then .ok (Utf8.encode agentsReport.toList)
    else .error "FileNotFoundError: No such file or directory"

/-- An hour after the generation time, without a key. -/
def sampleOptions : EvidenceOptions := ⟨none, .finite 24, 1714525200000000, none, none, none⟩

/-- Any host part is accepted here. -/
theorem trimsHosts_sample : sampleRuntime.url.TrimsHosts := fun _ _ _ _ => rfl

/-- Text is decoded to what the decoder makes of it. -/
theorem decodeJsonObject_sample (text : String) {members : JsonMembers}
    (h : sampleLoads text.toList = .ok (.obj members)) :
    decodeJsonObject sampleRuntime (Utf8.encode text.toList) = .ok members := by
  have hloads : sampleRuntime.loads text.toList = .ok (.obj members) := h
  rw [decodeJsonObject, Utf8.decode_encode]
  dsimp only
  rw [hloads]

/-- The sample files read as the members of their text. -/
theorem readJson_sample (text : String) {members : JsonMembers}
    (h : sampleLoads text.toList = .ok (.obj members)) :
    readJson sampleRuntime (sampleFiles text) = .ok members := by
  rw [readJson, sampleFiles, Except.ok_bind]
  exact decodeJsonObject_sample text h

/-- The dated manifest reads as its single member. -/
theorem readJson_dated : readJson sampleRuntime (sampleFiles datedManifest) =
    .ok [("generated_at", .str "2024-05-01T00:00:00Z")] :=
  readJson_sample datedManifest (by rw [sampleLoads, if_pos rfl])

/-- The manifest with agents reads as its listed members. -/
theorem readJson_agents : readJson sampleRuntime (sampleFiles agentsManifest) =
    .ok agentsMembers := by
  have hdated : agentsManifest.toList ≠ datedManifest.toList :=
    String.toList_inj.not.mpr (by decide +kernel)
  have hreport : agentsManifest.toList ≠ agentsReport.toList :=
    String.toList_inj.not.mpr (by decide +kernel)
  exact readJson_sample agentsManifest
    (by rw [sampleLoads, if_neg hdated, if_neg hreport, if_pos rfl])

/-- The report is where its entry says. -/
theorem reportOf_agents : reportOf sampleRuntime (sampleFiles agentsManifest) agentsMembers
    "load_smoke" = some [("agents", .str "many")] := by
  have hentry : artifactEntry (sampleFiles agentsManifest)
      (JsonValue.get (JsonValue.get agentsMembers "artifacts").members "load_smoke") =
        .ok ("/bundle/load.json", agentsDigest) := by decide +kernel
  have hread : (sampleFiles agentsManifest).readBytes "/bundle/load.json" =
      .ok (Utf8.encode agentsReport.toList) := by
    rw [sampleFiles]
    dsimp only
    rw [if_pos rfl]
  have hdated : agentsReport.toList ≠ datedManifest.toList :=
    String.toList_inj.not.mpr (by decide +kernel)
  have hdecode : decodeJsonObject sampleRuntime (Utf8.encode agentsReport.toList) =
      .ok [("agents", .str "many")] :=
    decodeJsonObject_sample agentsReport (by rw [sampleLoads, if_neg hdated, if_pos rfl])
  rw [reportOf, payloadAt, hentry]
  dsimp only
  rw [hread]
  dsimp only
  rw [hdecode]
  rfl

/-- A release whose manifest can be dated and lists nothing is verified. -/
theorem totalAndSound_iff_dated :
    TotalAndSound sampleRuntime (sampleFiles datedManifest) sampleOptions := by
  refine (totalAndSound_iff _ _ _ trimsHosts_sample).mpr ?_
  intro manifest hmanifest
  cases readJson_dated.symm.trans hmanifest
  have hnone : ∀ name, reportOf sampleRuntime (sampleFiles datedManifest)
      [("generated_at", .str "2024-05-01T00:00:00Z")] name = none :=
    reportOf_of_no_artifacts fun artifacts h => by cases h
  have htime : awareDatetime sampleRuntime (.str "2024-05-01T00:00:00Z") =
      some ⟨1714521600000000, some 0⟩ := by decide +kernel
  refine ⟨?_, ?_, ?_, ?_, ?_, ?_⟩
  · intro signature value key h
    cases h
  · intro t ht
    cases htime.symm.trans ht
    decide
  · intro t hours _ _ hlimit
    cases hlimit
  · intro report h
    rw [hnone] at h
    cases h
  · intro report h
    rw [hnone] at h
    cases h
  · intro name field _ report h
    rw [hnone] at h
    cases h

/-- A number of agents that is no number raises. -/
theorem not_totalAndSound_agents :
    ¬ TotalAndSound sampleRuntime (sampleFiles agentsManifest) sampleOptions := by
  intro h
  have hcoercible := coercible_iff.mp
    ((verifyManifest_returns_iff trimsHosts_sample).mp h.1 _ readJson_agents)
  obtain hempty | ⟨-, hread⟩ := (hcoercible.loadSmoke _ reportOf_agents).1
  · exact absurd hempty (by decide)
  · exact absurd hread (by decide +kernel)

end ReleaseEvidence

end MemoryPlane
