import MemoryPlane.Lib.Proc
import MemoryPlane.Python.Utf8
import MemoryPlane.Runs.Operations
import MemoryPlane.Scripts.VaultManifest

/-!
# Signed vault imports

The verification of a manifest walks the list of the manifest and the importer walks the tree. A
file that the manifest names has the digest that the manifest gives; a file that it does not name
is read all the same.
-/

namespace MemoryPlane

namespace VaultManifest

variable {rt : ManifestRuntime} {tree : DirectoryTree}

/-- The manifest lists the path of the file. -/
def Named (rt : ManifestRuntime) (tree : DirectoryTree) (entry : TreeEntry) : Prop :=
  ∃ payload files, readManifest rt tree = .ok (payload, files) ∧ ∃ members, .obj members ∈ files ∧
    pathParts (textOf rt ((JsonObject.get members "path").getD (.str ""))) = entry.parts

/-- The signature file holds the tag of the manifest under the signing key. -/
def Signed (rt : ManifestRuntime) (tree : DirectoryTree) (signingKey : Option String)
    (payload : String) : Prop :=
  ∃ key, signingKey = some key ∧ key ≠ "" ∧ readSignature rt tree =
    .ok (rt.hmacSha256Hex key.toUTF8.toList payload.toUTF8.toList)

/-- The manifest is signed and lists the file with the digest of its content. -/
def ListedWithDigest (rt : ManifestRuntime) (tree : DirectoryTree) (signingKey : Option String)
    (entry : TreeEntry) : Prop :=
  ∃ payload files, readManifest rt tree = .ok (payload, files) ∧ Signed rt tree signingKey payload ∧
    ∃ members, .obj members ∈ files ∧
    pathParts (textOf rt ((JsonObject.get members "path").getD (.str ""))) = entry.parts ∧
    ∃ bytes, entry.node = .file bytes ∧
      textOf rt ((JsonObject.get members "sha256").getD (.str "")) = rt.sha256Hex bytes

/-- Digests that compare as equal are equal. -/
theorem compareDigest_eq_true {a b : String} (h : compareDigest a b = .ok true) : a = b := by
  unfold compareDigest at h
  split at h
  · rw [Except.ok.injEq, decide_eq_true_eq] at h
    exact h
  · cases h

/-- Bytes are read from the file that stands at the path. -/
theorem node_of_readBytes {entry : TreeEntry} {bytes : List UInt8} (hmem : entry ∈ tree.rows)
    (h : readBytes tree entry.parts = .ok bytes) : entry.node = .file bytes := by
  have hfind : tree.find entry.parts = some entry := Table.find_key hmem
  unfold readBytes nodeAt at h
  rw [hfind] at h
  split at h
  · rename_i hnode
    split at hnode
    · cases hnode
    · cases h
      rw [Option.map_some, Option.some.injEq] at hnode
      exact hnode
  · cases h
  · cases h

/-- A verified entry has the digest of the file that it names. -/
theorem verifyFileEntry_digest {members : JsonObject}
    (h : verifyFileEntry rt tree (.obj members) = .ok ()) :
    ∃ bytes, readBytes tree (pathParts (textOf rt ((JsonObject.get members "path").getD
        (.str "")))) = .ok bytes ∧
      textOf rt ((JsonObject.get members "sha256").getD (.str "")) = rt.sha256Hex bytes := by
  unfold verifyFileEntry at h
  dsimp only at h
  split at h
  · cases h
  split at h
  · cases h
  obtain ⟨bytes, hbytes, h⟩ := Except.bind_eq_ok.mp h
  obtain ⟨size, -, h⟩ := Except.bind_eq_ok.mp h
  split at h
  · cases h
  obtain ⟨same, hsame, h⟩ := Except.bind_eq_ok.mp h
  split at h
  · cases h
  rename_i htrue
  rw [Bool.not_eq_false] at htrue
  subst htrue
  exact ⟨bytes, hbytes, (compareDigest_eq_true hsame).symm⟩

/-- With all entries verified each of them is. -/
theorem verifyFileEntries_mem {files : List Json} (h : verifyFileEntries rt tree files = .ok ())
    {entry : Json} (hmem : entry ∈ files) : verifyFileEntry rt tree entry = .ok () := by
  induction files with
  | nil => cases hmem
  | cons first rest ih =>
    obtain ⟨_, hfirst, hrest⟩ := Except.bind_eq_ok.mp h
    obtain rfl | hmem := List.mem_cons.mp hmem
    · exact hfirst
    · exact ih hrest hmem

/-- A required signature is the tag of the manifest. -/
theorem signed_of_verifySignature {payload : String} {signingKey : Option String} {signed : Bool}
    (h : verifySignature rt tree payload signingKey true = .ok signed) :
    Signed rt tree signingKey payload := by
  unfold verifySignature at h
  simp only [Bool.true_and, Bool.or_true, if_true] at h
  split at h
  · cases h
  cases hkey : signingKey.filter fun key => key ≠ "" with
  | none =>
    rw [hkey] at h
    cases h
  | some key =>
    rw [hkey] at h
    obtain ⟨signature, hsignature, h⟩ := Except.bind_eq_ok.mp h
    obtain ⟨same, hsame, h⟩ := Except.bind_eq_ok.mp h
    split at h
    · cases h
    rename_i htrue
    rw [Bool.not_eq_false] at htrue
    subst htrue
    obtain ⟨rfl, hne⟩ := Option.filter_eq_some_iff.mp hkey
    exact ⟨key, rfl, of_decide_eq_true hne, by rw [hsignature, compareDigest_eq_true hsame]⟩

/-- A file that a manifest with a verified signature names is listed with its digest. -/
theorem listed_iff_named {signingKey : Option String} {v : VaultManifestVerification}
    (h : verifyVaultManifest rt tree signingKey true = .ok v) {entry : TreeEntry}
    (hmem : entry ∈ tree.rows) :
    ListedWithDigest rt tree signingKey entry ↔ Named rt tree entry := by
  constructor
  · rintro ⟨payload, files, hmanifest, -, members, hin, hpath, -⟩
    exact ⟨payload, files, hmanifest, members, hin, hpath⟩
  · rintro ⟨payload, files, hmanifest, members, hin, hpath⟩
    obtain ⟨manifest, hread, hrest⟩ := Except.bind_eq_ok.mp h
    rw [hmanifest, Except.ok.injEq] at hread
    subst hread
    obtain ⟨_, hentries, hrest⟩ := Except.bind_eq_ok.mp hrest
    obtain ⟨signed, hsigned, -⟩ := Except.bind_eq_ok.mp hrest
    obtain ⟨bytes, hbytes, hdigest⟩ := verifyFileEntry_digest (verifyFileEntries_mem hentries hin)
    rw [hpath] at hbytes
    exact ⟨payload, files, hmanifest, signed_of_verifySignature hsigned, members, hin, hpath, bytes,
      node_of_readBytes hmem hbytes, hdigest⟩

end VaultManifest

/-- The files that the importer has read are files of the tree. -/
theorem ImportVault.mem_filesRead {rt : ManifestRuntime} {tree : DirectoryTree} {entry : TreeEntry}
    (h : entry ∈ filesRead rt tree) : entry ∈ tree.rows := by
  have hmarkdown := (List.takeWhile_sublist _).subset h
  exact (List.mem_filter.mp ((mem_sortedBy ..).mp hmarkdown)).1

/-- For every content of the directory whose manifest verifies with a required signature: the
importer reads only files that the signed manifest lists with their digests exactly if it reads no
Markdown file that the manifest does not name. -/
theorem signed_import_listed_iff (rt : ManifestRuntime) (tree : DirectoryTree)
    (signingKey : Option String) (v : VaultManifestVerification)
    (h : VaultManifest.verifyVaultManifest rt tree signingKey true = .ok v) :
    (∀ entry ∈ ImportVault.filesRead rt tree,
        VaultManifest.ListedWithDigest rt tree signingKey entry) ↔
      ∀ entry ∈ ImportVault.filesRead rt tree, VaultManifest.Named rt tree entry :=
  forall₂_congr fun _ hentry =>
    VaultManifest.listed_iff_named h (ImportVault.mem_filesRead hentry)

/-- The bytes of an ASCII text. -/
def asciiBytes (text : String) : List UInt8 := text.toList.map fun c => UInt8.ofNat c.toNat

/-- The bytes of a note. -/
def shortNote : List UInt8 := asciiBytes "---\n"

/-- The manifest of a vault with that note. -/
def noteManifest : String :=
  "\x7b\"created_at\":\"2026-01-01T00:00:00+00:00\",\"files\":[\x7b\"bytes\":4,\"path\":" ++
    "\"a.md\",\"sha256\":" ++
    "\"f52d711103d50a437830c6fbcd04fb4bab49a0f82f6d26d1c791c6e8488dd090\"\x7d],\"format\":" ++
    "\"obelisk-vault-manifest-v1\",\"tenant_id\":\"t\",\"workspace_id\":\"w\"\x7d\n"

/-- The library on these files: their texts, their digests and the signature under one key. -/
def noteRuntime : ManifestRuntime where
  unicode := asciiUnicode
  readText bytes :=
    if bytes.all (fun b => b < 128 && b != 13) then
      .ok (String.ofList (bytes.map fun b => Char.ofNat b.toNat))
    else .error "UnicodeDecodeError"
  loads text :=
    if text = noteManifest then
      .ok (.obj [("created_at", .str "2026-01-01T00:00:00+00:00"),
        ("files", .arr [.obj [("bytes", .int 4), ("path", .str "a.md"),
          ("sha256", .str "f52d711103d50a437830c6fbcd04fb4bab49a0f82f6d26d1c791c6e8488dd090")]]),
        ("format", .str "obelisk-vault-manifest-v1"), ("tenant_id", .str "t"),
        ("workspace_id", .str "w")])
    else .error "JSONDecodeError"
  repr _ := ""
  sha256Hex bytes :=
    if bytes = shortNote then "f52d711103d50a437830c6fbcd04fb4bab49a0f82f6d26d1c791c6e8488dd090"
    else if bytes = asciiBytes noteManifest then
      "79ae165ebc4e5d73a739c2f55dfd1e2f0cdaa97688b5b4baa4bc8e932b6ce638"
    else ""
  hmacSha256Hex key message :=
    if key = asciiBytes "key" ∧ message = asciiBytes noteManifest then
      "dc01af6286c3f2c6d27f35e6f273f4e5b2a36c25d5e92d109e58a17b8ff0a697"
    else ""

/-- The manifest, its checksum and its signature, and the note. -/
def signedEntries : List TreeEntry :=
  [⟨[".uam-vault-manifest.json"], .file (asciiBytes noteManifest)⟩,
    ⟨[".uam-vault-manifest.sha256"], .file (asciiBytes
      ("79ae165ebc4e5d73a739c2f55dfd1e2f0cdaa97688b5b4baa4bc8e932b6ce638  " ++
        ".uam-vault-manifest.json\n"))⟩,
    ⟨[".uam-vault-manifest.sig"], .file (asciiBytes
      ("hmac-sha256:dc01af6286c3f2c6d27f35e6f273f4e5b2a36c25d5e92d109e58a17b8ff0a697\n"))⟩,
    ⟨["a.md"], .file shortNote⟩]

/-- The signed vault. -/
def signedVault : DirectoryTree := ⟨signedEntries, by decide⟩

/-- The signed vault with a further note that its manifest does not list. -/
def vaultWithExtra : DirectoryTree := ⟨signedEntries ++ [⟨["b.md"], .file shortNote⟩], by decide⟩

/-- A text of ASCII characters without a return is read back. -/
theorem readText_asciiBytes {text : String}
    (h : ∀ c ∈ text.toList, c.toNat < 128 ∧ c.toNat ≠ 13) :
    noteRuntime.readText (asciiBytes text) = .ok text := by
  have hbyte : ∀ c ∈ text.toList, (UInt8.ofNat c.toNat).toNat = c.toNat := by
    intro c hc
    rw [UInt8.toNat_ofNat']
    exact Nat.mod_eq_of_lt ((h c hc).1.trans (by decide))
  have hall : (asciiBytes text).all (fun b => b < 128 && b != 13) = true := by
    rw [asciiBytes, List.all_map, List.all_eq_true]
    intro c hc
    have hlt : UInt8.ofNat c.toNat < 128 := by
      rw [UInt8.lt_iff_toNat_lt, hbyte c hc]
      exact (h c hc).1
    have hne : UInt8.ofNat c.toNat ≠ 13 := fun heq =>
      (h c hc).2 ((hbyte c hc).symm.trans (congrArg UInt8.toNat heq))
    simp [hlt, hne]
  have hback : (asciiBytes text).map (fun b => Char.ofNat b.toNat) = text.toList := by
    rw [asciiBytes, List.map_map]
    refine (List.map_congr_left fun c hc => ?_).trans (List.map_id _)
    rw [Function.comp_apply, hbyte c hc, Char.ofNat_toNat, id_eq]
  have hread : noteRuntime.readText (asciiBytes text) =
      .ok (String.ofList ((asciiBytes text).map fun b => Char.ofNat b.toNat)) := if_pos hall
  rw [hread, hback, String.ofList_toList]

/-- An ASCII text is encoded byte by character. -/
theorem toUTF8_of_ascii {text : String} (h : ∀ c ∈ text.toList, c.toNat < 128) :
    text.toUTF8.toList = asciiBytes text := by
  rw [Utf8.toList_toUTF8, Utf8.encode_of_ascii h, asciiBytes]

/-- The characters of a text are those that it is made of. -/
theorem mem_toList_of_eq {text : String} {cs : List Char} (h : text = String.ofList cs)
    {c : Char} : c ∈ text.toList ↔ c ∈ cs := by
  rw [h, String.toList_ofList]

/-- The example's manifest, part by part. -/
theorem noteManifest_eq : noteManifest =
    "\x7b\"created_at\":\"2026-01-01T00:00:00+00:00\",\"files\":[\x7b\"bytes\":4,\"path\":" ++
    "\"a.md\",\"sha256\":" ++
    "\"f52d711103d50a437830c6fbcd04fb4bab49a0f82f6d26d1c791c6e8488dd090\"\x7d],\"format\":" ++
    "\"obelisk-vault-manifest-v1\",\"tenant_id\":\"t\",\"workspace_id\":\"w\"\x7d\n" := rfl

/-- The example's manifest is ASCII without carriage returns. -/
theorem ascii_noteManifest : ∀ c ∈ noteManifest.toList, c.toNat < 128 ∧ c.toNat ≠ 13 := by
  have hpart : ∀ {text : String} {cs : List Char}, text = String.ofList cs →
      cs.all (fun c => c.toNat < 128 ∧ c.toNat ≠ 13) = true →
        ∀ c ∈ text.toList, c.toNat < 128 ∧ c.toNat ≠ 13 :=
    fun h hcs c hc => of_decide_eq_true (List.all_eq_true.mp hcs c ((mem_toList_of_eq h).mp hc))
  simp only [noteManifest_eq, String.toList_append, List.forall_mem_append]
  exact ⟨⟨⟨hpart rfl (by decide +kernel), hpart rfl (by decide +kernel)⟩,
    hpart rfl (by decide +kernel)⟩, hpart rfl (by decide +kernel)⟩

/-- The example's manifest differs from its note. -/
theorem noteManifest_ne_shortNote : asciiBytes noteManifest ≠ shortNote := by
  intro h
  have hw : 'w' ∈ noteManifest.toList := by
    rw [noteManifest_eq, String.toList_append, List.mem_append, mem_toList_of_eq rfl]
    exact .inr (by decide)
  have hbyte : UInt8.ofNat 'w'.toNat ∈ shortNote := h ▸ List.mem_map_of_mem hw
  exact absurd hbyte (by decide +kernel)

/-- The entry of the note in the manifest. -/
def noteEntry : Json :=
  .obj [("bytes", .int 4), ("path", .str "a.md"),
    ("sha256", .str "f52d711103d50a437830c6fbcd04fb4bab49a0f82f6d26d1c791c6e8488dd090")]

/-- A listed path leads to its node. -/
theorem nodeAt_of_mem {tree : DirectoryTree} {entry : TreeEntry} (h : entry ∈ tree.rows)
    (hne : entry.parts ≠ []) : VaultManifest.nodeAt tree entry.parts = some entry.node := by
  rw [VaultManifest.nodeAt, if_neg hne, Table.find_key h, Option.map_some]

/-- The example's digest function knows the manifest. -/
theorem sha256Hex_noteManifest : noteRuntime.sha256Hex noteManifest.toUTF8.toList =
    "79ae165ebc4e5d73a739c2f55dfd1e2f0cdaa97688b5b4baa4bc8e932b6ce638" := by
  have hsha : ∀ bytes, noteRuntime.sha256Hex bytes =
      if bytes = shortNote then "f52d711103d50a437830c6fbcd04fb4bab49a0f82f6d26d1c791c6e8488dd090"
      else if bytes = asciiBytes noteManifest then
        "79ae165ebc4e5d73a739c2f55dfd1e2f0cdaa97688b5b4baa4bc8e932b6ce638"
      else "" := fun _ => rfl
  rw [toUTF8_of_ascii fun c hc => (ascii_noteManifest c hc).1, hsha,
    if_neg noteManifest_ne_shortNote, if_pos rfl]

section SignedTrees

variable {tree : DirectoryTree} (hentries : ∀ entry ∈ signedEntries, entry ∈ tree.rows)

include hentries

/-- The manifest of a tree that holds the files of the signed vault. -/
theorem readManifest_signed :
    VaultManifest.readManifest noteRuntime tree = .ok (noteManifest, [noteEntry]) := by
  have hmanifest := nodeAt_of_mem (hentries _ List.mem_cons_self) (List.cons_ne_nil _ _)
  have hchecksum := nodeAt_of_mem (hentries _ (List.mem_cons_of_mem _ List.mem_cons_self))
    (List.cons_ne_nil _ _)
  have htext : VaultManifest.readTextAt noteRuntime tree VaultManifest.manifestName =
      .ok noteManifest := by
    have hbytes : VaultManifest.readBytes tree [VaultManifest.manifestName] =
        .ok (asciiBytes noteManifest) := by
      rw [VaultManifest.readBytes, VaultManifest.manifestName, hmanifest]
    rw [VaultManifest.readTextAt, hbytes, Except.ok_bind, readText_asciiBytes ascii_noteManifest]
  have hsum : VaultManifest.readChecksum noteRuntime tree =
      .ok "79ae165ebc4e5d73a739c2f55dfd1e2f0cdaa97688b5b4baa4bc8e932b6ce638" := by
    rw [VaultManifest.readChecksum, VaultManifest.readTextAt, VaultManifest.readBytes,
      VaultManifest.checksumName, hchecksum]
    decide +kernel
  have hsame : VaultManifest.compareDigest
      "79ae165ebc4e5d73a739c2f55dfd1e2f0cdaa97688b5b4baa4bc8e932b6ce638"
      "79ae165ebc4e5d73a739c2f55dfd1e2f0cdaa97688b5b4baa4bc8e932b6ce638" = .ok true := by
    decide +kernel
  obtain ⟨members, hmembers⟩ : ∃ members, members = [("created_at",
      Json.str "2026-01-01T00:00:00+00:00"), ("files", .arr [noteEntry]),
      ("format", .str "obelisk-vault-manifest-v1"), ("tenant_id", .str "t"),
      ("workspace_id", .str "w")] := ⟨_, rfl⟩
  have hloads : noteRuntime.loads noteManifest = .ok (.obj members) := by
    have htexts : ∀ text, noteRuntime.loads text =
        if text = noteManifest then .ok (.obj members) else .error "JSONDecodeError" :=
      fun text => by
        rw [hmembers]
        rfl
    rw [htexts, if_pos rfl]
  have hformat : (JsonObject.get members "format").getD .null =
      .str VaultManifest.manifestFormat := by
    rw [hmembers]
    decide +kernel
  have hfiles : JsonObject.get members "files" = some (.arr [noteEntry]) := by
    rw [hmembers]
    rfl
  rw [VaultManifest.readManifest, VaultManifest.manifestName, VaultManifest.checksumName, hmanifest,
    hchecksum, if_neg (Option.some_ne_none _), if_neg (Option.some_ne_none _),
    ← VaultManifest.manifestName]
  rw [htext, Except.ok_bind, hsum, Except.ok_bind, sha256Hex_noteManifest, hsame, Except.ok_bind,
    if_neg (by decide), hloads, Except.ok_bind]
  simp only [hformat, hfiles]
  rw [if_neg (not_not.mpr rfl)]
  rfl

/-- A tree that holds the files of the signed vault is verified. -/
theorem verify_signed :
    VaultManifest.verifyVaultManifest noteRuntime tree (some "key") true = .ok ⟨1, true⟩ := by
  have hnote : VaultManifest.nodeAt tree ["a.md"] = some (.file shortNote) :=
    nodeAt_of_mem (hentries ⟨["a.md"], .file shortNote⟩ (by simp [signedEntries]))
      (List.cons_ne_nil _ _)
  have hverified : VaultManifest.verifyFileEntries noteRuntime tree [noteEntry] = .ok () := by
    have hpath : VaultManifest.textOf noteRuntime ((JsonObject.get [("bytes", .int 4),
        ("path", .str "a.md"), ("sha256",
          .str "f52d711103d50a437830c6fbcd04fb4bab49a0f82f6d26d1c791c6e8488dd090")]
        "path").getD (.str "")) = "a.md" := by decide +kernel
    have hparts : VaultManifest.pathParts "a.md" = ["a.md"] := by decide +kernel
    rw [noteEntry, VaultManifest.verifyFileEntries, VaultManifest.verifyFileEntry]
    simp only [hpath, hparts, VaultManifest.readBytes, hnote, VaultManifest.verifyFileEntries]
    decide +kernel
  have hsignature : VaultManifest.verifySignature noteRuntime tree noteManifest
      (some "key") true = .ok true := by
    have hnode := nodeAt_of_mem (hentries _ (List.mem_cons_of_mem _ (List.mem_cons_of_mem _
      List.mem_cons_self))) (List.cons_ne_nil _ _)
    have hsigned : (VaultManifest.nodeAt tree [VaultManifest.signatureName]).isSome = true := by
      rw [VaultManifest.signatureName, hnode]
      rfl
    have hread : VaultManifest.readSignature noteRuntime tree =
        .ok "dc01af6286c3f2c6d27f35e6f273f4e5b2a36c25d5e92d109e58a17b8ff0a697" := by
      rw [VaultManifest.readSignature, VaultManifest.readTextAt, VaultManifest.readBytes,
        VaultManifest.signatureName, hnode]
      decide +kernel
    have hascii : "key".toList.all (fun c => c.toNat < 128) = true := by decide +kernel
    have hkey : "key".toUTF8.toList = asciiBytes "key" :=
      toUTF8_of_ascii fun c hc => of_decide_eq_true (List.all_eq_true.mp hascii c hc)
    have hmac : noteRuntime.hmacSha256Hex "key".toUTF8.toList noteManifest.toUTF8.toList =
        "dc01af6286c3f2c6d27f35e6f273f4e5b2a36c25d5e92d109e58a17b8ff0a697" := by
      rw [hkey, toUTF8_of_ascii fun c hc => (ascii_noteManifest c hc).1]
      have hmacs : ∀ key message, noteRuntime.hmacSha256Hex key message =
          if key = asciiBytes "key" ∧ message = asciiBytes noteManifest then
            "dc01af6286c3f2c6d27f35e6f273f4e5b2a36c25d5e92d109e58a17b8ff0a697"
          else "" := fun _ _ => rfl
      rw [hmacs, if_pos ⟨rfl, rfl⟩]
    have hsame : VaultManifest.compareDigest
        "dc01af6286c3f2c6d27f35e6f273f4e5b2a36c25d5e92d109e58a17b8ff0a697"
        "dc01af6286c3f2c6d27f35e6f273f4e5b2a36c25d5e92d109e58a17b8ff0a697" = .ok true := by
      decide +kernel
    have hnamed : (some "key").filter (fun key => key ≠ "") = some "key" := by decide
    rw [VaultManifest.verifySignature, hsigned]
    simp only [hnamed]
    rw [hread, Except.ok_bind, hmac, hsame]
    rfl
  rw [VaultManifest.verifyVaultManifest, readManifest_signed hentries, Except.ok_bind]
  simp only []
  rw [hverified, Except.ok_bind, hsignature]
  rfl

end SignedTrees

/-- The vault with an unlisted note is verified. -/
theorem verify_vaultWithExtra :
    VaultManifest.verifyVaultManifest noteRuntime vaultWithExtra (some "key") true =
      .ok ⟨1, true⟩ :=
  verify_signed fun _ h => List.mem_append_left _ h

/-- The further note of the vault. -/
def extraNote : TreeEntry := ⟨["b.md"], .file shortNote⟩

/-- The unlisted note is among the files read. -/
theorem extraNote_read : extraNote ∈ ImportVault.filesRead noteRuntime vaultWithExtra := by
  decide +kernel

/-- The manifest of the signed vault does not name the further note. -/
theorem extraNote_not_named : ¬ VaultManifest.Named noteRuntime vaultWithExtra extraNote := by
  rintro ⟨payload, files, hmanifest, members, hin, hpath⟩
  rw [readManifest_signed fun _ h => List.mem_append_left _ h, Except.ok.injEq,
    Prod.mk.injEq] at hmanifest
  obtain ⟨-, rfl⟩ := hmanifest
  rw [List.mem_singleton, noteEntry, Json.obj.injEq] at hin
  subst hin
  have hparts : VaultManifest.pathParts "a.md" = ["a.md"] := by decide +kernel
  have hlisted : ["a.md"] = extraNote.parts := hparts.symm.trans hpath
  exact absurd hlisted (by decide)

/-- The importer reads a note that the signed manifest does not list. -/
theorem signed_import_reads_unlisted :
    VaultManifest.verifyVaultManifest noteRuntime vaultWithExtra (some "key") true = .ok ⟨1, true⟩ ∧
      ¬ ∀ entry ∈ ImportVault.filesRead noteRuntime vaultWithExtra,
        VaultManifest.ListedWithDigest noteRuntime vaultWithExtra (some "key") entry := by
  refine ⟨verify_vaultWithExtra, fun hall => extraNote_not_named ?_⟩
  have hlisted := hall extraNote extraNote_read
  exact (VaultManifest.listed_iff_named verify_vaultWithExtra
    (ImportVault.mem_filesRead extraNote_read)).mp hlisted

/-- Without the further note the manifest lists all that the importer reads. -/
theorem signed_import_listed_of_note :
    ImportVault.filesRead noteRuntime signedVault = [⟨["a.md"], .file shortNote⟩] ∧
      ∀ entry ∈ ImportVault.filesRead noteRuntime signedVault,
        VaultManifest.ListedWithDigest noteRuntime signedVault (some "key") entry := by
  have hentries : ∀ entry ∈ signedEntries, entry ∈ signedVault.rows := fun _ h => h
  have hread : ImportVault.filesRead noteRuntime signedVault =
      [⟨["a.md"], .file shortNote⟩] := by decide +kernel
  refine ⟨hread, (signed_import_listed_iff noteRuntime signedVault (some "key") ⟨1, true⟩
    (verify_signed hentries)).mpr ?_⟩
  intro entry hentry
  rw [hread, List.mem_singleton] at hentry
  subst hentry
  exact ⟨noteManifest, [noteEntry], readManifest_signed hentries, _, List.mem_singleton.mpr rfl,
    by decide +kernel⟩

end MemoryPlane
