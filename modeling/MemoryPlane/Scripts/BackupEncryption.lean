import MemoryPlane.Lib.Attempts
import Mathlib.Data.List.Basic

/-!
# Encrypted backups

A backup is encrypted chunk by chunk into a temporary file that then replaces the target, and is
decrypted the same way after its header and its tag were read. Every file operation may fail.
-/

namespace MemoryPlane

/-- `b"OBELISK-BACKUP-AES256GCM-V1\0"`. -/
def backupMagic : List UInt8 :=
  "OBELISK-BACKUP-AES256GCM-V1".toList.map (fun c => UInt8.ofNat c.toNat) ++ [0]

def nonceBytes : ℕ := 12

def tagBytes : ℕ := 16

def chunkBytes : ℕ := 1024 * 1024

/-- A backup key or encrypted artifact cannot be safely processed, a value is refused by the cipher,
or a file operation fails. -/
inductive BackupError where
  | encryption (message : String)
  | value (message : String)
  | os (message : String)
  deriving DecidableEq

/-- AES-GCM: every byte is combined with one of a key stream, and a tag is made of the ciphertext.
-/
structure AesGcm where
  keystream : List UInt8 → List UInt8 → ℕ → UInt8
  tag : List UInt8 → List UInt8 → List UInt8 → List UInt8
  length_tag : ∀ key nonce ciphertext, (tag key nonce ciphertext).length = tagBytes

namespace AesGcm

variable (gcm : AesGcm) (key nonce : List UInt8)

/-- The bytes from an offset on, encrypted or decrypted. -/
def crypt (offset : ℕ) : List UInt8 → List UInt8
  | [] => []
  | b :: bs => (b ^^^ gcm.keystream key nonce offset) :: crypt (offset + 1) bs

@[simp] theorem length_crypt (offset : ℕ) (bytes : List UInt8) :
    (gcm.crypt key nonce offset bytes).length = bytes.length := by
  induction bytes generalizing offset with
  | nil => rfl
  | cons b bs ih => rw [crypt, List.length_cons, ih, List.length_cons]

/-- A stream goes on where it stopped. -/
theorem crypt_append (offset : ℕ) (front back : List UInt8) :
    gcm.crypt key nonce offset (front ++ back) =
      gcm.crypt key nonce offset front ++ gcm.crypt key nonce (offset + front.length) back := by
  induction front generalizing offset with
  | nil => rfl
  | cons b bs ih =>
    rw [List.cons_append, crypt, ih, crypt, List.cons_append, List.length_cons, Nat.add_assoc,
      Nat.add_comm 1]

/-- What is encrypted is decrypted by the same stream. -/
theorem crypt_crypt (offset : ℕ) (bytes : List UInt8) :
    gcm.crypt key nonce offset (gcm.crypt key nonce offset bytes) = bytes := by
  induction bytes generalizing offset with
  | nil => rfl
  | cons b bs ih => rw [crypt, crypt, ih, UInt8.xor_assoc, UInt8.xor_self, UInt8.xor_zero]

end AesGcm

/-- A cipher that is at work, with the ciphertext so far. -/
structure GcmContext where
  key : List UInt8
  nonce : List UInt8
  ciphertext : List UInt8

namespace GcmContext

variable (gcm : AesGcm) (ctx : GcmContext) (chunk : List UInt8)

/-- The next bytes of the stream. -/
def next : List UInt8 := gcm.crypt ctx.key ctx.nonce ctx.ciphertext.length chunk

/-- `encryptor.update(chunk)`. -/
def encryptUpdate : List UInt8 × GcmContext :=
  (ctx.next gcm chunk, { ctx with ciphertext := ctx.ciphertext ++ ctx.next gcm chunk })

/-- `decryptor.update(chunk)`. -/
def decryptUpdate : List UInt8 × GcmContext :=
  (ctx.next gcm chunk, { ctx with ciphertext := ctx.ciphertext ++ chunk })

/-- The tag of what was encrypted or decrypted. -/
def tag : List UInt8 := gcm.tag ctx.key ctx.nonce ctx.ciphertext

end GcmContext

/-- What a file operation does, in the order of the code. -/
inductive FileOp where
  | stat | openHeader | readMagic | readNonce | seekTag | readTag
  | makeDirectory | makeTemporary | closeTemporary | changeMode
  | openSource | openTemporary | seek | read (i : ℕ)
  | writeMagic | writeNonce | writeChunk (i : ℕ) | writeFinal | writeTag
  | flush | sync | close | replace | unlink
  | openTarget | readTarget (i : ℕ)
  deriving DecidableEq

namespace BackupEncryption

open Proc

/-- The content of each file. -/
abbrev Files := String → Option (List UInt8)

/-- A program on files, each of whose operations may fail. -/
abbrev Program (α : Type) := Proc (World FileOp BackupError Files) BackupError α

/-- An operation without an effect on the content of files. -/
def touch (op : FileOp) : Program Unit := attempt op fun files => (.ok (), files)

/-- The content of a file that is opened or looked at. -/
def openFile (op : FileOp) (path : String) : Program (List UInt8) :=
  attempt op fun files =>
    (match files path with
      | some content => .ok content
      | none => .error (.os "No such file or directory"), files)

/-- A file is made new, with no content. -/
def truncate (op : FileOp) (path : String) : Program Unit :=
  attempt op fun files => (.ok (), Function.update files path (some []))

/-- Bytes are written behind the content of a file. -/
def append (op : FileOp) (path : String) (bytes : List UInt8) : Program Unit :=
  attempt op fun files =>
    (.ok (), Function.update files path (some ((files path).getD [] ++ bytes)))

/-- `os.replace(path, target)`. -/
def rename (path target : String) : Program Unit :=
  attempt .replace fun files =>
    (.ok (), Function.update (Function.update files target (files path)) path none)

/-- `path.unlink(missing_ok=True)`. -/
def unlink (path : String) : Program Unit :=
  attempt .unlink fun files => (.ok (), Function.update files path none)

/-- `_temporary_target`, which draws the name of the temporary file. -/
def temporaryTarget (temporary : String) : Program Unit := do
  touch .makeDirectory
  truncate .makeTemporary temporary
  touch .closeTemporary
  touch .changeMode

/-- `Cipher(algorithms.AES(key), modes.GCM(nonce))`. -/
def newCipher (key nonce : List UInt8) : Program GcmContext :=
  if key.length ∈ [16, 24, 32] then pure ⟨key, nonce, []⟩
  else raise (.value "Invalid key size for AES.")

/-- A chunk that is not empty leaves less to read. -/
theorem length_drop_chunk {rest : List UInt8} (h : rest.take chunkBytes ≠ []) :
    (rest.drop chunkBytes).length < rest.length := by
  have hrest : rest ≠ [] := by
    rintro rfl
    exact h List.take_nil
  have hlength := List.length_pos_iff.mpr hrest
  rw [List.length_drop, chunkBytes]
  omega

/-- `while chunk := reader.read(CHUNK_BYTES)`, with what is left to read. -/
def eachChunk {β : Type} (op : ℕ → FileOp) (body : ℕ → List UInt8 → β → Program β) (i : ℕ) (b : β)
    (rest : List UInt8) : Program β := do
  touch (op i)
  if h : rest.take chunkBytes = [] then pure b
  else do
    let b' ← body i (rest.take chunkBytes) b
    eachChunk op body (i + 1) b' (rest.drop chunkBytes)
termination_by rest.length
decreasing_by exact length_drop_chunk h

/-- One chunk of the loop of `encrypt_file`, with the bytes read so far. -/
def encryptChunk (gcm : AesGcm) (temporary : String) (i : ℕ) (chunk : List UInt8)
    (state : GcmContext × ℕ) : Program (GcmContext × ℕ) := do
  append (.writeChunk i) temporary (state.1.encryptUpdate gcm chunk).1
  pure ((state.1.encryptUpdate gcm chunk).2, state.2 + chunk.length)

/-- The `try` block of `encrypt_file` up to the replacement. -/
def encryptTemporary (gcm : AesGcm) (source temporary : String) (ctx : GcmContext) : Program ℕ := do
  let content ← openFile .openSource source
  truncate .openTemporary temporary
  append .writeMagic temporary backupMagic
  append .writeNonce temporary ctx.nonce
  let state ← eachChunk .read (encryptChunk gcm temporary) 0 (ctx, 0) content
  append .writeFinal temporary []
  append .writeTag temporary (state.1.tag gcm)
  touch .flush
  touch .sync
  touch .close
  pure state.2

/-- `_sha256_file`. -/
def sha256File (sha256 : List UInt8 → String) (path : String) : Program String := do
  let content ← openFile .openTarget path
  let read ← eachChunk .readTarget (fun _ chunk seen => pure (seen ++ chunk)) 0 [] content
  pure (sha256 read)

/-- `key_fingerprint`. -/
def keyFingerprint (sha256 : List UInt8 → String) (key : List UInt8) : String :=
  String.ofList ((sha256 key).toList.take 16)

/-- What `encrypt_file` reports. -/
structure EncryptionReport where
  algorithm : String
  keyFingerprint : String
  plaintextBytes : ℕ
  ciphertextSha256 : String

/-- The temporary file is written and replaces the target, or is removed. -/
def replaceTarget {α : Type} (temporary target : String) (write : Program α) : Program α :=
  (do
    let result ← write
    rename temporary target
    pure result).onError (unlink temporary)

/-- `encrypt_file` up to its report. -/
def encryptReplacing (gcm : AesGcm) (source target temporary : String) (key nonce : List UInt8) :
    Program ℕ := do
  let ctx ← newCipher key nonce
  temporaryTarget temporary
  replaceTarget temporary target (encryptTemporary gcm source temporary ctx)

/-- Encrypt *source* into *target* atomically using AES-256-GCM streaming. -/
def encryptFile (gcm : AesGcm) (sha256 : List UInt8 → String) (source target temporary : String)
    (key nonce : List UInt8) : Program EncryptionReport := do
  let bytesIn ← encryptReplacing gcm source target temporary key nonce
  let digest ← sha256File sha256 target
  pure ⟨"AES-256-GCM", keyFingerprint sha256 key, bytesIn, digest⟩

/-- The loop of `decrypt_file`, with the number of bytes that remain. -/
def decryptChunks (gcm : AesGcm) (temporary : String) (i : ℕ) (ctx : GcmContext) (remaining : ℕ)
    (rest : List UInt8) : Program GcmContext :=
  if _hremaining : remaining = 0 then pure ctx
  else do
    touch (.read i)
    if _h : rest.take (min chunkBytes remaining) = [] then
      raise (.encryption "encrypted backup is truncated")
    else do
      let chunk := rest.take (min chunkBytes remaining)
      append (.writeChunk i) temporary (ctx.decryptUpdate gcm chunk).1
      decryptChunks gcm temporary (i + 1) (ctx.decryptUpdate gcm chunk).2
        (remaining - chunk.length) (rest.drop chunk.length)
termination_by remaining
decreasing_by
  have hlength := List.length_pos_iff.mpr _h
  omega

/-- The `try` block of `decrypt_file` up to the replacement. -/
def decryptTemporary (gcm : AesGcm) (source temporary : String) (ctx : GcmContext)
    (tag : List UInt8) (ciphertextBytes : ℕ) : Program Unit := do
  let content ← openFile .openSource source
  truncate .openTemporary temporary
  touch .seek
  let ctx ← decryptChunks gcm temporary 0 ctx ciphertextBytes
    (content.drop (backupMagic.length + nonceBytes))
  if ctx.tag gcm ≠ tag then raise (.encryption "encrypted backup authentication failed")
  else do
    append .writeFinal temporary []
    touch .flush
    touch .sync
    touch .close

/-- `b"OBELISK-BACKUP-AES256GCM-V1\0"`, a nonce and a tag. -/
def minimumBytes : ℕ := backupMagic.length + nonceBytes + tagBytes

/-- `decrypt_file` of a content with the header. -/
def decryptReplacing (gcm : AesGcm) (source target temporary : String) (key content : List UInt8)
    (size : ℕ) : Program Unit := do
  touch .readNonce
  touch .seekTag
  touch .readTag
  let ctx ← newCipher key ((content.drop backupMagic.length).take nonceBytes)
  temporaryTarget temporary
  replaceTarget temporary target (decryptTemporary gcm source temporary ctx
    (content.drop (content.length - tagBytes)) (size - minimumBytes))

/-- Verify and decrypt an Obelisk encrypted artifact atomically into *target*. -/
def decryptFile (gcm : AesGcm) (source target temporary : String) (key : List UInt8) :
    Program Unit := do
  let sized ← openFile .stat source
  if sized.length < minimumBytes then raise (.encryption "encrypted backup is truncated")
  else do
    let content ← openFile .openHeader source
    touch .readMagic
    if content.take backupMagic.length ≠ backupMagic then
      raise (.encryption "backup does not use the Obelisk encrypted format")
    else decryptReplacing gcm source target temporary key content sized.length

end BackupEncryption

end MemoryPlane
