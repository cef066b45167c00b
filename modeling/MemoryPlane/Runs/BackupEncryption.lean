import MemoryPlane.Scripts.BackupEncryption

/-!
# Encrypted backups over whole calls

What `encrypt_file` writes is decrypted to the same bytes, and nothing else that was not forged is
decrypted. A call that fails leaves the target as it was, but for a digest that cannot be read after
the target was replaced.
-/

namespace MemoryPlane

namespace BackupEncryption

open Proc

variable {gcm : AesGcm} {sha256 : List UInt8 → String} {source target temporary path : String}
  {key nonce : List UInt8} {ctx : GcmContext} {w : World FileOp BackupError Files}

section Operations

/-- The operations of a loop over the chunks of a content. -/
def chunkOps (op : ℕ → FileOp) (bodyOps : ℕ → List FileOp) (i : ℕ) (rest : List UInt8) :
    List FileOp :=
  [op i] ++
    if _h : rest.take chunkBytes = [] then []
    else bodyOps i ++ chunkOps op bodyOps (i + 1) (rest.drop chunkBytes)
termination_by rest.length
decreasing_by exact length_drop_chunk _h

/-- The loop reads chunks and does what its body does. -/
theorem mem_chunkOps {op : ℕ → FileOp} {bodyOps : ℕ → List FileOp} {i : ℕ} {rest : List UInt8}
    {o : FileOp} (h : o ∈ chunkOps op bodyOps i rest) : ∃ j, o = op j ∨ o ∈ bodyOps j := by
  induction hlength : rest.length using Nat.strongRecOn generalizing i rest with
  | ind length ih =>
  subst hlength
  rw [chunkOps, List.singleton_append, List.mem_cons] at h
  obtain rfl | h := h
  · exact ⟨i, .inl rfl⟩
  · split at h
    · cases h
    · next hchunk =>
      obtain h | h := List.mem_append.mp h
      · exact ⟨i, .inr h⟩
      · exact ih _ (length_drop_chunk hchunk) h rfl

/-- The world with another content of one file. -/
def put (w : World FileOp BackupError Files) (path : String) (content : Option (List UInt8)) :
    World FileOp BackupError Files :=
  { w with state := Function.update w.state path content }

/-- A path holds what was last put there. -/
@[simp] theorem put_state_self (content : Option (List UInt8)) :
    (put w path content).state path = content := Function.update_self ..

/-- The second write to a path hides the first. -/
@[simp] theorem put_put (a b : Option (List UInt8)) : put (put w path a) path b = put w path b := by
  rw [put, put, put, Function.update_idem]

/-- Writes to different paths commute. -/
theorem put_comm {path' : String} (h : path ≠ path') (a b : Option (List UInt8)) :
    put (put w path a) path' b = put (put w path' b) path a := by
  rw [put, put, put, put, Function.update_comm h]

/-- An operation with no result of its own succeeds and changes no file. -/
theorem performs_touch (op : FileOp) : Performs (touch op) w [op] () w :=
  performs_attempt rfl

/-- Opening an existing file reads its content. -/
theorem performs_openFile {content : List UInt8} (op : FileOp) (h : w.state path = some content) :
    Performs (openFile op path) w [op] content w :=
  performs_attempt (by rw [h])

/-- Opening for writing leaves an empty file. -/
theorem performs_truncate (op : FileOp) :
    Performs (truncate op path) w [op] () (put w path (some [])) := performs_attempt rfl

/-- A write adds its bytes behind those written before. -/
theorem performs_append (op : FileOp) (written bytes : List UInt8) :
    Performs (append op path bytes) (put w path (some written)) [op] ()
      (put w path (some (written ++ bytes))) := by
  have hput : put w path (some (written ++ bytes)) = put (put w path (some written)) path
      (some (((put w path (some written)).state path).getD [] ++ bytes)) := by
    rw [put_put, put_state_self, Option.getD_some]
  rw [hput]
  exact performs_attempt rfl

/-- The temporary file starts out empty beside the target. -/
theorem performs_temporaryTarget : Performs (temporaryTarget temporary) w
    [FileOp.makeDirectory, .makeTemporary, .closeTemporary, .changeMode] ()
    (put w temporary (some [])) :=
  (performs_touch _).bind ((performs_truncate _).bind ((performs_touch _).bind (performs_touch _)))

/-- An empty chunk means that the source is at its end. -/
theorem eq_nil_of_take {rest : List UInt8} (h : rest.take chunkBytes = []) : rest = [] := by
  cases rest with
  | nil => rfl
  | cons b bs => simp [chunkBytes] at h

/-- A stream goes on behind what was encrypted or decrypted. -/
theorem next_append {ctx ctx' : GcmContext} {front : List UInt8} (hkey : ctx'.key = ctx.key)
    (hnonce : ctx'.nonce = ctx.nonce)
    (hlength : ctx'.ciphertext.length = ctx.ciphertext.length + front.length) (back : List UInt8) :
    ctx.next gcm front ++ ctx'.next gcm back = ctx.next gcm (front ++ back) := by
  rw [GcmContext.next, GcmContext.next, GcmContext.next, AesGcm.crypt_append, hkey, hnonce, hlength]

/-- The loop of encryption writes the encrypted rest behind what is there. -/
theorem performs_encryptChunks (gcm : AesGcm) (w : World FileOp BackupError Files)
    (temporary : String) (i n : ℕ) (ctx : GcmContext) (rest written : List UInt8) :
    Performs (eachChunk .read (encryptChunk gcm temporary) i (ctx, n) rest)
      (put w temporary (some written)) (chunkOps .read (fun j => [FileOp.writeChunk j]) i rest)
      ({ ctx with ciphertext := ctx.ciphertext ++ ctx.next gcm rest }, n + rest.length)
      (put w temporary (some (written ++ ctx.next gcm rest))) := by
  induction hlength : rest.length using Nat.strongRecOn generalizing i n ctx rest written with
  | ind length ih =>
  subst hlength
  rw [eachChunk, chunkOps]
  refine (performs_touch _).bind ?_
  by_cases h : rest.take chunkBytes = []
  · cases eq_nil_of_take h
    have hnext : ctx.next gcm [] = [] := rfl
    rw [dif_pos h, dif_pos h, hnext, List.append_nil, List.append_nil]
    exact performs_pure
  · rw [dif_neg h, dif_neg h]
    have hstep : Performs (encryptChunk gcm temporary i (rest.take chunkBytes) (ctx, n))
        (put w temporary (some written)) [FileOp.writeChunk i]
        ((ctx.encryptUpdate gcm (rest.take chunkBytes)).2, n + (rest.take chunkBytes).length)
        (put w temporary (some (written ++ ctx.next gcm (rest.take chunkBytes)))) :=
      (performs_append _ _ _).bind performs_pure
    have hrest := ih _ (length_drop_chunk h) (i + 1) (n + (rest.take chunkBytes).length)
      (ctx.encryptUpdate gcm (rest.take chunkBytes)).2 (rest.drop chunkBytes)
      (written ++ ctx.next gcm (rest.take chunkBytes)) rfl
    have hnext : ctx.next gcm (rest.take chunkBytes) ++
        (ctx.encryptUpdate gcm (rest.take chunkBytes)).2.next gcm (rest.drop chunkBytes) =
          ctx.next gcm rest := by
      rw [next_append, List.take_append_drop]
      · rfl
      · rfl
      · simp [GcmContext.encryptUpdate, GcmContext.next]
    have hfinal : (ctx.encryptUpdate gcm (rest.take chunkBytes)).2.ciphertext ++
        (ctx.encryptUpdate gcm (rest.take chunkBytes)).2.next gcm (rest.drop chunkBytes) =
          ctx.ciphertext ++ ctx.next gcm rest := by
      rw [← hnext, ← List.append_assoc]
      rfl
    rw [List.append_assoc, hnext, Nat.add_assoc, ← List.length_append, List.take_append_drop,
      hfinal] at hrest
    exact hstep.bind hrest

/-- The operations of encryption up to the replacement of the target. -/
def encryptOps (content : List UInt8) : List FileOp :=
  [FileOp.makeDirectory, .makeTemporary, .closeTemporary, .changeMode, .openSource, .openTemporary,
      .writeMagic, .writeNonce] ++ chunkOps .read (fun i => [FileOp.writeChunk i]) 0 content ++
    [FileOp.writeFinal, .writeTag, .flush, .sync, .close, .replace]

/-- The operations of the digest of a content. -/
def digestOps (content : List UInt8) : List FileOp :=
  [.openTarget] ++ chunkOps .readTarget (fun _ => []) 0 content

/-- What `encrypt_file` writes. -/
def artifact (gcm : AesGcm) (key nonce plaintext : List UInt8) : List UInt8 :=
  backupMagic ++ nonce ++ gcm.crypt key nonce 0 plaintext ++
    gcm.tag key nonce (gcm.crypt key nonce 0 plaintext)

/-- The files after the target was replaced. -/
def replaced (w : World FileOp BackupError Files) (target temporary : String)
    (content : List UInt8) : World FileOp BackupError Files :=
  put (put w target (some content)) temporary none

/-- Fault-free encryption leaves the whole artifact in the temporary file. -/
theorem performs_encryptTemporary {content : List UInt8}
    (hsource : w.state source = some content) :
    Performs (encryptTemporary gcm source temporary ⟨key, nonce, []⟩) w
      ([FileOp.openSource, .openTemporary, .writeMagic, .writeNonce] ++
        chunkOps .read (fun i => [FileOp.writeChunk i]) 0 content ++
        [FileOp.writeFinal, .writeTag, .flush, .sync, .close])
      content.length (put w temporary (some (artifact gcm key nonce content))) := by
  obtain ⟨ctx, hctx⟩ : ∃ ctx : GcmContext, ctx = ⟨key, nonce, gcm.crypt key nonce 0 content⟩ :=
    ⟨_, rfl⟩
  have hloop : Performs (eachChunk .read (encryptChunk gcm temporary) 0
    (⟨key, nonce, []⟩, 0) content)
      (put w temporary (some (backupMagic ++ nonce)))
      (chunkOps .read (fun i => [FileOp.writeChunk i]) 0 content) (ctx, content.length)
      (put w temporary (some (backupMagic ++ nonce ++ ctx.ciphertext))) := by
    have h := performs_encryptChunks gcm w temporary 0 0 ⟨key, nonce, []⟩ content
      (backupMagic ++ nonce)
    rw [Nat.zero_add] at h
    rwa [hctx]
  have htail : Performs (do
      append .writeFinal temporary []
      append .writeTag temporary (ctx.tag gcm)
      touch .flush
      touch .sync
      touch .close
      pure content.length) (put w temporary (some (backupMagic ++ nonce ++ ctx.ciphertext)))
      [FileOp.writeFinal, .writeTag, .flush, .sync, .close] content.length
      (put w temporary (some (artifact gcm key nonce content))) := by
    have hfinal : backupMagic ++ nonce ++ ctx.ciphertext ++ [] ++ ctx.tag gcm =
        artifact gcm key nonce content := by
      rw [hctx, List.append_nil]
      rfl
    rw [← hfinal]
    exact (performs_append _ _ _).bind ((performs_append _ _ _).bind ((performs_touch _).bind
      ((performs_touch _).bind ((performs_touch _).bind performs_pure))))
  rw [List.append_assoc]
  exact (performs_openFile _ hsource).bind ((performs_truncate _).bind
    ((performs_append _ [] backupMagic).bind ((performs_append _ _ nonce).bind
      (hloop.bind htail))))

/-- Whatever is written into the temporary file replaces the target. -/
theorem performs_replaceTarget {α : Type} {write : Program α} {ops : List FileOp} {a : α}
    {content : List UInt8} (h : Performs write w ops a (put w temporary (some content)))
    (hne : temporary ≠ target) :
    Performs (replaceTarget temporary target write) w (ops ++ [FileOp.replace]) a
      (replaced w target temporary content) := by
  have hrename : Performs (rename temporary target) (put w temporary (some content))
      [FileOp.replace] ()
      (replaced w target temporary content) := by
    have hreplaced : replaced w target temporary content = put (put (put w temporary (some content))
        target ((put w temporary (some content)).state temporary)) temporary none := by
      rw [put_state_self, replaced, put_comm hne.symm, put_comm hne.symm, put_put]
    rw [hreplaced]
    exact performs_attempt rfl
  have hlast : Performs (do rename temporary target; pure a) (put w temporary (some content))
      [FileOp.replace] a (replaced w target temporary content) := hrename.bind performs_pure
  exact (h.bind hlast).onError _

/-- The digest reads the whole target. -/
theorem performs_digestChunks (i : ℕ) (seen rest : List UInt8) :
    Performs (eachChunk .readTarget (fun _ chunk seen => pure (seen ++ chunk)) i seen rest) w
      (chunkOps .readTarget (fun _ => []) i rest) (seen ++ rest) w := by
  induction hlength : rest.length using Nat.strongRecOn generalizing i seen rest with
  | ind length ih =>
  subst hlength
  rw [eachChunk, chunkOps]
  refine (performs_touch _).bind ?_
  by_cases h : rest.take chunkBytes = []
  · cases eq_nil_of_take h
    rw [dif_pos h, dif_pos h, List.append_nil]
    exact performs_pure
  · rw [dif_neg h, dif_neg h]
    have hrest := ih _ (length_drop_chunk h) (i + 1) (seen ++ rest.take chunkBytes)
      (rest.drop chunkBytes) rfl
    rw [List.append_assoc, List.take_append_drop] at hrest
    exact performs_pure.bind hrest

/-- The digest of the written file is that of its whole content. -/
theorem performs_sha256File {content : List UInt8} (h : w.state target = some content) :
    Performs (sha256File sha256 target) w (digestOps content) (sha256 content) w := by
  have hloop : Performs (do
      let read ← eachChunk .readTarget (fun _ chunk seen => pure (seen ++ chunk)) 0 [] content
      pure (sha256 read)) w (chunkOps .readTarget (fun _ => []) 0 content ++ [])
      (sha256 content) w :=
    (performs_digestChunks 0 [] content).bind performs_pure
  rw [List.append_nil] at hloop
  exact (performs_openFile .openTarget h).bind hloop

/-- A 32-byte key starts a cipher that has processed nothing. -/
theorem performs_newCipher (hkey : key.length = 32) :
    Performs (newCipher key nonce) w [] ⟨key, nonce, []⟩ w := by
  rw [newCipher, if_pos (by rw [hkey]; decide)]
  exact performs_pure

/-- Encryption up to the report replaces the target by the artifact. -/
theorem performs_encryptReplacing {content : List UInt8} (hkey : key.length = 32)
    (hsource : w.state source = some content) (hne : temporary ≠ source)
    (hdifferent : temporary ≠ target) :
    Performs (encryptReplacing gcm source target temporary key nonce) w (encryptOps content)
      content.length (replaced w target temporary (artifact gcm key nonce content)) := by
  have hreplaced : replaced w target temporary (artifact gcm key nonce content) =
      replaced (put w temporary (some [])) target temporary (artifact gcm key nonce content) := by
    rw [replaced, replaced, put_comm hdifferent, put_put]
  have hwrite : Performs (encryptTemporary gcm source temporary ⟨key, nonce, []⟩)
      (put w temporary (some [])) ([FileOp.openSource, .openTemporary, .writeMagic, .writeNonce] ++
        chunkOps .read (fun i => [FileOp.writeChunk i]) 0 content ++
        [FileOp.writeFinal, .writeTag, .flush, .sync, .close]) content.length
      (put (put w temporary (some [])) temporary (some (artifact gcm key nonce content))) :=
    performs_encryptTemporary ((Function.update_of_ne hne.symm _ _).trans hsource)
  have hops : encryptOps content = [] ++ ([FileOp.makeDirectory, .makeTemporary, .closeTemporary,
      .changeMode] ++ ([FileOp.openSource, .openTemporary, .writeMagic, .writeNonce] ++
        chunkOps .read (fun i => [FileOp.writeChunk i]) 0 content ++
        [FileOp.writeFinal, .writeTag, .flush, .sync, .close] ++ [FileOp.replace])) := by
    simp [encryptOps]
  rw [hops, hreplaced]
  exact (performs_newCipher hkey).bind (performs_temporaryTarget.bind
    (performs_replaceTarget hwrite hdifferent))

end Operations

section Atomicity

/-- The content of a file is the same. -/
def SameAt (path : String) (files files' : Files) : Prop := files' path = files path

/-- The file at a path agrees with itself. -/
theorem sameAt_refl (path : String) (files : Files) : SameAt path files files := rfl

/-- Agreement at a path passes along a sequence of file states. -/
theorem sameAt_trans (path : String) (a b c : Files) (hab : SameAt path a b)
    (hbc : SameAt path b c) : SameAt path a c := Eq.trans hbc hab

/-- Another file was given a content. -/
theorem sameAt_update (hne : temporary ≠ target) (content : Files → Option (List UInt8))
    (files : Files) : SameAt target files (Function.update files temporary (content files)) :=
  Function.update_of_ne hne.symm _ _

/-- An operation without a file of its own leaves the target alone. -/
theorem keeps_touch (op : FileOp) : Keeps (SameAt target) (touch op) :=
  keeps_attempt (sameAt_refl target) op (sameAt_refl target)

/-- Reading leaves the target alone. -/
theorem keeps_openFile (op : FileOp) : Keeps (SameAt target) (openFile op path) :=
  keeps_attempt (sameAt_refl target) op (sameAt_refl target)

/-- Emptying the temporary file leaves the target alone. -/
theorem keeps_truncate (hne : temporary ≠ target) (op : FileOp) :
    Keeps (SameAt target) (truncate op temporary) :=
  keeps_attempt (sameAt_refl target) op (sameAt_update hne fun _ => some [])

/-- Writing to the temporary file leaves the target alone. -/
theorem keeps_append (hne : temporary ≠ target) (op : FileOp) (bytes : List UInt8) :
    Keeps (SameAt target) (append op temporary bytes) :=
  keeps_attempt (sameAt_refl target) op
    (sameAt_update hne fun files => some ((files temporary).getD [] ++ bytes))

/-- Removing the temporary file leaves the target alone. -/
theorem keeps_unlink (hne : temporary ≠ target) : Keeps (SameAt target) (unlink temporary) :=
  keeps_attempt (sameAt_refl target) FileOp.unlink (sameAt_update hne fun _ => none)

/-- Starting the cipher touches no file. -/
theorem keeps_newCipher : Keeps (SameAt target) (newCipher key nonce) := by
  rw [newCipher]
  split
  · exact keeps_pure (sameAt_refl target) _
  · exact keeps_raise (sameAt_refl target) _

/-- Programs that keep a file do so one after the other. -/
theorem keeps_bind {α β : Type} {p : Program α} {f : α → Program β} (hp : Keeps (SameAt target) p)
    (hf : ∀ a, Keeps (SameAt target) (f a)) : Keeps (SameAt target) (p >>= f) :=
  hp.bind (sameAt_trans target) hf

/-- Making the temporary file leaves the target alone. -/
theorem keeps_temporaryTarget (hne : temporary ≠ target) :
    Keeps (SameAt target) (temporaryTarget temporary) :=
  keeps_bind (keeps_touch _) fun _ => keeps_bind (keeps_truncate hne _) fun _ =>
    keeps_bind (keeps_touch _) fun _ => keeps_touch _

/-- A loop over chunks keeps what its body keeps. -/
theorem keeps_eachChunk {β : Type} {op : ℕ → FileOp} {body : ℕ → List UInt8 → β → Program β}
    (hbody : ∀ i chunk b, Keeps (SameAt target) (body i chunk b)) (i : ℕ) (b : β)
    (rest : List UInt8) : Keeps (SameAt target) (eachChunk op body i b rest) := by
  induction hlength : rest.length using Nat.strongRecOn generalizing i b rest with
  | ind length ih =>
  subst hlength
  rw [eachChunk]
  refine keeps_bind (keeps_touch _) fun _ => ?_
  split
  · exact keeps_pure (sameAt_refl target) b
  · next h =>
    exact keeps_bind (hbody _ _ _) fun b' => ih _ (length_drop_chunk h) (i + 1) b' _ rfl

/-- The whole encryption writes to the temporary file only, faults included. -/
theorem keeps_encryptTemporary (hne : temporary ≠ target) :
    Keeps (SameAt target) (encryptTemporary gcm source temporary ctx) := by
  refine keeps_bind (keeps_openFile _) fun content => keeps_bind (keeps_truncate hne _) fun _ =>
    keeps_bind (keeps_append hne _ _) fun _ => keeps_bind (keeps_append hne _ _) fun _ =>
    keeps_bind (keeps_eachChunk ?_ _ _ _) fun state => keeps_bind (keeps_append hne _ _) fun _ =>
    keeps_bind (keeps_append hne _ _) fun _ => keeps_bind (keeps_touch _) fun _ =>
    keeps_bind (keeps_touch _) fun _ => keeps_bind (keeps_touch _) fun _ =>
      keeps_pure (sameAt_refl target) _
  intro i chunk state
  exact keeps_bind (keeps_append hne _ _) fun _ => keeps_pure (sameAt_refl target) _

/-- A digest changes no file. -/
theorem keeps_sha256File : Keeps (SameAt target) (sha256File sha256 path) :=
  keeps_bind (keeps_openFile _) fun _ =>
    keeps_bind (keeps_eachChunk (fun _ _ _ => keeps_pure (sameAt_refl target) _) _ _ _) fun _ =>
      keeps_pure (sameAt_refl target) _

/-- Each decrypted chunk goes to the temporary file. -/
theorem keeps_decryptChunks (hne : temporary ≠ target) (i remaining : ℕ) (ctx : GcmContext)
    (rest : List UInt8) :
    Keeps (SameAt target) (decryptChunks gcm temporary i ctx remaining rest) := by
  induction remaining using Nat.strongRecOn generalizing i ctx rest with
  | ind remaining ih =>
  rw [decryptChunks]
  split
  · exact keeps_pure (sameAt_refl target) ctx
  · refine keeps_bind (keeps_touch _) fun _ => ?_
    split
    · exact keeps_raise (sameAt_refl target) _
    · next hremaining hchunk =>
      have hlength := List.length_pos_iff.mpr hchunk
      exact keeps_bind (keeps_append hne _ _) fun _ => ih _ (by omega) _ _ _

/-- The whole decryption writes to the temporary file only, faults included. -/
theorem keeps_decryptTemporary (hne : temporary ≠ target) (tag : List UInt8) (n : ℕ) :
    Keeps (SameAt target) (decryptTemporary gcm source temporary ctx tag n) := by
  refine keeps_bind (keeps_openFile _) fun content => keeps_bind (keeps_truncate hne _) fun _ =>
    keeps_bind (keeps_touch _) fun _ => keeps_bind (keeps_decryptChunks hne _ _ _ _) fun ctx' => ?_
  split
  · exact keeps_raise (sameAt_refl target) _
  · exact keeps_bind (keeps_append hne _ _) fun _ => keeps_bind (keeps_touch _) fun _ =>
      keeps_bind (keeps_touch _) fun _ => keeps_touch _

/-- A replacement that fails has not touched the target. -/
theorem keepsOnError_replaceTarget {α : Type} (hne : temporary ≠ target) {write : Program α}
    (h : Keeps (SameAt target) write) :
    KeepsOnError (SameAt target) (replaceTarget temporary target write) :=
  (KeepsOnError.bind (sameAt_trans target) h fun result =>
    keepsOnError_last (sameAt_refl target) _ _ result).onError (sameAt_trans target)
      (keeps_unlink hne)

/-- An encryption that fails anywhere before the replacement keeps the old target. -/
theorem keepsOnError_encryptReplacing (hne : temporary ≠ target) :
    KeepsOnError (SameAt target) (encryptReplacing gcm source target temporary key nonce) :=
  .bind (sameAt_trans target) keeps_newCipher fun _ =>
    .bind (sameAt_trans target) (keeps_temporaryTarget hne) fun _ =>
      keepsOnError_replaceTarget hne (keeps_encryptTemporary hne)

/-- A decryption that fails leaves the target as it was. -/
theorem keepsOnError_decryptFile (hne : temporary ≠ target) :
    KeepsOnError (SameAt target) (decryptFile gcm source target temporary key) := by
  have hraise : ∀ e : BackupError, KeepsOnError (SameAt target) (raise e : Program Unit) :=
    fun e => (keeps_raise (sameAt_refl target) e).keepsOnError
  refine .bind (sameAt_trans target) (keeps_openFile _) fun sized => ?_
  split
  · exact hraise _
  · refine .bind (sameAt_trans target) (keeps_openFile _) fun content =>
      .bind (sameAt_trans target) (keeps_touch _) fun _ => ?_
    split
    · exact hraise _
    · exact .bind (sameAt_trans target) (keeps_touch _) fun _ =>
        .bind (sameAt_trans target) (keeps_touch _) fun _ =>
          .bind (sameAt_trans target) (keeps_touch _) fun _ =>
            .bind (sameAt_trans target) keeps_newCipher fun _ =>
              .bind (sameAt_trans target) (keeps_temporaryTarget hne) fun _ =>
                keepsOnError_replaceTarget hne (keeps_decryptTemporary hne _ _)

end Atomicity

section Decryption

/-- The operations of the loop of decryption. -/
def decryptChunkOps (i remaining : ℕ) : List FileOp :=
  if _h : remaining = 0 then []
  else [.read i, .writeChunk i] ++ decryptChunkOps (i + 1) (remaining - min chunkBytes remaining)
termination_by remaining
decreasing_by
  have hchunk : 0 < chunkBytes := by decide
  omega

/-- The loop of decryption stops before what is behind the ciphertext. -/
theorem performs_decryptChunks (gcm : AesGcm) (w : World FileOp BackupError Files)
    (temporary : String) (i : ℕ) (ctx : GcmContext) (ciphertext tail written : List UInt8) :
    Performs (decryptChunks gcm temporary i ctx ciphertext.length (ciphertext ++ tail))
      (put w temporary (some written)) (decryptChunkOps i ciphertext.length)
      { ctx with ciphertext := ctx.ciphertext ++ ciphertext }
      (put w temporary (some (written ++ ctx.next gcm ciphertext))) := by
  induction hlength : ciphertext.length using Nat.strongRecOn
    generalizing i ctx ciphertext written with
  | ind length ih =>
  subst hlength
  rw [decryptChunks, decryptChunkOps]
  by_cases h : ciphertext.length = 0
  · cases List.length_eq_zero_iff.mp h
    have hnext : ctx.next gcm [] = [] := rfl
    rw [dif_pos h, dif_pos h, hnext, List.append_nil, List.append_nil]
    exact performs_pure
  · rw [dif_neg h, dif_neg h]
    obtain ⟨m, hm⟩ : ∃ m, m = min chunkBytes ciphertext.length := ⟨_, rfl⟩
    have hpos : 0 < chunkBytes := by decide
    have htake : (ciphertext ++ tail).take (min chunkBytes ciphertext.length) =
        ciphertext.take m := by
      rw [← hm, List.take_append_of_le_length (by omega)]
    have hchunk : (ciphertext.take m).length = m := by
      rw [List.length_take]
      omega
    have hne : ciphertext.take m ≠ [] := List.length_pos_iff.mp (by omega)
    have hdrop : (ciphertext ++ tail).drop m = ciphertext.drop m ++ tail := by
      rw [List.drop_append_of_le_length (by omega)]
    have hleft : (ciphertext.drop m).length = ciphertext.length - m := List.length_drop
    rw [htake, ← hm]
    refine (performs_touch _).bind ?_
    rw [dif_neg hne]
    have hrest := ih (ciphertext.length - m) (by omega) (i + 1)
      (ctx.decryptUpdate gcm (ciphertext.take m)).2 (ciphertext.drop m)
      (written ++ ctx.next gcm (ciphertext.take m)) hleft
    have hnext : ctx.next gcm (ciphertext.take m) ++
        (ctx.decryptUpdate gcm (ciphertext.take m)).2.next gcm (ciphertext.drop m) =
          ctx.next gcm ciphertext := by
      rw [next_append, List.take_append_drop]
      · rfl
      · rfl
      · simp [GcmContext.decryptUpdate]
    have hfinal : (ctx.decryptUpdate gcm (ciphertext.take m)).2.ciphertext ++ ciphertext.drop m =
        ctx.ciphertext ++ ciphertext := by
      rw [GcmContext.decryptUpdate, List.append_assoc, List.take_append_drop]
    rw [hfinal, List.append_assoc, hnext] at hrest
    simp only [hchunk, hdrop]
    exact (performs_append _ _ _).bind hrest

/-- A started cipher has the given key and nonce, and no file was touched. -/
theorem newCipher_eq_ok {c : GcmContext} {u : World FileOp BackupError Files}
    (h : (newCipher key nonce).run w = (.ok c, u)) : c = ⟨key, nonce, []⟩ ∧ u = w := by
  rw [newCipher] at h
  split at h
  · cases h
    exact ⟨rfl, rfl⟩
  · cases h

/-- A file that was opened is there. -/
theorem openFile_eq_ok {op : FileOp} {content : List UInt8} {u : World FileOp BackupError Files}
    (h : (openFile op path).run w = (.ok content, u)) : w.state path = some content ∧ u = w := by
  cases hfile : w.state path with
  | none =>
    rw [openFile, attempt, run_invoke] at h
    cases hop : w.faults op with
    | some e =>
      rw [hop] at h
      cases h
    | none =>
      simp only [hop, hfile] at h
      cases h
  | some content' =>
    obtain ⟨-, rfl, rfl⟩ := (performs_openFile op hfile).of_ok h
    exact ⟨rfl, rfl⟩

/-- A replacement that returned has written what replaces the target. -/
theorem replaceTarget_eq_ok {α : Type} {write : Program α} {a : α}
    {u : World FileOp BackupError Files}
    (h : (replaceTarget temporary target write).run w = (.ok a, u)) :
    ∃ v, write.run w = (.ok a, v) := by
  rw [replaceTarget, run_onError] at h
  split at h
  · next hrun =>
    obtain ⟨a', v, hwrite, hrest⟩ := run_bind_ok.mp hrun
    obtain ⟨_, v', -, hpure⟩ := run_bind_ok.mp hrest
    cases h
    cases hpure
    exact ⟨v, hwrite⟩
  · obtain ⟨_, _, -, hraise⟩ := run_bind_ok.mp h
    cases hraise

/-- The ciphertext between the header and the tag is decrypted if the tag is its own. -/
theorem performs_decryptTemporary {ciphertext : List UInt8} (hnonce : nonce.length = nonceBytes)
    {tag : List UInt8} (hsource : w.state source =
      some (backupMagic ++ nonce ++ (ciphertext ++ tag)))
    (htag : gcm.tag key nonce ciphertext = tag) :
    Performs (decryptTemporary gcm source temporary ⟨key, nonce, []⟩ tag ciphertext.length) w
      ([FileOp.openSource, .openTemporary, .seek] ++ decryptChunkOps 0 ciphertext.length ++
        [FileOp.writeFinal, .flush, .sync, .close]) ()
      (put w temporary (some (gcm.crypt key nonce 0 ciphertext))) := by
  have hdrop : (backupMagic ++ nonce ++ (ciphertext ++ tag)).drop
      (backupMagic.length + nonceBytes) = ciphertext ++ tag := by
    rw [← hnonce, ← List.length_append, List.drop_left]
  have hloop := performs_decryptChunks gcm w temporary 0 ⟨key, nonce, []⟩ ciphertext tag []
  rw [← hdrop] at hloop
  have htail : Performs (if (GcmContext.mk key nonce ([] ++ ciphertext)).tag gcm ≠ tag then
      raise (.encryption "encrypted backup authentication failed")
    else do
      append .writeFinal temporary []
      touch .flush
      touch .sync
      touch .close)
      (put w temporary (some ([] ++ gcm.crypt key nonce 0 ciphertext)))
      [FileOp.writeFinal, .flush, .sync, .close] ()
      (put w temporary (some (gcm.crypt key nonce 0 ciphertext))) := by
    have hown : (GcmContext.mk key nonce ([] ++ ciphertext)).tag gcm = tag := htag
    have hlast : Performs (append .writeFinal temporary []) (put w temporary
        (some ([] ++ gcm.crypt key nonce 0 ciphertext))) [FileOp.writeFinal] () _ :=
      performs_append _ _ _
    rw [List.append_nil] at hlast
    rw [if_neg (not_not.mpr hown)]
    exact hlast.bind ((performs_touch _).bind ((performs_touch _).bind (performs_touch _)))
  rw [List.append_assoc]
  exact (performs_openFile _ hsource).bind ((performs_truncate _).bind ((performs_touch _).bind
    (hloop.bind htail)))

/-- A ciphertext that was decrypted has its own tag. -/
theorem tag_of_decryptTemporary {ciphertext tag : List UInt8} (hnonce : nonce.length = nonceBytes)
    (hsource : w.state source = some (backupMagic ++ nonce ++ (ciphertext ++ tag)))
    {u : World FileOp BackupError Files} (h : (decryptTemporary gcm source temporary
      ⟨key, nonce, []⟩ tag ciphertext.length).run w = (.ok (), u)) :
    gcm.tag key nonce ciphertext = tag := by
  obtain ⟨content, w₁, hopen, hopened⟩ := run_bind_ok.mp h
  obtain ⟨hsame, rfl⟩ := openFile_eq_ok hopen
  cases hsource.symm.trans hsame
  obtain ⟨_, w₂, htruncate, htruncated⟩ := run_bind_ok.mp hopened
  obtain ⟨-, -, rfl⟩ := (performs_truncate _).of_ok htruncate
  obtain ⟨_, w₃, hseek, hsought⟩ := run_bind_ok.mp htruncated
  obtain ⟨-, -, rfl⟩ := (performs_touch _).of_ok hseek
  have hdrop : (backupMagic ++ nonce ++ (ciphertext ++ tag)).drop
      (backupMagic.length + nonceBytes) = ciphertext ++ tag := by
    rw [← hnonce, ← List.length_append, List.drop_left]
  rw [hdrop] at hsought
  obtain ⟨ctx, w₄, hloop, hlast⟩ := run_bind_ok.mp hsought
  obtain ⟨-, rfl, rfl⟩ := (performs_decryptChunks gcm w₁ temporary 0 ⟨key, nonce, []⟩ ciphertext tag
    []).of_ok hloop
  split at hlast
  · cases hlast
  · next htag => exact not_not.mp htag

/-- The parts of a content that is long enough. -/
theorem exists_parts {content : List UInt8}
    (hlength : minimumBytes ≤ content.length)
    (hmagic : content.take backupMagic.length = backupMagic) :
    ∃ nonce ciphertext tag, nonce.length = nonceBytes ∧ tag.length = tagBytes ∧
      content = backupMagic ++ nonce ++ (ciphertext ++ tag) := by
  obtain ⟨rest, hrest⟩ : ∃ rest, rest = content.drop backupMagic.length := ⟨_, rfl⟩
  have hcontent : content = backupMagic ++ rest := by
    rw [hrest]
    conv_lhs => rw [← List.take_append_drop backupMagic.length content, hmagic]
  have hlong : nonceBytes + tagBytes ≤ rest.length := by
    rw [hcontent, List.length_append, minimumBytes] at hlength
    omega
  refine ⟨rest.take nonceBytes, (rest.drop nonceBytes).take (rest.length - nonceBytes - tagBytes),
    (rest.drop nonceBytes).drop (rest.length - nonceBytes - tagBytes), ?_, ?_, ?_⟩
  · rw [List.length_take]
    omega
  · rw [List.length_drop, List.length_drop]
    omega
  · rw [List.take_append_drop, List.append_assoc, List.take_append_drop, hcontent]

/-- What the header and the end of a content say. -/
theorem header_parts (hnonce : nonce.length = nonceBytes) (ciphertext : List UInt8)
    {tag content : List UInt8} (htag : tag.length = tagBytes)
    (hcontent : content = backupMagic ++ nonce ++ (ciphertext ++ tag)) :
    content.take backupMagic.length = backupMagic ∧
      (content.drop backupMagic.length).take nonceBytes = nonce ∧
      content.drop (content.length - tagBytes) = tag ∧
      content.length - minimumBytes = ciphertext.length ∧ ¬ content.length < minimumBytes := by
  subst hcontent
  refine ⟨?_, ?_, ?_, ?_, ?_⟩
  · rw [List.append_assoc, List.take_left]
  · rw [List.append_assoc, List.drop_left, ← hnonce, List.take_left]
  · rw [← List.append_assoc, ← htag, List.length_append, Nat.add_sub_cancel, List.drop_left]
  · simp only [List.length_append, minimumBytes]
    omega
  · simp only [List.length_append, minimumBytes]
    omega

/-- The operations of decryption. -/
def decryptOps (length : ℕ) : List FileOp :=
  [FileOp.stat, .openHeader, .readMagic, .readNonce, .seekTag, .readTag, .makeDirectory,
      .makeTemporary, .closeTemporary, .changeMode, .openSource, .openTemporary, .seek] ++
    decryptChunkOps 0 length ++ [FileOp.writeFinal, .flush, .sync, .close, .replace]

/-- A content with its own tag is decrypted. -/
theorem performs_decryptFile {ciphertext content : List UInt8} (hkey : key.length = 32)
    (hnonce : nonce.length = nonceBytes)
    (hcontent : content = backupMagic ++ nonce ++ (ciphertext ++ gcm.tag key nonce ciphertext))
    (hsource : w.state source = some content) (hne : temporary ≠ source)
    (hdifferent : temporary ≠ target) :
    Performs (decryptFile gcm source target temporary key) w (decryptOps ciphertext.length) ()
      (replaced w target temporary (gcm.crypt key nonce 0 ciphertext)) := by
  obtain ⟨hmagic, hread, htag, hleft, hlong⟩ :=
    header_parts hnonce ciphertext (gcm.length_tag key nonce ciphertext) hcontent
  have hreplaced : replaced w target temporary (gcm.crypt key nonce 0 ciphertext) =
      replaced (put w temporary (some [])) target temporary (gcm.crypt key nonce 0 ciphertext) := by
    rw [replaced, replaced, put_comm hdifferent, put_put]
  have hwritten : (put w temporary (some [])).state source =
      some (backupMagic ++ nonce ++ (ciphertext ++ gcm.tag key nonce ciphertext)) :=
    (Function.update_of_ne hne.symm _ _).trans (hsource.trans (congrArg some hcontent))
  have hlast := performs_replaceTarget (performs_decryptTemporary hnonce hwritten rfl) hdifferent
  have hreplacing : Performs (decryptReplacing gcm source target temporary key content
      content.length) w ([FileOp.readNonce, .seekTag, .readTag] ++ ([] ++ ([FileOp.makeDirectory,
        .makeTemporary, .closeTemporary, .changeMode] ++
        ([FileOp.openSource, .openTemporary, .seek] ++
          decryptChunkOps 0 ciphertext.length ++ [FileOp.writeFinal, .flush, .sync, .close] ++
            [FileOp.replace])))) () (replaced (put w temporary (some [])) target temporary
              (gcm.crypt key nonce 0 ciphertext)) := by
    rw [decryptReplacing, hread, htag, hleft]
    exact (performs_touch _).bind ((performs_touch _).bind ((performs_touch _).bind
      ((performs_newCipher hkey).bind (performs_temporaryTarget.bind hlast))))
  have hops : decryptOps ciphertext.length =
      [FileOp.stat] ++ ([FileOp.openHeader] ++ ([FileOp.readMagic] ++
      ([FileOp.readNonce, .seekTag, .readTag] ++ ([] ++ ([FileOp.makeDirectory,
        .makeTemporary, .closeTemporary, .changeMode] ++
        ([FileOp.openSource, .openTemporary, .seek] ++
          decryptChunkOps 0 ciphertext.length ++ [FileOp.writeFinal, .flush, .sync, .close] ++
            [FileOp.replace])))))) := by
    simp [decryptOps]
  rw [decryptFile, hreplaced, hops]
  refine (performs_openFile _ hsource).bind ?_
  rw [if_neg hlong]
  refine (performs_openFile _ hsource).bind ((performs_touch _).bind ?_)
  rw [if_neg (not_not.mpr hmagic)]
  exact hreplacing

/-- What is decrypted has the tag of its own nonce and ciphertext. -/
theorem authentic_of_decrypted {u : World FileOp BackupError Files} (hne : temporary ≠ source)
    (h : (decryptFile gcm source target temporary key).run w = (.ok (), u)) :
    ∃ nonce ciphertext, nonce.length = nonceBytes ∧ w.state source =
      some (backupMagic ++ nonce ++ (ciphertext ++ gcm.tag key nonce ciphertext)) := by
  obtain ⟨content, w₁, hopen, hsized⟩ := run_bind_ok.mp h
  obtain ⟨hsource, rfl⟩ := openFile_eq_ok hopen
  split at hsized
  · cases hsized
  · next hlong =>
    obtain ⟨content', w₂, hheader, hopened⟩ := run_bind_ok.mp hsized
    obtain ⟨hsame, rfl⟩ := openFile_eq_ok hheader
    cases hsource.symm.trans hsame
    obtain ⟨_, w₃, htouch, hread⟩ := run_bind_ok.mp hopened
    obtain ⟨-, -, rfl⟩ := (performs_touch _).of_ok htouch
    split at hread
    · cases hread
    · next hmagic =>
      obtain ⟨nonce, ciphertext, tag, hnonce, htag, rfl⟩ :=
        exists_parts (Nat.not_lt.mp hlong) (not_not.mp hmagic)
      obtain ⟨-, hreadNonce, hreadTag, hleft, -⟩ := header_parts hnonce ciphertext htag rfl
      refine ⟨nonce, ciphertext, hnonce, ?_⟩
      rw [decryptReplacing, hreadNonce, hreadTag, hleft] at hread
      have htouches : ∀ {op : FileOp} {p : Program Unit} {w v : World FileOp BackupError Files},
          (touch op >>= fun _ => p).run w = (.ok (), v) → p.run w = (.ok (), v) := by
        intro op p w v hrun
        obtain ⟨_, w', htouch, hp⟩ := run_bind_ok.mp hrun
        obtain ⟨-, -, rfl⟩ := (performs_touch _).of_ok htouch
        exact hp
      obtain ⟨ctx, w₄, hcipher, hkeyed⟩ :=
        run_bind_ok.mp (htouches (htouches (htouches hread)))
      obtain ⟨rfl, rfl⟩ := newCipher_eq_ok hcipher
      obtain ⟨_, w₅, htemporary, hreplace⟩ := run_bind_ok.mp hkeyed
      obtain ⟨-, -, rfl⟩ := performs_temporaryTarget.of_ok htemporary
      obtain ⟨v, hwrite⟩ := replaceTarget_eq_ok hreplace
      have hwritten : (put w₄ temporary (some [])).state source =
          some (backupMagic ++ nonce ++ (ciphertext ++ tag)) :=
        (Function.update_of_ne hne.symm _ _).trans hsource
      rw [tag_of_decryptTemporary hnonce hwritten hwrite]
      exact hsource

end Decryption

section Contract

/-- The encryptions that were made: the key, the nonce and the plaintext of each. -/
abbrev Sealed := List UInt8 → List UInt8 → List UInt8 → Prop

/-- No nonce was drawn twice. -/
def FreshNonces (made : Sealed) : Prop :=
  ∀ key key' nonce plaintext plaintext', made key nonce plaintext → made key' nonce plaintext' →
    key = key'

/-- The tag of a content belongs to its ciphertext under a key only if it was made under the key. -/
def Unforged (gcm : AesGcm) (made : Sealed) (key content : List UInt8) : Prop :=
  ∀ nonce ciphertext tag, content = backupMagic ++ nonce ++ (ciphertext ++ tag) →
    nonce.length = nonceBytes → gcm.tag key nonce ciphertext = tag →
      ∃ plaintext, made key nonce plaintext ∧ ciphertext = gcm.crypt key nonce 0 plaintext

/-- The names of the files of a call: the temporary file is a new one. -/
structure Names where
  source : String
  target : String
  temporary : String
  newSource : temporary ≠ source
  newTarget : temporary ≠ target

/-- What one encryption promises, together with all decryptions. -/
structure Contract (gcm : AesGcm) (sha256 : List UInt8 → String) (made : Sealed) (names : Names)
    (key nonce : List UInt8) (w : World FileOp BackupError Files) : Prop where
  /-- An encryption of which no operation fails returns. -/
  writes : ∀ content, w.state names.source = some content → (∀ op, w.faults op = none) →
    ∃ report u, (encryptFile gcm sha256 names.source names.target names.temporary key nonce).run w =
      (.ok report, u)
  /-- What is written is decrypted to the same bytes. -/
  roundTrip : ∀ content report u, w.state names.source = some content →
    (encryptFile gcm sha256 names.source names.target names.temporary key nonce).run w =
      (.ok report, u) → ∀ (other : Names) (w' : World FileOp BackupError Files),
        w'.state other.source = u.state names.target → (∀ op, w'.faults op = none) →
          ∃ v, (decryptFile gcm other.source other.target other.temporary key).run w' =
            (.ok (), v) ∧ v.state other.target = some content
  /-- What was not written under the key is not decrypted under it. -/
  rejects : ∀ (other : Names) (w' : World FileOp BackupError Files) key' content,
    w'.state other.source = some content → Unforged gcm made key' content →
      (∀ nonce plaintext, made key' nonce plaintext → content ≠ artifact gcm key' nonce plaintext) →
        ∃ e v, (decryptFile gcm other.source other.target other.temporary key').run w' =
          (.error e, v)
  /-- What was written under a key is not decrypted under another. -/
  rejectsKey : ∀ (other : Names) (w' : World FileOp BackupError Files) key₁ key₂ nonce' plaintext,
    made key₁ nonce' plaintext → nonce'.length = nonceBytes → key₁ ≠ key₂ → FreshNonces made →
      w'.state other.source = some (artifact gcm key₁ nonce' plaintext) →
        Unforged gcm made key₂ (artifact gcm key₁ nonce' plaintext) →
          ∃ e v, (decryptFile gcm other.source other.target other.temporary key₂).run w' =
            (.error e, v)
  /-- A decryption that fails leaves the target as it was. -/
  decryptKeeps : ∀ (other : Names) (w' : World FileOp BackupError Files) key' e v,
    (decryptFile gcm other.source other.target other.temporary key').run w' = (.error e, v) →
      v.state other.target = w'.state other.target
  /-- An encryption that fails leaves a target that was there as it was. -/
  encryptKeeps : ∀ old e u, w.state names.target = some old →
    (encryptFile gcm sha256 names.source names.target names.temporary key nonce).run w =
      (.error e, u) → u.state names.target = some old

variable {made : Sealed} {names : Names}

/-- After the replacement the target holds the new content. -/
theorem replaced_target {content : List UInt8} (hdifferent : temporary ≠ target) :
    (replaced w target temporary content).state target = some content :=
  (Function.update_of_ne hdifferent.symm _ _).trans (put_state_self _)

/-- A world without faults is sound for every list of operations. -/
theorem sound_of_none {ops : List FileOp} (h : ∀ op, w.faults op = none) : w.Sound ops :=
  fun op _ => h op

/-- An artifact is the magic, the nonce, the ciphertext and its tag, in this order. -/
theorem artifact_eq (plaintext : List UInt8) : artifact gcm key nonce plaintext =
    backupMagic ++ nonce ++ (gcm.crypt key nonce 0 plaintext ++
      gcm.tag key nonce (gcm.crypt key nonce 0 plaintext)) := List.append_assoc ..

/-- A content is decrypted only if it is what was written under the key. -/
theorem made_of_decrypted {content : List UInt8} {w' v : World FileOp BackupError Files}
    (hcontent : w'.state names.source = some content) (hunforged : Unforged gcm made key content)
    (h : (decryptFile gcm names.source names.target names.temporary key).run w' = (.ok (), v)) :
    ∃ nonce plaintext, nonce.length = nonceBytes ∧ made key nonce plaintext ∧
      content = artifact gcm key nonce plaintext := by
  obtain ⟨nonce, ciphertext, hnonce, hsource⟩ := authentic_of_decrypted names.newSource h
  cases hcontent.symm.trans hsource
  obtain ⟨plaintext, hmade, rfl⟩ := hunforged nonce ciphertext _ rfl hnonce rfl
  exact ⟨nonce, plaintext, hnonce, hmade, (artifact_eq plaintext).symm⟩

/-- The nonce of an artifact is read from it. -/
theorem nonce_of_artifact {key' nonce' plaintext plaintext' : List UInt8}
    (hnonce : nonce.length = nonceBytes) (hnonce' : nonce'.length = nonceBytes)
    (h : artifact gcm key nonce plaintext = artifact gcm key' nonce' plaintext') :
    nonce = nonce' := by
  rw [artifact_eq, artifact_eq, List.append_assoc, List.append_assoc] at h
  exact (List.append_inj (List.append_cancel_left h) (hnonce.trans hnonce'.symm)).1

/-- A run ends with a result or an exception. -/
theorem error_of_not_ok {p : Program Unit} (h : ∀ v, p.run w ≠ (.ok (), v)) :
    ∃ e v, p.run w = (.error e, v) := by
  rcases hrun : p.run w with ⟨r, v⟩
  cases r with
  | ok _ => exact absurd hrun (h v)
  | error e => exact ⟨e, v, rfl⟩

/-- A whole encryption, with the digest of its report. -/
theorem performs_encryptFile {content : List UInt8} (hkey : key.length = 32)
    (hsource : w.state names.source = some content) :
    Performs (encryptFile gcm sha256 names.source names.target names.temporary key nonce) w
      (encryptOps content ++ (digestOps (artifact gcm key nonce content) ++ []))
      ⟨"AES-256-GCM", keyFingerprint sha256 key, content.length,
        sha256 (artifact gcm key nonce content)⟩
      (replaced w names.target names.temporary (artifact gcm key nonce content)) :=
  (performs_encryptReplacing hkey hsource names.newSource names.newTarget).bind
    ((performs_sha256File (replaced_target names.newTarget)).bind performs_pure)

/-- The artifact of an encryption is decrypted without a fault. -/
theorem decrypted_of_artifact {content : List UInt8} (hkey : key.length = 32)
    (hnonce : nonce.length = nonceBytes)
    (hsource : w.state names.source = some (artifact gcm key nonce content))
    (hfaults : ∀ op, w.faults op = none) :
    ∃ v, (decryptFile gcm names.source names.target names.temporary key).run w = (.ok (), v) ∧
      v.state names.target = some content := by
  have hrun := (performs_decryptFile hkey hnonce (artifact_eq content) hsource names.newSource
    names.newTarget).returns (sound_of_none hfaults)
  refine ⟨_, hrun, ?_⟩
  rw [replaced_target names.newTarget, AesGcm.crypt_crypt]

/-- An encryption fails before it replaces the target, or in its digest. -/
theorem encryptFile_error {e : BackupError} {u : World FileOp BackupError Files}
    (h : (encryptFile gcm sha256 names.source names.target names.temporary key nonce).run w =
      (.error e, u)) :
    u.state names.target = w.state names.target ∨ ∃ n v, (encryptReplacing gcm names.source
      names.target names.temporary key nonce).run w = (.ok n, v) ∧
        (sha256File sha256 names.target).run v = (.error e, u) := by
  obtain hbefore | ⟨n, v, hreplaced, hdigest⟩ := run_bind_error.mp h
  · exact .inl (keepsOnError_encryptReplacing names.newTarget w e u hbefore)
  · obtain hraised | ⟨digest, v', -, hpure⟩ := run_bind_error.mp hdigest
    · exact .inr ⟨n, v, hreplaced, hraised⟩
    · cases hpure

/-- An encryption returned up to its report only if its source is there. -/
theorem source_of_encrypted {n : ℕ} {v : World FileOp BackupError Files}
    (h : (encryptReplacing gcm names.source names.target names.temporary key nonce).run w =
      (.ok n, v)) : ∃ content, w.state names.source = some content := by
  obtain ⟨ctx, w₁, hcipher, hkeyed⟩ := run_bind_ok.mp h
  obtain ⟨rfl, rfl⟩ := newCipher_eq_ok hcipher
  obtain ⟨_, w₂, htemporary, hreplace⟩ := run_bind_ok.mp hkeyed
  obtain ⟨-, -, rfl⟩ := performs_temporaryTarget.of_ok htemporary
  obtain ⟨u, hwrite⟩ := replaceTarget_eq_ok hreplace
  obtain ⟨content, w₃, hopen, -⟩ := run_bind_ok.mp hwrite
  exact ⟨content, (Function.update_of_ne names.newSource.symm _ _).symm.trans
    (openFile_eq_ok hopen).1⟩

/-- The target survives a failure exactly if the digest of a new artifact can be read. -/
theorem encryptKeeps_iff (hkey : key.length = 32) :
    (∀ old e u, w.state names.target = some old →
      (encryptFile gcm sha256 names.source names.target names.temporary key nonce).run w =
        (.error e, u) → u.state names.target = some old) ↔
      ∀ old content, w.state names.target = some old → w.state names.source = some content →
        w.Sound (encryptOps content) → old ≠ artifact gcm key nonce content →
          w.Sound (digestOps (artifact gcm key nonce content)) := by
  constructor
  · intro hkeeps old content hold hsource hsound hne
    by_contra hdigest
    obtain ⟨v, hv⟩ : ∃ v, v = replaced w names.target names.temporary
      (artifact gcm key nonce content) := ⟨_, rfl⟩
    have hreplaced : (encryptReplacing gcm names.source names.target names.temporary key nonce).run
        w = (.ok content.length, v) :=
      hv ▸ (performs_encryptReplacing hkey hsource names.newSource names.newTarget).returns hsound
    have htarget : v.state names.target = some (artifact gcm key nonce content) :=
      hv ▸ replaced_target names.newTarget
    have hfaults : ¬ v.Sound (digestOps (artifact gcm key nonce content)) := by
      rw [hv]
      exact hdigest
    obtain ⟨e, u, hraised⟩ := (performs_sha256File htarget).raises hfaults
    have hkept : u.state names.target = v.state names.target := by
      have h : SameAt names.target v.state ((sha256File sha256 names.target).run v).2.state :=
        keeps_sha256File v
      rwa [hraised] at h
    have hold' := hkeeps old e u hold
      (run_bind_error.mpr (.inr ⟨_, v, hreplaced, run_bind_error.mpr (.inl hraised)⟩))
    rw [hkept, htarget, Option.some.injEq] at hold'
    exact hne hold'.symm
  · intro hdigest old e u hold h
    obtain hsame | ⟨n, v, hreplaced, hraised⟩ := encryptFile_error h
    · exact hsame.trans hold
    · obtain ⟨content, hsource⟩ := source_of_encrypted hreplaced
      obtain ⟨hsound, -, hv⟩ := (performs_encryptReplacing hkey hsource names.newSource
        names.newTarget).of_ok hreplaced
      have htarget : v.state names.target = some (artifact gcm key nonce content) :=
        hv ▸ replaced_target names.newTarget
      by_cases hne : old = artifact gcm key nonce content
      · have hkept : SameAt names.target v.state ((sha256File sha256 names.target).run v).2.state :=
          keeps_sha256File v
        rw [hraised] at hkept
        exact Eq.trans hkept (htarget.trans (congrArg some hne.symm))
      · have hsoundDigest : v.Sound (digestOps (artifact gcm key nonce content)) := by
          rw [hv]
          exact hdigest old content hold hsource hsound hne
        cases hraised.symm.trans ((performs_sha256File htarget).returns hsoundDigest)

/-- What one encryption and all decryptions promise holds exactly if a digest that is read after a
target was replaced does not fail. -/
theorem contract_iff (made : Sealed) (sha256 : List UInt8 → String) (gcm : AesGcm)
    (names : Names) (w : World FileOp BackupError Files) (hkey : key.length = 32)
    (hnonce : nonce.length = nonceBytes) :
    Contract gcm sha256 made names key nonce w ↔
      ∀ old content, w.state names.target = some old → w.state names.source = some content →
        w.Sound (encryptOps content) → old ≠ artifact gcm key nonce content →
          w.Sound (digestOps (artifact gcm key nonce content)) := by
  rw [← encryptKeeps_iff hkey]
  constructor
  · exact fun h => h.encryptKeeps
  · intro hkeeps
    refine ⟨?_, ?_, ?_, ?_, ?_, hkeeps⟩
    · intro content hsource hfaults
      exact ⟨_, _, (performs_encryptFile hkey hsource).returns (sound_of_none hfaults)⟩
    · intro content report u hsource h other w' hartifact hfaults
      obtain ⟨-, -, rfl⟩ := (performs_encryptFile hkey hsource).of_ok h
      rw [replaced_target names.newTarget] at hartifact
      exact decrypted_of_artifact hkey hnonce hartifact hfaults
    · intro other w' key' content hcontent hunforged hnot
      apply error_of_not_ok
      intro v h
      obtain ⟨nonce', plaintext, -, hmade, heq⟩ := made_of_decrypted hcontent hunforged h
      exact hnot nonce' plaintext hmade heq
    · intro other w' key₁ key₂ nonce' plaintext hmade hnonce' hne hfresh hcontent hunforged
      apply error_of_not_ok
      intro v h
      obtain ⟨nonce₂, plaintext₂, hnonce₂, hmade₂, heq⟩ := made_of_decrypted hcontent hunforged h
      cases nonce_of_artifact hnonce' hnonce₂ heq
      exact hne (hfresh _ _ _ _ _ hmade hmade₂)
    · intro other w' key' e v h
      exact keepsOnError_decryptFile other.newTarget w' e v h

/-- A cipher whose key stream is made of the key and the nonce, and whose tag is a sum. -/
def sumCipher : AesGcm where
  keystream key nonce i := key.getD (i % 32) 0 + nonce.getD (i % 12) 0 + UInt8.ofNat i
  tag key nonce ciphertext := List.replicate tagBytes ((key ++ nonce ++ ciphertext).foldl (· + ·) 0)
  length_tag _ _ _ := List.length_replicate

/-- A backup of three bytes beside an older artifact. -/
def backupFiles : Files := fun path =>
  if path = "backup.dump" then some [1, 2, 3] else if path = "backup.enc" then some [9] else none

/-- The temporary name of the example differs from its source's. -/
theorem temporary_ne_dump : ".backup.enc.tmp" ≠ "backup.dump" := by decide

/-- The temporary name of the example differs from its target's. -/
theorem temporary_ne_enc : ".backup.enc.tmp" ≠ "backup.enc" := by decide

def backupNames : Names :=
  ⟨"backup.dump", "backup.enc", ".backup.enc.tmp", temporary_ne_dump, temporary_ne_enc⟩

def zeroKey : List UInt8 := List.replicate 32 0

def zeroNonce : List UInt8 := List.replicate nonceBytes 0

/-- One encryption was made. -/
def madeOnce : Sealed := fun key nonce plaintext =>
  key = zeroKey ∧ nonce = zeroNonce ∧ plaintext = [1, 2, 3]

/-- No operation fails. -/
def readable : World FileOp BackupError Files := ⟨fun _ => none, backupFiles⟩

/-- For the checksum cipher the contract holds unless an earlier artifact equals the new one. -/
theorem contract_iff_sumCipher :
    Contract sumCipher (fun _ => "digest") madeOnce backupNames zeroKey zeroNonce readable ↔
      ∀ old content, readable.state "backup.enc" = some old →
        readable.state "backup.dump" = some content → readable.Sound (encryptOps content) →
          old ≠ artifact sumCipher zeroKey zeroNonce content →
            readable.Sound (digestOps (artifact sumCipher zeroKey zeroNonce content)) :=
  contract_iff madeOnce (fun _ => "digest") sumCipher backupNames readable (by decide) (by decide)

/-- Only the replaced target cannot be opened. -/
def unreadable : World FileOp BackupError Files where
  faults op := if op = .openTarget then some (.os "Too many open files") else none
  state := backupFiles

/-- The older artifact is gone though the encryption failed. -/
theorem contract_broken :
    ¬ Contract sumCipher (fun _ => "digest") madeOnce backupNames zeroKey zeroNonce unreadable := by
  intro h
  have hkey : zeroKey.length = 32 := by decide
  have hsound : unreadable.Sound (encryptOps [1, 2, 3]) := by
    intro op hop
    have hne : op ≠ .openTarget := by
      rintro rfl
      simp only [encryptOps, List.mem_append, List.mem_cons, List.not_mem_nil, reduceCtorEq,
        or_false, false_or] at hop
      obtain ⟨j, hread | hwrite⟩ := mem_chunkOps hop
      · cases hread
      · simp at hwrite
    exact if_neg hne
  have hdifferent : [9] ≠ artifact sumCipher zeroKey zeroNonce [1, 2, 3] := by decide +kernel
  have hdigest := (encryptKeeps_iff hkey).mp h.encryptKeeps [9] [1, 2, 3] rfl rfl hsound hdifferent
    .openTarget (by simp [digestOps])
  cases hdigest

end Contract

end BackupEncryption

end MemoryPlane
