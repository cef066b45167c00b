import MemoryPlane.Services.ApiKeys

/-!
# Revocations in every interleaving

Registrations, touches and revocations of one fingerprint, whose calls interleave. A registration
writes back the revocation that it read, so a revocation stored in between is lost; in memory, two
registrations that find no record store two, of which lookup returns the first.
-/

namespace MemoryPlane

open ApiKeyRegistryService

/-- One operation of a client. -/
inductive ApiKeyCall where
  | ensureConfiguredKey (name : String) (scopes : List String) (id : UUID) (createdAt : DateTime)
  | touch (usedAt : DateTime)
  | revoke (keyId : UUID) (revokedAt : DateTime) (reason : String)

section Properties

variable {σ : Type} (repository : ApiKeyRepository σ) (rows : σ → List ApiKeyRecord)
  (replaces : UUID → UUID → Bool) (lower : String → String) (t : UUID) (f : String)

/-- The program of an operation on a fingerprint of a tenant. -/
def ApiKeyCall.program : ApiKeyCall → Proc σ Exn (Option ApiKeyRecord)
  | .ensureConfiguredKey name scopes id createdAt =>
    ApiKeyRegistryService.ensureConfiguredKey repository lower t name f scopes id createdAt
  | .touch usedAt => ApiKeyRegistryService.touch repository t f usedAt
  | .revoke keyId revokedAt reason =>
      ApiKeyRegistryService.revoke repository t keyId revokedAt reason

/-- Once a revocation is stored, every later lookup returns a revoked record. -/
def RevocationPermanent {ι : Type} [DecidableEq ι]
    (c : Pool.Config σ Exn (Option ApiKeyRecord) ι) (schedule : List ι) : Prop :=
  ∀ pre mid post, schedule = pre ++ mid ++ post →
    (∃ r ∈ rows (Pool.exec c pre).1, r.Matches t f ∧ r.revokedAt.isSome) →
    ∃ r, repository.getByFingerprint t f (Pool.exec c (pre ++ mid)).1 = some r ∧
      r.revokedAt.isSome

/-- The next call stores a registration that read no revocation in the place of the record that
lookup finds revoked. -/
def RevertsRevocation (s : σ) (p : Proc σ Exn (Option ApiKeyRecord)) : Prop :=
  ∃ record head, p = saveKey repository record ∧ record.Matches t f ∧ record.revokedAt = none ∧
    repository.getByFingerprint t f s = some head ∧ head.revokedAt.isSome ∧
    replaces record.id head.id

/-- The next call revokes a stored record while lookup finds another, which is not revoked. -/
def RevokesDuplicate (s : σ) (p : Proc σ Exn (Option ApiKeyRecord)) : Prop :=
  ∃ keyId revokedAt reason head, p = revoke repository t keyId revokedAt reason ∧
    repository.getByFingerprint t f s = some head ∧ head.revokedAt = none ∧ head.id ≠ keyId ∧
    ∃ r ∈ rows s, r.id = keyId

/-- The next call keeps the revocations that lookup tells. -/
def KeepsRevocation (s : σ) (p : Proc σ Exn (Option ApiKeyRecord)) : Prop :=
  ¬ RevertsRevocation repository replaces t f s p ∧ ¬ RevokesDuplicate repository rows t f s p

/-- What is left of the program of an operation. A registration that read a revocation writes the
record that lookup finds. -/
inductive Configuring (s : σ) : Proc σ Exn (Option ApiKeyRecord) → Prop
  | idle (call : ApiKeyCall) : Configuring s (call.program repository lower t f)
  | saving (record : ApiKeyRecord) (here : record.Matches t f)
      (current : record.revokedAt.isSome →
        (revocations (rows s)).head?.map Prod.fst = some record.id) :
      Configuring s (saveKey repository record)
  | done (reply : Option ApiKeyRecord) : Configuring s (.done reply)
  | raised (e : Exn) : Configuring s (.raise e)

end Properties

section Flags

variable {replaces : UUID → UUID → Bool} {flags : List (UUID × Bool)} {id : UUID} {b : Bool}

/-- Some record is revoked. -/
def SomeRevoked (flags : List (UUID × Bool)) : Prop := ∃ e ∈ flags, e.2 = true

/-- The first record is revoked. -/
def HeadRevoked (flags : List (UUID × Bool)) : Prop := ∃ e, flags.head? = some e ∧ e.2 = true

theorem HeadRevoked.some (h : HeadRevoked flags) : SomeRevoked flags := by
  obtain ⟨e, he, hrevoked⟩ := h
  exact ⟨e, List.mem_of_head? he, hrevoked⟩

theorem head_markRevoked :
    (markRevoked id flags).head? = flags.head?.map fun e => (e.1, e.2 || e.1 = id) := by
  simp [markRevoked]

/-- A write keeps the first record or writes in its place. -/
theorem head_writeRecord_cons (replaces : UUID → UUID → Bool) (id : UUID) (b : Bool)
    (e : UUID × Bool) (rest : List (UUID × Bool)) :
    (writeRecord replaces id b (e :: rest)).head? =
      some (if replaces id e.1 then (e.1, b) else e) := by
  unfold writeRecord
  by_cases hany : (e :: rest).any (fun e => replaces id e.1) = true
  · rw [if_pos hany]
    rfl
  · have hne : ¬ replaces id e.1 = true := fun h => hany (by simp [h])
    rw [if_neg hany, if_neg hne]
    rfl

theorem mem_writeRecord {e : UUID × Bool} (h : e ∈ writeRecord replaces id b flags) :
    e ∈ flags ∨ e.2 = b := by
  unfold writeRecord at h
  split at h
  · obtain ⟨e', he', rfl⟩ := List.mem_map.mp h
    split
    · exact .inr rfl
    · exact .inl he'
  · rcases List.mem_append.mp h with h | h
    · exact .inl h
    · rw [List.mem_singleton.mp h]
      exact .inr rfl

/-- A revocation of the first record, or under a first record that is revoked, is told. -/
theorem headRevoked_markRevoked
    (hkeep : ∀ e, flags.head? = some e → e.2 = false → e.1 ≠ id → ∀ x ∈ flags, x.1 ≠ id)
    (h : SomeRevoked flags → HeadRevoked flags)
    (hsome : SomeRevoked flags ∨ SomeRevoked (markRevoked id flags)) :
    HeadRevoked (markRevoked id flags) := by
  have hmarked : ∃ y ∈ flags, y.2 = true ∨ y.1 = id := by
    rcases hsome with ⟨y, hy, hold⟩ | ⟨x, hx, hrevoked⟩
    · exact ⟨y, hy, .inl hold⟩
    · obtain ⟨y, hy, rfl⟩ := List.mem_map.mp hx
      exact ⟨y, hy, by simpa using hrevoked⟩
  obtain ⟨y, hy, hrevoked⟩ := hmarked
  cases hflags : flags with
  | nil =>
    rw [hflags] at hy
    cases hy
  | cons e rest =>
    have hhead : flags.head? = some e := by rw [hflags, List.head?_cons]
    refine ⟨(e.1, e.2 || e.1 = id), by rw [head_markRevoked, List.head?_cons]; rfl, ?_⟩
    cases he : e.2 with
    | true => rfl
    | false =>
      by_cases hid : e.1 = id
      · simp [hid]
      · exfalso
        rcases hrevoked with hold | hnew
        · obtain ⟨e', he', hrevoked'⟩ := h ⟨y, hy, hold⟩
          rw [hhead, Option.some.injEq] at he'
          rw [← he', he] at hrevoked'
          cases hrevoked'
        · exact hkeep e hhead he hid y hy hnew

/-- A write that reverts no revocation is told as long as revoked records are written in place
of the first. -/
theorem headRevoked_writeRecord
    (hkeep : b = false → ∀ e, flags.head? = some e → e.2 = true → replaces id e.1 = false)
    (hcurrent : b = true → ∃ e, flags.head? = some e ∧ replaces id e.1 = true)
    (h : SomeRevoked flags → HeadRevoked flags)
    (hsome : SomeRevoked flags ∨ SomeRevoked (writeRecord replaces id b flags)) :
    HeadRevoked (writeRecord replaces id b flags) := by
  cases hb : b with
  | true =>
    obtain ⟨e, he, hreplaces⟩ := hcurrent hb
    cases hflags : flags with
    | nil =>
      rw [hflags] at he
      cases he
    | cons e' rest =>
      rw [hflags, List.head?_cons, Option.some.injEq] at he
      subst he
      exact ⟨(e'.1, true), by rw [head_writeRecord_cons, if_pos hreplaces], rfl⟩
  | false =>
    have hold : SomeRevoked flags := by
      rcases hsome with hold | ⟨x, hx, hrevoked⟩
      · exact hold
      · rcases mem_writeRecord hx with hx | hx
        · exact ⟨x, hx, hrevoked⟩
        · rw [hx, hb] at hrevoked
          cases hrevoked
    obtain ⟨e, he, hhead⟩ := h hold
    have hother := hkeep hb e he hhead
    cases hflags : flags with
    | nil =>
      rw [hflags] at he
      cases he
    | cons e' rest =>
      rw [hflags, List.head?_cons, Option.some.injEq] at he
      subst he
      exact ⟨e', by rw [head_writeRecord_cons, if_neg (by rw [hother]; exact Bool.false_ne_true)],
        hhead⟩

/-- Writes keep the identifier of the first record. -/
theorem head_id_writeRecord {x : UUID} (h : flags.head?.map Prod.fst = some x) :
    (writeRecord replaces id b flags).head?.map Prod.fst = some x := by
  cases flags with
  | nil => cases h
  | cons e rest =>
    rw [head_writeRecord_cons, Option.map_some, ← h]
    split <;> rfl

theorem head_id_markRevoked :
    (markRevoked id flags).head?.map Prod.fst = flags.head?.map Prod.fst := by
  rw [head_markRevoked, Option.map_map]
  rfl

end Flags

section Steps

variable {σ : Type} {repository : ApiKeyRepository σ} {rows : σ → List ApiKeyRecord}
  {replaces : UUID → UUID → Bool} {lower : String → String} {t : UUID} {f : String}
  {s : σ} {p : Proc σ Exn (Option ApiKeyRecord)} {act : σ → σ}
  {next : σ → Proc σ Exn (Option ApiKeyRecord)}

/-- A call that may raise leaves no further call. -/
theorem configuring_after_invoke {g : σ → Except Exn (Option ApiKeyRecord) × σ}
    (hp : Proc.invoke g = .call act next) (s s' : σ) :
    act s = (g s).2 ∧ Configuring repository rows lower t f s' (next s) := by
  obtain ⟨hact, ⟨a, -, hnext⟩ | ⟨e, -, hnext⟩⟩ := Proc.invoke_eq_call hp s
  · exact ⟨hact, by rw [hnext]; exact .done _⟩
  · exact ⟨hact, by rw [hnext]; exact .raised _⟩

/-- After the lookup of a registration its record is still to be written, or nothing. -/
theorem configuring_after_lookup (laws : ApiKeyLaws repository rows replaces t f)
    (hrows : ∀ r ∈ rows s, r.Matches t f) {name : String} {scopes : List String} {id : UUID}
    {createdAt : DateTime}
    (hp : ensureConfiguredKey repository lower t name f scopes id createdAt = .call act next) :
    act s = s ∧ Configuring repository rows lower t f s (next s) := by
  cases hp
  refine ⟨rfl, ?_⟩
  simp only [Proc.bind, laws.finds s hrows]
  cases hhead : (rows s).head? with
  | none =>
    simp only
    cases hrecord : ApiKeyRecord.create lower t name f scopes id createdAt none none "" with
    | error e => exact .raised e
    | ok record =>
      obtain ⟨ht, hf, -, hrevoked⟩ := ApiKeyRecord.create_eq_ok hrecord
      exact .saving record ⟨ht, hf⟩ fun h => by simp [hrevoked] at h
  | some existing =>
    simp only
    split
    · exact .done _
    · cases hrecord : ApiKeyRecord.create lower t name f scopes existing.id existing.createdAt
        existing.lastUsedAt existing.revokedAt existing.revokedReason with
      | error e => exact .raised e
      | ok record =>
        obtain ⟨ht, hf, hid, -⟩ := ApiKeyRecord.create_eq_ok hrecord
        refine .saving record ⟨ht, hf⟩ fun _ => ?_
        simp [revocations, hhead, hid]

/-- The calls of an operation: one that changes no revocation, a revocation, or a write. -/
theorem Configuring.calls (laws : ApiKeyLaws repository rows replaces t f)
    (h : Configuring repository rows lower t f s p) (hp : p = .call act next)
    (hrows : ∀ r ∈ rows s, r.Matches t f) :
    (∀ r ∈ rows (act s), r.Matches t f) ∧
      Configuring repository rows lower t f (act s) (next s) ∧
      (revocations (rows (act s)) = revocations (rows s) ∨
        (∃ keyId revokedAt reason, p = revoke repository t keyId revokedAt reason ∧
          revocations (rows (act s)) = markRevoked keyId (revocations (rows s))) ∨
        ∃ record, p = saveKey repository record ∧ record.Matches t f ∧
          (record.revokedAt.isSome →
            (revocations (rows s)).head?.map Prod.fst = some record.id) ∧
          revocations (rows (act s)) =
            writeRecord replaces record.id record.revokedAt.isSome (revocations (rows s))) := by
  cases h with
  | idle call =>
    cases call with
    | ensureConfiguredKey name scopes id createdAt =>
      obtain ⟨hact, hnext⟩ := configuring_after_lookup laws hrows hp
      rw [hact]
      exact ⟨hrows, hnext, .inl rfl⟩
    | touch usedAt =>
      cases hp
      obtain ⟨hrows', hflags⟩ := laws.touches s usedAt hrows
      exact ⟨hrows', .done _, .inl hflags⟩
    | revoke keyId revokedAt reason =>
      obtain ⟨hact, hnext⟩ := configuring_after_invoke hp s (act s)
      obtain ⟨hrows', hflags⟩ := laws.revokes s keyId revokedAt reason hrows
      rw [hact] at hnext ⊢
      exact ⟨hrows', hnext, .inr (.inl ⟨keyId, revokedAt, reason, rfl, hflags⟩)⟩
  | saving record here current =>
    obtain ⟨hact, hnext⟩ := configuring_after_invoke hp s (act s)
    obtain ⟨hrows', hflags⟩ := laws.saves s record here hrows
    rw [hact] at hnext ⊢
    exact ⟨hrows', hnext, .inr (.inr ⟨record, rfl, here, current, hflags⟩)⟩
  | done | raised => cases hp

/-- What a client knows of the first record survives the calls of the others. -/
theorem Configuring.stable {s' : σ}
    (hhead : ∀ x, (revocations (rows s)).head?.map Prod.fst = some x →
      (revocations (rows s')).head?.map Prod.fst = some x)
    (h : Configuring repository rows lower t f s p) :
    Configuring repository rows lower t f s' p := by
  cases h with
  | idle call => exact .idle call
  | saving record here current => exact .saving record here fun h => hhead _ (current h)
  | done reply => exact .done reply
  | raised e => exact .raised e

/-- A call keeps the first record. -/
theorem Configuring.head_kept (laws : ApiKeyLaws repository rows replaces t f)
    (h : Configuring repository rows lower t f s p) (hp : p = .call act next)
    (hrows : ∀ r ∈ rows s, r.Matches t f) (x : UUID)
    (hx : (revocations (rows s)).head?.map Prod.fst = some x) :
    (revocations (rows (act s))).head?.map Prod.fst = some x := by
  obtain ⟨-, -, hflags | ⟨_, _, _, -, hflags⟩ | ⟨_, -, -, -, hflags⟩⟩ := h.calls laws hp hrows
  · rw [hflags, hx]
  · rw [hflags, head_id_markRevoked, hx]
  · rw [hflags]
    exact head_id_writeRecord hx

/-- What lookup returns, in the flags. -/
theorem get_revoked_iff (laws : ApiKeyLaws repository rows replaces t f)
    (hrows : ∀ r ∈ rows s, r.Matches t f) :
    (∃ r, repository.getByFingerprint t f s = some r ∧ r.revokedAt.isSome) ↔
      HeadRevoked (revocations (rows s)) := by
  rw [laws.finds s hrows]
  cases rows s with
  | nil => simp [HeadRevoked, revocations]
  | cons r rest => simp [HeadRevoked, revocations]

theorem some_revoked_iff (hrows : ∀ r ∈ rows s, r.Matches t f) :
    (∃ r ∈ rows s, r.Matches t f ∧ r.revokedAt.isSome) ↔
      SomeRevoked (revocations (rows s)) := by
  constructor
  · rintro ⟨r, hr, -, hrevoked⟩
    exact ⟨_, List.mem_map.mpr ⟨r, hr, rfl⟩, hrevoked⟩
  · rintro ⟨e, he, hrevoked⟩
    obtain ⟨r, hr, rfl⟩ := List.mem_map.mp he
    exact ⟨r, hr, hrows r hr, hrevoked⟩

/-- The first record, from its flag. -/
theorem exists_head {e : UUID × Bool} (h : (revocations (rows s)).head? = some e) :
    ∃ head, (rows s).head? = some head ∧ e = (head.id, head.revokedAt.isSome) := by
  cases hrows : rows s with
  | nil =>
    rw [hrows] at h
    cases h
  | cons r rest =>
    rw [hrows] at h
    cases h
    exact ⟨r, rfl, rfl⟩

/-- A call that meets the condition leaves revocations told by lookup. -/
theorem Configuring.told (laws : ApiKeyLaws repository rows replaces t f)
    (hself : ∀ id, replaces id id = true) (h : Configuring repository rows lower t f s p)
    (hp : p = .call act next) (hrows : ∀ r ∈ rows s, r.Matches t f)
    (hkeeps : KeepsRevocation repository rows replaces t f s p)
    (htold : SomeRevoked (revocations (rows s)) → HeadRevoked (revocations (rows s))) :
    SomeRevoked (revocations (rows s)) ∨ SomeRevoked (revocations (rows (act s))) →
      HeadRevoked (revocations (rows (act s))) := by
  obtain ⟨-, -, hflags | ⟨keyId, revokedAt, reason, hrevoke, hflags⟩ |
    ⟨record, hsave, here, current, hflags⟩⟩ := h.calls laws hp hrows
  · rw [hflags, or_self]
    exact htold
  · rw [hflags]
    refine headRevoked_markRevoked ?_ htold
    intro e he hrevoked hid x hx hxid
    obtain ⟨head, hhead, rfl⟩ := exists_head he
    obtain ⟨r, hr, rfl⟩ := List.mem_map.mp hx
    refine hkeeps.2 ⟨keyId, revokedAt, reason, head, hrevoke, ?_, ?_, hid, r, hr, hxid⟩
    · rw [laws.finds s hrows, hhead]
    · simpa using hrevoked
  · rw [hflags]
    refine headRevoked_writeRecord ?_ ?_ htold
    · intro hrecord e he hrevoked
      obtain ⟨head, hhead, rfl⟩ := exists_head he
      rw [Bool.eq_false_iff]
      intro hreplaces
      refine hkeeps.1 ⟨record, head, hsave, here, by simpa using hrecord, ?_, hrevoked, hreplaces⟩
      rw [laws.finds s hrows, hhead]
    · intro hrecord
      have hid := current hrecord
      obtain ⟨e, he, hid⟩ := Option.map_eq_some_iff.mp hid
      exact ⟨e, he, by rw [hid]; exact hself _⟩

/-- A call that reverts a revocation, or revokes a record that lookup does not find, leaves a
revocation that lookup does not tell. -/
theorem untold_of_not_keeps (laws : ApiKeyLaws repository rows replaces t f)
    (hp : p = .call act next) (hrows : ∀ r ∈ rows s, r.Matches t f)
    (hreverts : ¬ KeepsRevocation repository rows replaces t f s p) :
    (SomeRevoked (revocations (rows s)) ∨ SomeRevoked (revocations (rows (act s)))) ∧
      ¬ HeadRevoked (revocations (rows (act s))) := by
  rw [KeepsRevocation, not_and_or, not_not, not_not] at hreverts
  rcases hreverts with ⟨record, head, rfl, here, hrecord, hget, hrevoked, hreplaces⟩ |
    ⟨keyId, revokedAt, reason, head, rfl, hget, hrevoked, hid, r, hr, rfl⟩
  · rw [laws.finds s hrows] at hget
    have hact : act s = (repository.save record s).2 := (Proc.invoke_eq_call hp s).1
    have hflags := (laws.saves s record here hrows).2
    refine ⟨.inl ⟨_, List.mem_map.mpr ⟨head, List.mem_of_head? hget, rfl⟩, hrevoked⟩, ?_⟩
    cases hcons : rows s with
    | nil =>
      rw [hcons] at hget
      cases hget
    | cons head' rest =>
      rw [hcons, List.head?_cons, Option.some.injEq] at hget
      subst hget
      rintro ⟨e, he, htrue⟩
      rw [hact, hflags, hcons] at he
      have hwritten := head_writeRecord_cons replaces record.id record.revokedAt.isSome
        (head'.id, head'.revokedAt.isSome) (revocations rest)
      rw [if_pos hreplaces, hrecord] at hwritten
      rw [hrecord] at he
      have heq : e = (head'.id, false) := by
        refine Option.some.inj (he.symm.trans ?_)
        exact hwritten
      rw [heq] at htrue
      cases htrue
  · rw [laws.finds s hrows] at hget
    have hact : act s = (repository.revoke t r.id revokedAt reason s).2 :=
      (Proc.invoke_eq_call hp s).1
    have hflags := (laws.revokes s r.id revokedAt reason hrows).2
    constructor
    · refine .inr ⟨(r.id, r.revokedAt.isSome || r.id = r.id), ?_, by simp⟩
      rw [hact, hflags]
      exact List.mem_map.mpr ⟨(r.id, r.revokedAt.isSome), List.mem_map.mpr ⟨r, hr, rfl⟩, rfl⟩
    · rintro ⟨e, he, htrue⟩
      rw [hact, hflags, head_markRevoked] at he
      have hhead : (revocations (rows s)).head? = some (head.id, head.revokedAt.isSome) := by
        simp [revocations, hget]
      rw [hhead, Option.map_some, Option.some.injEq] at he
      rw [← he, hrevoked] at htrue
      simp [hid] at htrue

end Steps

section Pools

variable {σ : Type} {repository : ApiKeyRepository σ} {rows : σ → List ApiKeyRecord}
  {replaces : UUID → UUID → Bool} {lower : String → String} {t : UUID} {f : String}
  {ι : Type} [DecidableEq ι] {c : Pool.Config σ Exn (Option ApiKeyRecord) ι}

/-- The registry holds the fingerprint only, and every client is at its operation. -/
def AtWork (repository : ApiKeyRepository σ) (rows : σ → List ApiKeyRecord)
    (lower : String → String) (t : UUID) (f : String)
    (c : Pool.Config σ Exn (Option ApiKeyRecord) ι) : Prop :=
  (∀ r ∈ rows c.1, r.Matches t f) ∧ ∀ j, Configuring repository rows lower t f c.1 (c.2 j)

theorem atWork_step (laws : ApiKeyLaws repository rows replaces t f)
    (h : AtWork repository rows lower t f c) (i : ι) :
    AtWork repository rows lower t f (Pool.step c i) := by
  refine Pool.step_of_guarantees (J := fun s => ∀ r ∈ rows s, r.Matches t f)
    (R := fun _ s s' => ∀ x, (revocations (rows s)).head?.map Prod.fst = some x →
      (revocations (rows s')).head?.map Prod.fst = some x)
    (Φ := fun _ s p => Configuring repository rows lower t f s p) ?_ ?_ h.1 h.2
  · intro j p s s' _ hhead hj
    exact hj.stable hhead
  · intro act next hp
    obtain ⟨hrows, hnext, -⟩ := (h.2 i).calls laws hp h.1
    exact ⟨hrows, (h.2 i).head_kept laws hp h.1, hnext⟩

theorem atWork_exec (laws : ApiKeyLaws repository rows replaces t f)
    (h : AtWork repository rows lower t f c) (schedule : List ι) :
    AtWork repository rows lower t f (Pool.exec c schedule) :=
  Pool.exec_induction (I := AtWork repository rows lower t f) (fun _ i h => atWork_step laws h i) h
    schedule

/-- A step that meets the condition leaves revocations told by lookup. -/
theorem told_step (laws : ApiKeyLaws repository rows replaces t f)
    (hself : ∀ id, replaces id id = true) (h : AtWork repository rows lower t f c)
    (htold : SomeRevoked (revocations (rows c.1)) → HeadRevoked (revocations (rows c.1))) {i : ι}
    (hkeeps : KeepsRevocation repository rows replaces t f c.1 (c.2 i)) :
    SomeRevoked (revocations (rows c.1)) ∨ SomeRevoked (revocations (rows (Pool.step c i).1)) →
      HeadRevoked (revocations (rows (Pool.step c i).1)) := by
  cases hp : c.2 i with
  | call act next =>
    rw [Pool.step_of_call hp]
    exact (h.2 i).told laws hself hp h.1 hkeeps htold
  | done | raise =>
    rw [Pool.step_of_no_call (by simp [hp]), or_self]
    exact htold

/-- A revocation that lookup tells stays told along steps that meet the condition. -/
theorem headRevoked_exec (laws : ApiKeyLaws repository rows replaces t f)
    (hself : ∀ id, replaces id id = true) (h : AtWork repository rows lower t f c)
    (hhead : HeadRevoked (revocations (rows c.1))) {schedule : List ι}
    (hkeeps : Pool.Always (KeepsRevocation repository rows replaces t f) c schedule) :
    HeadRevoked (revocations (rows (Pool.exec c schedule).1)) := by
  refine (Pool.exec_invariant (I := fun c => AtWork repository rows lower t f c ∧
    HeadRevoked (revocations (rows c.1))) ?_ ⟨h, hhead⟩ hkeeps).2
  rintro c i ⟨h, hhead⟩ hkeeps
  exact ⟨atWork_step laws h i, told_step laws hself h (fun _ => hhead) hkeeps (.inl hhead.some)⟩

/-- Every stored revocation is told by every later lookup exactly when every step keeps the
revocations that lookup tells. -/
theorem revocationPermanent_iff (laws : ApiKeyLaws repository rows replaces t f)
    (hself : ∀ id, replaces id id = true) (h : AtWork repository rows lower t f c)
    (htold : SomeRevoked (revocations (rows c.1)) → HeadRevoked (revocations (rows c.1)))
    (schedule : List ι) :
    RevocationPermanent repository rows t f c schedule ↔
      Pool.Always (KeepsRevocation repository rows replaces t f) c schedule := by
  constructor
  · intro hpermanent
    rw [Pool.always_iff_forall_prefix]
    intro pre i post he
    by_contra hreverts
    have hpre := atWork_exec laws h pre
    cases hp : (Pool.exec c pre).2 i with
    | call act next =>
      have hstep : (Pool.exec c (pre ++ [i])).1 = act (Pool.exec c pre).1 := by
        rw [Pool.exec_append, Pool.exec_cons, Pool.exec_nil, Pool.step_of_call hp]
      have hpost := (atWork_exec laws h (pre ++ [i])).1
      obtain ⟨hsome, huntold⟩ := untold_of_not_keeps laws hp hpre.1 hreverts
      rw [← hstep] at hsome huntold
      refine huntold ((get_revoked_iff laws hpost).mp ?_)
      rcases hsome with hsome | hsome
      · exact hpermanent pre [i] post (by simp [he]) ((some_revoked_iff hpre.1).mpr hsome)
      · have htold := hpermanent (pre ++ [i]) [] post (by simp [he])
          ((some_revoked_iff hpost).mpr hsome)
        rwa [List.append_nil] at htold
    | done | raise =>
      refine hreverts ⟨?_, ?_⟩
      · rintro ⟨record, head, hsave, -⟩
        rw [hp] at hsave
        cases hsave
      · rintro ⟨keyId, revokedAt, reason, head, hrevoke, -⟩
        rw [hp] at hrevoke
        cases hrevoke
  · rintro hkeeps pre mid post rfl hsome
    obtain ⟨hkeeps, -⟩ := Pool.always_append.mp hkeeps
    obtain ⟨hpre, hmid⟩ := Pool.always_append.mp hkeeps
    have hwork := atWork_exec laws h pre
    rw [some_revoked_iff hwork.1] at hsome
    rw [get_revoked_iff laws (atWork_exec laws h (pre ++ mid)).1, Pool.exec_append]
    refine headRevoked_exec laws hself hwork ?_ hmid
    refine (Pool.exec_invariant (I := fun c => AtWork repository rows lower t f c ∧
      (SomeRevoked (revocations (rows c.1)) → HeadRevoked (revocations (rows c.1)))) ?_
      ⟨h, htold⟩ hpre).2 hsome
    rintro c i ⟨h, htold⟩ hkeeps
    exact ⟨atWork_step laws h i, fun hsome => told_step laws hself h htold hkeeps (.inr hsome)⟩

end Pools

/-- An empty registry and the operations of the clients on one fingerprint. -/
def apiKeyPool {σ ι : Type} (repository : ApiKeyRepository σ) (empty : σ) (lower : String → String)
    (t : UUID) (f : String) (calls : ι → ApiKeyCall) :
    Pool.Config σ Exn (Option ApiKeyRecord) ι :=
  (empty, fun i => (calls i).program repository lower t f)

/-- For all operations on a fingerprint and all interleavings, in memory and in the database: a
stored revocation is permanent exactly when no registration that read no revocation is stored over
the revoked record, and no record is revoked while lookup finds another one that is not. -/
theorem revocation_permanent_iff {ι : Type} [DecidableEq ι] (lower : String → String) (t : UUID)
    (f : String) (calls : ι → ApiKeyCall) (schedule : List ι) :
    (RevocationPermanent inMemoryApiKeys (fun s => s.rows) t f
        (apiKeyPool inMemoryApiKeys .empty lower t f calls) schedule ↔
      Pool.Always (KeepsRevocation inMemoryApiKeys (fun s => s.rows) (fun id old => id = old) t f)
        (apiKeyPool inMemoryApiKeys .empty lower t f calls) schedule) ∧
    (RevocationPermanent postgresApiKeys (fun s => s.rows) t f
        (apiKeyPool postgresApiKeys .empty lower t f calls) schedule ↔
      Pool.Always (KeepsRevocation postgresApiKeys (fun s => s.rows) (fun _ _ => true) t f)
        (apiKeyPool postgresApiKeys .empty lower t f calls) schedule) := by
  constructor
  · refine revocationPermanent_iff inMemory_apiKeyLaws (fun id => decide_eq_true rfl)
      ⟨?_, fun j => .idle (calls j)⟩ ?_ schedule
    · simp [apiKeyPool]
    · simp [apiKeyPool, revocations, SomeRevoked]
  · refine revocationPermanent_iff postgres_apiKeyLaws (fun _ => rfl)
      ⟨?_, fun j => .idle (calls j)⟩ ?_ schedule
    · simp [apiKeyPool]
    · simp [apiKeyPool, revocations, SomeRevoked]

/-- Two registrations under different names and a revocation. -/
def rivalRegistrations (i : Fin 3) : ApiKeyCall :=
  if i.val = 0 then .ensureConfiguredKey "a" ["r"] (UUID.ofNat 7) (.ofMicros 0)
  else if i.val = 1 then .ensureConfiguredKey "b" ["r"] (UUID.ofNat 8) (.ofMicros 0)
  else .revoke (UUID.ofNat 7) (.ofMicros 1) ""

/-- The second registration reads the record, which is revoked before it is written back without
the revocation: lookup returns a record that is not revoked. -/
theorem registration_reverts_revocation :
    ¬ RevocationPermanent inMemoryApiKeys (fun s => s.rows) (UUID.ofNat 1) "f"
        (apiKeyPool inMemoryApiKeys .empty id (UUID.ofNat 1) "f" rivalRegistrations)
        [0, 0, 1, 2, 1] ∧
      ¬ RevocationPermanent postgresApiKeys (fun s => s.rows) (UUID.ofNat 1) "f"
        (apiKeyPool postgresApiKeys .empty id (UUID.ofNat 1) "f" rivalRegistrations)
        [0, 0, 1, 2, 1] := by
  constructor
  · intro h
    have hrevoked := h [0, 0, 1, 2] [1] [] rfl (by decide +kernel)
    revert hrevoked
    decide +kernel
  · intro h
    have hrevoked := h [0, 0, 1, 2] [1] [] rfl (by decide +kernel)
    revert hrevoked
    decide +kernel

end MemoryPlane
