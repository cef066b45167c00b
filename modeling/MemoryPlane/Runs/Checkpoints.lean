import MemoryPlane.Services.Checkpoints

/-!
# Checkpoints in every interleaving

Saves, updates and compactions of any clients, whose reads and swaps interleave. The revision
number of an update was computed from the head it read, while its swap compares the number that
the caller sent: revisions stay increasing exactly as long as no swap succeeds for a caller that
had guessed a later head than it read.
-/

namespace MemoryPlane

open CheckpointService InMemoryCheckpointStore

/-- One operation of a client. -/
inductive CheckpointCall where
  | save (draft : CheckpointDraft)
  | update (draft : CheckpointDraft) (expectedRevision : ℤ)
  | compact (tenantId threadId : UUID) (keepLast : ℕ) (keeps : 1 ≤ keepLast)

/-- The program of an operation. -/
def CheckpointCall.program :
    CheckpointCall → Proc InMemoryCheckpointStore StaleRevisionError CheckpointReply
  | .save draft => CheckpointService.save draft
  | .update draft expectedRevision => CheckpointService.update draft expectedRevision
  | .compact tenantId threadId keepLast _ => CheckpointService.compact tenantId threadId keepLast

/-- In every list of revisions the numbers increase strictly in storage order. -/
def InMemoryCheckpointStore.Increasing (s : InMemoryCheckpointStore) : Prop :=
  ∀ t th, (s.tenantRevisions t th).Pairwise fun a b => a.revision < b.revision

/-- What a step of a client may do to the revisions of a tenant and thread. -/
def CheckpointCall.Permits (call : CheckpointCall) (t th : UUID) (revs revs' : List Checkpoint) :
    Prop :=
  match call with
  | .save draft =>
    revs' = revs ∨ (t, th) = (draft.tenantId, draft.threadId) ∧ ∃ c, revs' = revs ++ [c]
  | .update draft expectedRevision =>
    revs' = revs ∨ (t, th) = (draft.tenantId, draft.threadId) ∧
      ∃ head c, revs.getLast? = some head ∧ (head.revision : ℤ) = expectedRevision ∧
        (c.revision : ℤ) = expectedRevision + 1 ∧ revs' = revs ++ [c]
  | .compact tenantId threadId _ _ =>
    revs' = revs ∨ (t, th) = (tenantId, threadId) ∧ revs' <:+ revs ∧
      revs'.getLast? = revs.getLast?

/-- What the step that answers an operation with a stored checkpoint did: an update stored the
revision after the one that its caller expected, right after that head. -/
def CheckpointCall.Stores (call : CheckpointCall) (c : Checkpoint)
    (s s' : InMemoryCheckpointStore) :
    Prop :=
  match call with
  | .save draft =>
    s'.tenantRevisions draft.tenantId draft.threadId =
      s.tenantRevisions draft.tenantId draft.threadId ++ [c]
  | .update draft expectedRevision =>
    (∃ head, (s.tenantRevisions draft.tenantId draft.threadId).getLast? = some head ∧
        (head.revision : ℤ) = expectedRevision) ∧
      (c.revision : ℤ) = expectedRevision + 1 ∧
      s'.tenantRevisions draft.tenantId draft.threadId =
        s.tenantRevisions draft.tenantId draft.threadId ++ [c]
  | .compact _ _ _ _ => False

/-- A step keeps revisions increasing, does to each list what its operation permits, answers with a
checkpoint that it has stored, and changes nothing when it raises. -/
structure CheckpointStepSafe (call : CheckpointCall) (s s' : InMemoryCheckpointStore)
    (p p' : Proc InMemoryCheckpointStore StaleRevisionError CheckpointReply) : Prop where
  increasing : s'.Increasing
  permitted : ∀ t th, call.Permits t th (s.tenantRevisions t th) (s'.tenantRevisions t th)
  answered : ∀ c, p' = .done (.stored c) → p ≠ .done (.stored c) → call.Stores c s s'
  refused : ∀ e, p' = .raise e → s' = s

/-- Every step of a schedule is safe. -/
def CheckpointsSafe {ι : Type} [DecidableEq ι] (calls : ι → CheckpointCall)
    (c : Pool.Config InMemoryCheckpointStore StaleRevisionError CheckpointReply ι)
    (schedule : List ι) : Prop :=
  ∀ pre i post, schedule = pre ++ i :: post →
    CheckpointStepSafe (calls i) (Pool.exec c pre).1 (Pool.exec c (pre ++ [i])).1
      ((Pool.exec c pre).2 i) ((Pool.exec c (pre ++ [i])).2 i)

/-- The next call is a swap whose caller expects another head than the one that its checkpoint was
numbered after, and the head has become the expected one. -/
def LuckyGuess (s : InMemoryCheckpointStore)
    (p : Proc InMemoryCheckpointStore StaleRevisionError CheckpointReply) : Prop :=
  ∃ (draft : CheckpointDraft) (read : ℕ) (expectedRevision : ℤ),
    p = swap (draft.after read) expectedRevision ∧ (read : ℤ) ≠ expectedRevision ∧
      (s.actualRevision draft.tenantId draft.threadId : ℤ) = expectedRevision

/-- What is left of the program of an operation. -/
inductive Checkpointing : CheckpointCall →
    Proc InMemoryCheckpointStore StaleRevisionError CheckpointReply → Prop
  | idle (call : CheckpointCall) : Checkpointing call call.program
  | saving (draft : CheckpointDraft) (revision : ℕ) :
      Checkpointing (.save draft) (swap (draft.after revision) revision)
  | updating (draft : CheckpointDraft) (expectedRevision : ℤ) (revision : ℕ) (pos : 1 ≤ revision) :
      Checkpointing (.update draft expectedRevision) (swap (draft.after revision) expectedRevision)
  | done (call : CheckpointCall) (reply : CheckpointReply) : Checkpointing call (.done reply)
  | raised (call : CheckpointCall) (e : StaleRevisionError) : Checkpointing call (.raise e)

section Lists

variable {s : InMemoryCheckpointStore} {t th : UUID} {call : CheckpointCall}
  {p p' : Proc InMemoryCheckpointStore StaleRevisionError CheckpointReply}

theorem CheckpointCall.permits_refl (call : CheckpointCall) (t th : UUID)
    (revs : List Checkpoint) : call.Permits t th revs revs := by
  cases call <;> exact .inl rfl

/-- A step that neither changes the store nor answers is safe. -/
theorem checkpointStepSafe_refl (h : s.Increasing)
    (hanswer : ∀ c, p' = .done (.stored c) → p = .done (.stored c)) :
    CheckpointStepSafe call s s p p' :=
  ⟨h, fun t th => call.permits_refl t th _, fun c hc hne => absurd (hanswer c hc) hne,
    fun _ _ => rfl⟩

/-- The head has the largest revision. -/
theorem le_actualRevision (h : s.Increasing) {a : Checkpoint} (ha : a ∈ s.tenantRevisions t th) :
    a.revision ≤ s.actualRevision t th := by
  have hsorted := h t th
  unfold actualRevision
  rcases List.eq_nil_or_concat (s.tenantRevisions t th) with hnil | ⟨init, last, hlast⟩
  · rw [hnil] at ha
    cases ha
  · rw [hlast, List.concat_eq_append] at ha hsorted ⊢
    simp only [List.getLast?_append, List.getLast?_singleton, Option.some_or]
    rcases List.mem_append.mp ha with ha | ha
    · exact ((List.pairwise_append.mp hsorted).2.2 a ha last (by simp)).le
    · rw [List.mem_singleton.mp ha]

/-- Storing the revision after the head keeps the revisions increasing. -/
theorem increasing_save {c : Checkpoint} (h : s.Increasing)
    (hc : c.revision = s.actualRevision c.tenantId c.threadId + 1) : (s.save c).Increasing := by
  intro t th
  by_cases hth : (t, th) = (c.tenantId, c.threadId)
  · cases hth
    rw [tenantRevisions_save_self, List.pairwise_append]
    refine ⟨h _ _, List.pairwise_singleton .., fun a ha b hb => ?_⟩
    have hle := le_actualRevision h ha
    rw [List.mem_singleton.mp hb]
    omega
  · rw [tenantRevisions_save_of_ne hth]
    exact h t th

/-- A compaction keeps them increasing. -/
theorem increasing_compact {tenantId threadId : UUID} {keepLast : ℕ} (h : s.Increasing) :
    (s.compact tenantId threadId keepLast).2.Increasing := by
  intro t th
  by_cases hth : (t, th) = (tenantId, threadId)
  · cases hth
    rw [tenantRevisions_compact_self]
    exact (h _ _).sublist (List.drop_sublist ..)
  · rw [tenantRevisions_compact_of_ne _ hth]
    exact h t th

/-- A compaction that answers with a number is safe. -/
theorem compact_safe {tenantId threadId : UUID} {keepLast : ℕ} (keeps : 1 ≤ keepLast)
    (h : s.Increasing) {count : ℕ} :
    CheckpointStepSafe (.compact tenantId threadId keepLast keeps) s
      (s.compact tenantId threadId keepLast).2 p (.done (.removed count)) := by
  refine ⟨increasing_compact h, fun t th => ?_, fun c hc => (by cases hc),
    fun e he => (by cases he)⟩
  by_cases hth : (t, th) = (tenantId, threadId)
  · cases hth
    refine .inr ⟨rfl, ?_, getHead_compact keeps⟩
    rw [tenantRevisions_compact_self]
    exact List.drop_suffix ..
  · exact .inl (tenantRevisions_compact_of_ne _ hth)

/-- A swap that the caller's number lets through stores the checkpoint, another nothing. -/
theorem saveIfHead_cases (c : Checkpoint) (expectedRevision : ℤ) :
    (∃ e, s.saveIfHead c expectedRevision = (.error e, s)) ∨
      (s.actualRevision c.tenantId c.threadId : ℤ) = expectedRevision ∧
        s.saveIfHead c expectedRevision = (.ok c, s.save c) := by
  by_cases h : (s.actualRevision c.tenantId c.threadId : ℤ) = expectedRevision
  · exact .inr ⟨h, by simp [saveIfHead, h]⟩
  · refine .inl ⟨⟨c.threadId, expectedRevision, some (s.actualRevision c.tenantId c.threadId)⟩, ?_⟩
    simp only [saveIfHead, ne_eq, h, not_false_iff, if_true]

end Lists

section Steps

variable {call : CheckpointCall} {s : InMemoryCheckpointStore}
  {p : Proc InMemoryCheckpointStore StaleRevisionError CheckpointReply}
  {act : InMemoryCheckpointStore → InMemoryCheckpointStore}
  {next : InMemoryCheckpointStore →
    Proc InMemoryCheckpointStore StaleRevisionError CheckpointReply}

/-- A swap answers with what it stored, or raises and stores nothing. -/
theorem checkpointing_after_swap {c : Checkpoint} {expectedRevision : ℤ}
    (hp : swap c expectedRevision = .call act next) (s : InMemoryCheckpointStore) :
    act s = (s.saveIfHead c expectedRevision).2 ∧ Checkpointing call (next s) ∧
      (∀ c', next s = .done (.stored c') → (s.saveIfHead c expectedRevision).1 = .ok c') ∧
      ∀ e, next s = .raise e → (s.saveIfHead c expectedRevision).1 = .error e := by
  obtain ⟨hact, ⟨a, ha, hnext⟩ | ⟨e, herror, hnext⟩⟩ := Proc.invoke_eq_call hp s
  · refine ⟨hact, by rw [hnext]; exact .done .., ?_, ?_⟩
    · intro c' hc'
      rw [hnext, Proc.done.injEq] at hc'
      obtain ⟨c'', hc'', hstored⟩ := Except.map_eq_ok.mp ha
      rw [hc', CheckpointReply.stored.injEq] at hstored
      rw [hc'', hstored]
    · intro e he
      rw [hnext] at he
      cases he
  · refine ⟨hact, by rw [hnext]; exact .raised .., ?_, ?_⟩
    · intro c' hc'
      rw [hnext] at hc'
      cases hc'
    · intro e' he'
      rw [hnext, Proc.raise.injEq] at he'
      subst he'
      change Except.map CheckpointReply.stored (s.saveIfHead c expectedRevision).1 = _ at herror
      cases hr : (s.saveIfHead c expectedRevision).1 with
      | ok a =>
        rw [hr] at herror
        cases herror
      | error err =>
        rw [hr] at herror
        cases herror
        rfl

/-- A swap, with the operation that it belongs to. -/
inductive SwapOf : CheckpointCall → CheckpointDraft → ℕ → ℤ → Prop
  | save (draft : CheckpointDraft) (read : ℕ) : SwapOf (.save draft) draft read read
  | update (draft : CheckpointDraft) (read : ℕ) (expectedRevision : ℤ) (pos : 1 ≤ read) :
      SwapOf (.update draft expectedRevision) draft read expectedRevision

/-- The calls of an operation: reading the head, a swap, or a compaction. -/
theorem Checkpointing.calls (h : Checkpointing call p) (hp : p = .call act next)
    (x : InMemoryCheckpointStore) :
    Checkpointing call (next x) ∧ (act x = x ∧ (∀ reply, next x ≠ .done reply) ∨
      (∃ draft read e, SwapOf call draft read e ∧ p = swap (draft.after read) e ∧
        act x = (x.saveIfHead (draft.after read) e).2 ∧
        (∀ c, next x = .done (.stored c) → (x.saveIfHead (draft.after read) e).1 = .ok c) ∧
        ∀ err, next x = .raise err → (x.saveIfHead (draft.after read) e).1 = .error err) ∨
      ∃ tenantId threadId keepLast keeps, call = .compact tenantId threadId keepLast keeps ∧
        act x = (x.compact tenantId threadId keepLast).2 ∧
        ∃ count, next x = .done (.removed count)) := by
  cases h with
  | idle =>
    cases call with
    | save draft =>
      cases hp
      simp only [Proc.bind]
      cases x.getHead draft.tenantId draft.threadId with
      | some head => exact ⟨.saving draft head.revision, .inl ⟨rfl, fun _ h => by cases h⟩⟩
      | none => exact ⟨.saving draft 0, .inl ⟨rfl, fun _ h => by cases h⟩⟩
    | update draft expectedRevision =>
      cases hp
      simp only [Proc.bind]
      cases x.getHead draft.tenantId draft.threadId with
      | some head =>
        exact ⟨.updating draft expectedRevision head.revision head.revision_pos,
          .inl ⟨rfl, fun _ h => by cases h⟩⟩
      | none => exact ⟨.raised .., .inl ⟨rfl, fun _ h => by cases h⟩⟩
    | compact tenantId threadId keepLast keeps =>
      cases hp
      exact ⟨.done .., .inr (.inr ⟨tenantId, threadId, keepLast, keeps, rfl, rfl, _, rfl⟩)⟩
  | saving draft revision =>
    obtain ⟨hact, hnext, hanswers⟩ := checkpointing_after_swap hp x
    exact ⟨hnext, .inr (.inl ⟨_, _, _, .save .., rfl, hact, hanswers⟩)⟩
  | updating draft expectedRevision revision pos =>
    obtain ⟨hact, hnext, hanswers⟩ := checkpointing_after_swap hp x
    exact ⟨hnext, .inr (.inl ⟨_, _, _, .update _ _ _ pos, rfl, hact, hanswers⟩)⟩
  | done | raised => cases hp

/-- A swap for the head that was read is safe. -/
theorem swap_safe {draft : CheckpointDraft} {read : ℕ} {e : ℤ} (h : SwapOf call draft read e)
    (hs : s.Increasing) (hguess : ¬ LuckyGuess s (swap (draft.after read) e))
    {p' : Proc InMemoryCheckpointStore StaleRevisionError CheckpointReply}
    (hanswer : ∀ c, p' = .done (.stored c) → (s.saveIfHead (draft.after read) e).1 = .ok c)
    (hrefused : ∀ err, p' = .raise err → (s.saveIfHead (draft.after read) e).1 = .error err) :
    CheckpointStepSafe call s (s.saveIfHead (draft.after read) e).2 p p' := by
  rcases saveIfHead_cases (s := s) (draft.after read) e with ⟨err, hfailed⟩ | ⟨hhead, hsaved⟩
  · rw [hfailed] at hanswer ⊢
    exact checkpointStepSafe_refl hs fun c hc => by cases hanswer c hc
  · have hread : (read : ℤ) = e := by
      by_contra hne
      exact hguess ⟨draft, read, e, rfl, hne, hhead⟩
    have hactual : s.actualRevision draft.tenantId draft.threadId = read := by
      have hcast : (s.actualRevision draft.tenantId draft.threadId : ℤ) = read :=
        hhead.trans hread.symm
      omega
    have happend := tenantRevisions_save_self s (draft.after read)
    -- what the operation says of the stored checkpoint
    have hstores : call.Stores (draft.after read) s (s.save (draft.after read)) := by
      cases h with
      | save => exact happend
      | update draft read e pos =>
        refine ⟨?_, by simp only [CheckpointDraft.after]; omega, happend⟩
        unfold actualRevision at hactual
        cases hlast : (s.tenantRevisions draft.tenantId draft.threadId).getLast? with
        | none =>
          rw [hlast] at hactual
          simp only at hactual
          omega
        | some head =>
          rw [hlast] at hactual
          simp only at hactual
          exact ⟨head, rfl, by omega⟩
    rw [hsaved] at hanswer hrefused ⊢
    refine ⟨increasing_save hs (by simp only [CheckpointDraft.after, hactual]), fun t th => ?_,
      fun c hc _ => ?_, fun err herr => (by cases hrefused err herr)⟩
    · by_cases hth : (t, th) = (draft.tenantId, draft.threadId)
      · cases hth
        cases h with
        | save => exact .inr ⟨rfl, _, hstores⟩
        | update draft read e pos =>
          obtain ⟨⟨head, hlast, hhead'⟩, hrevision, hlist⟩ := hstores
          exact .inr ⟨rfl, head, _, hlast, hhead', hrevision, hlist⟩
      · rw [tenantRevisions_save_of_ne hth]
        exact call.permits_refl t th _
    · obtain rfl := Except.ok.inj (hanswer c hc)
      exact hstores

/-- The step of an operation that is no lucky guess is safe. -/
theorem Checkpointing.safe (h : Checkpointing call p) (hp : p = .call act next)
    (hs : s.Increasing) (hguess : ¬ LuckyGuess s p) :
    CheckpointStepSafe call s (act s) p (next s) := by
  obtain ⟨-, ⟨hact, hsilent⟩ | ⟨draft, read, e, hswap, rfl, hact, hanswer, hrefused⟩ |
    ⟨t, th, keepLast, keeps, rfl, hact, count, hreply⟩⟩ := h.calls hp s
  · rw [hact]
    exact checkpointStepSafe_refl hs fun c hc => absurd hc (hsilent _)
  · rw [hact]
    exact swap_safe hswap hs hguess hanswer hrefused
  · rw [hact, hreply]
    exact compact_safe keeps hs

/-- A swap that succeeds tells its arguments. -/
theorem swap_inj {c c' : Checkpoint} {e e' : ℤ} (h : swap c e = swap c' e')
    (hhead : (s.actualRevision c.tenantId c.threadId : ℤ) = e) : c = c' ∧ e = e' := by
  have hrun := congrArg (fun q => (q.run s).1) h
  by_cases hhead' : (s.actualRevision c'.tenantId c'.threadId : ℤ) = e'
  · simp only [swap, Proc.run_invoke, saveIfHead, hhead, hhead', ne_eq, not_true, if_false,
      Except.map, Except.ok.injEq, CheckpointReply.stored.injEq] at hrun
    exact ⟨hrun, by rw [← hhead, ← hhead', hrun]⟩
  · simp only [swap, Proc.run_invoke, saveIfHead, hhead, hhead', ne_eq, not_true, if_false,
      not_false_iff, if_true, Except.map] at hrun
    cases hrun

/-- A lucky guess is not safe. -/
theorem Checkpointing.unsafe_of_guess (h : Checkpointing call p) (hp : p = .call act next)
    (hguess : LuckyGuess s p) : ¬ CheckpointStepSafe call s (act s) p (next s) := by
  obtain ⟨draft, read, e, rfl, hne, hhead⟩ := hguess
  have hact : act s = s.save (draft.after read) := by
    rw [(Proc.invoke_eq_call hp s).1]
    simp only [saveIfHead, CheckpointDraft.after, hhead, ne_eq, not_true, if_false]
  have happend : (act s).tenantRevisions draft.tenantId draft.threadId =
      s.tenantRevisions draft.tenantId draft.threadId ++ [draft.after read] := by
    rw [hact]
    exact tenantRevisions_save_self ..
  have hgrown : ((act s).tenantRevisions draft.tenantId draft.threadId).length =
      (s.tenantRevisions draft.tenantId draft.threadId).length + 1 := by
    rw [happend, List.length_append, List.length_singleton]
  intro hsafe
  have hpermitted := hsafe.permitted draft.tenantId draft.threadId
  obtain ⟨-, ⟨hread, -⟩ | ⟨draft', read', e', hswap, heq, -⟩ |
    ⟨t, th, keepLast, keeps, rfl, -⟩⟩ := h.calls hp s
  · rw [hread] at hgrown
    omega
  · obtain ⟨hafter, rfl⟩ := swap_inj heq hhead
    have hrevision : read + 1 = read' + 1 := congrArg Checkpoint.revision hafter
    cases hswap with
    | save => exact hne (by omega)
    | update _ _ _ pos =>
      rcases hpermitted with hsame | ⟨-, head, c, -, -, hc, hsame⟩
      · rw [hsame] at hgrown
        omega
      · rw [happend, List.append_cancel_left_eq, List.cons.injEq] at hsame
        rw [← hsame.1] at hc
        simp only [CheckpointDraft.after] at hc
        omega
  · rcases hpermitted with hsame | ⟨-, hsuffix, -⟩
    · rw [hsame] at hgrown
      omega
    · have hle := hsuffix.length_le
      omega

end Steps

section Pools

variable {ι : Type} [DecidableEq ι] {calls : ι → CheckpointCall}
  {c : Pool.Config InMemoryCheckpointStore StaleRevisionError CheckpointReply ι}

theorem checkpointing_step (h : ∀ j, Checkpointing (calls j) (c.2 j)) (i : ι) :
    ∀ j, Checkpointing (calls j) ((Pool.step c i).2 j) :=
  (Pool.step_of_guarantees (J := fun _ => True) (R := fun _ _ _ => True)
    (Φ := fun j _ p => Checkpointing (calls j) p) (fun _ _ _ _ _ _ h => h)
    (fun _ _ hcall => ⟨trivial, trivial, ((h i).calls hcall c.1).1⟩) trivial h).2

/-- A step that is no lucky guess is safe. -/
theorem step_safe (h : ∀ j, Checkpointing (calls j) (c.2 j)) (hs : c.1.Increasing) {i : ι}
    (hguess : ¬ LuckyGuess c.1 (c.2 i)) :
    CheckpointStepSafe (calls i) c.1 (Pool.step c i).1 (c.2 i) ((Pool.step c i).2 i) := by
  cases hp : c.2 i with
  | call act next =>
    have hsafe := (h i).safe hp hs hguess
    rw [Pool.step_of_call hp]
    simp only [Function.update_self]
    rwa [hp] at hsafe
  | done | raise =>
    rw [Pool.step_of_no_call (by simp [hp]), hp]
    exact checkpointStepSafe_refl hs fun _ h => h

/-- Steps stay safe as long as none is a lucky guess, and a lucky guess is not safe. -/
theorem checkpointsSafe_iff (h : ∀ j, Checkpointing (calls j) (c.2 j)) (hs : c.1.Increasing)
    (schedule : List ι) :
    CheckpointsSafe calls c schedule ↔
      Pool.Always (fun s p => ¬ LuckyGuess s p) c schedule := by
  constructor
  · intro hsafe
    rw [Pool.always_iff_forall_prefix]
    intro pre i post he hguess
    have hreached := Pool.exec_induction (I := fun c => ∀ j, Checkpointing (calls j) (c.2 j))
      (fun c i h => checkpointing_step h i) h pre
    have hstep := hsafe pre i post he
    rw [Pool.exec_append, Pool.exec_cons, Pool.exec_nil] at hstep
    cases hp : (Pool.exec c pre).2 i with
    | call act next =>
      rw [Pool.step_of_call hp] at hstep
      simp only [Function.update_self] at hstep
      exact (hreached i).unsafe_of_guess hp hguess hstep
    | done | raise =>
      obtain ⟨draft, read, e, hswap, -⟩ := hguess
      rw [hp] at hswap
      cases hswap
  · rintro hguess pre i post rfl
    rw [Pool.always_append] at hguess
    obtain ⟨hpre, hi, -⟩ := hguess
    obtain ⟨hincreasing, hreached⟩ := Pool.exec_invariant
      (I := fun c => c.1.Increasing ∧ ∀ j, Checkpointing (calls j) (c.2 j))
      (fun c i hI hguess => ⟨(step_safe hI.2 hI.1 hguess).increasing, checkpointing_step hI.2 i⟩)
      ⟨hs, h⟩ hpre
    rw [Pool.exec_append, Pool.exec_cons, Pool.exec_nil]
    exact step_safe hreached hincreasing hi

end Pools

/-- The store of clients that start without checkpoints. -/
def checkpointPool {ι : Type} (calls : ι → CheckpointCall) :
    Pool.Config InMemoryCheckpointStore StaleRevisionError CheckpointReply ι :=
  (.empty, fun i => (calls i).program)

/-- For all clients and all interleavings: every step keeps the revisions of each tenant and thread
increasing, an update that is answered stored the revision after its expected one right after that
head, and a compaction removes old revisions only, exactly when no update whose caller expects
another head than the one it read swaps while the head is the expected one. -/
theorem checkpoints_safe_iff {ι : Type} [DecidableEq ι] (calls : ι → CheckpointCall)
    (schedule : List ι) :
    CheckpointsSafe calls (checkpointPool calls) schedule ↔
      Pool.Always (fun s p => ¬ LuckyGuess s p) (checkpointPool calls) schedule := by
  refine checkpointsSafe_iff (fun j => .idle _) (fun t th => ?_) schedule
  simp [checkpointPool, tenantRevisions, InMemoryCheckpointStore.empty]

/-- Two saves and an update that expects revision 2. -/
def rivalCheckpoints (i : Fin 3) : CheckpointCall :=
  let draft : CheckpointDraft :=
    ⟨UUID.ofNat 1, UUID.ofNat 2, UUID.ofNat 3, [], UUID.ofNat (10 + i), .ofMicros 0⟩
  if i.val = 1 then .update draft 2 else .save draft

/-- The update reads head 1 before revision 2 is saved, and swaps after: revision 2 is stored
twice. -/
theorem update_stores_revision_twice :
    ¬ CheckpointsSafe rivalCheckpoints (checkpointPool rivalCheckpoints) [0, 0, 1, 2, 2, 1] := by
  intro h
  have hincreasing := (h [0, 0, 1, 2, 2] 1 [] rfl).increasing (UUID.ofNat 1) (UUID.ofNat 3)
  revert hincreasing
  decide

end MemoryPlane
