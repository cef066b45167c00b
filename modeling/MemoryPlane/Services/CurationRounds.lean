import MemoryPlane.Services.Conversations

/-!
# Fragments and rounds of a curation

A transcript is cut into fragments and put together again by rounds of merging calls. The rounds are
followed here with a log of their calls: what the calls are given is what there was to merge, in its
order and each payload once, until the last answer is left.
-/

namespace MemoryPlane

section Slices

variable {α : Type} {k : ℕ}

/-- The first slices put together are a prefix of the list. -/
theorem flatten_range_slices (xs : List α) (k m : ℕ) :
    ((List.range m).map fun i => (xs.drop (i * k)).take k).flatten = xs.take (m * k) := by
  induction m with
  | zero => simp
  | succ m ih =>
    rw [List.range_succ, List.map_append, List.flatten_append, ih, Nat.succ_mul, List.take_add]
    simp

/-- The slices put together are the list. -/
theorem flatten_slices (hk : 0 < k) (xs : List α) : (slices k xs).flatten = xs := by
  rw [slices, flatten_range_slices, List.take_of_length_le]
  have hdiv := Nat.lt_div_mul_add (a := xs.length + k - 1) hk
  omega

/-- No slice is empty or longer than its size. -/
theorem mem_slices (hk : 0 < k) {xs slice : List α} (h : slice ∈ slices k xs) :
    slice ≠ [] ∧ slice.length ≤ k := by
  obtain ⟨i, hi, rfl⟩ := List.mem_map.mp h
  rw [List.mem_range, Nat.lt_div_iff_mul_lt hk] at hi
  constructor
  · rw [← List.length_pos_iff, List.length_take, List.length_drop]
    omega
  · exact List.length_take_le _ _

end Slices

namespace ConversationCurator

/-- The text of a turn is never empty. -/
theorem conversationText_ne_empty (turn : ConversationTurn) : conversationText turn ≠ "" := by
  intro h
  have hjoin := congrArg String.toList h
  simp [conversationText, String.toList_intercalate, List.intercalate] at hjoin

/-- What a transcript is cut into: fragments within the limit, put together the transcript. -/
structure Cut (limit : ℕ) (text : String) (chunks : List String) : Prop where
  fragment : ∀ chunk ∈ chunks, chunk ≠ "" ∧ chunk.length ≤ limit
  whole : chunks.flatMap String.toList = text.toList

/-- The chunks of a turn cut its text into parts within the limit. -/
theorem cut_conversationChunksWithin {limit : ℕ} (hlimit : 0 < limit) (turn : ConversationTurn) :
    Cut limit (conversationText turn) (conversationChunksWithin limit turn) := by
  have hempty := conversationText_ne_empty turn
  rw [conversationChunksWithin]
  by_cases hshort : (conversationText turn).length ≤ limit
  · rw [if_pos hshort]
    refine ⟨List.forall_mem_singleton.mpr ⟨hempty, hshort⟩, ?_⟩
    rw [List.flatMap_singleton]
  · rw [if_neg hshort]
    constructor
    · intro chunk hchunk
      obtain ⟨cs, hcs, rfl⟩ := List.mem_map.mp hchunk
      obtain ⟨hne, hlength⟩ := mem_slices hlimit hcs
      rw [String.length_ofList]
      exact ⟨fun h => hne (String.ofList_eq_empty_iff.mp h), hlength⟩
    · rw [List.flatMap_map]
      simp only [String.toList_ofList]
      rw [List.flatMap_id', flatten_slices hlimit]

/-- A merging call: the payloads that it is about, what the model is asked, and what it makes of
it. -/
structure ReductionCall where
  batch : List JsonObject
  request : ChatRequest
  answer : Except String JsonObject

variable (ops : TextOps) (chat : MemoryReasoner)

/-- One round of merging calls with its log; it ends at the first call that raises. -/
def mergeBatches (n : ℕ) :
    List (List JsonObject) → List ReductionCall × Except String (List JsonObject)
  | [] => ([], .ok [])
  | batch :: rest =>
    match chat n (reduceRequest ops batch) with
    | .error e => ([⟨batch, reduceRequest ops batch, .error e⟩], .error e)
    | .ok payload =>
      let merged := mergeBatches (n + 1) rest
      (⟨batch, reduceRequest ops batch, .ok payload⟩ :: merged.1,
        merged.2.map fun payloads => payload :: payloads)

/-- The answers that were returned. -/
def answers (calls : List ReductionCall) : List JsonObject :=
  calls.filterMap fun call => call.answer.toOption

section Round

variable {ops chat} {n : ℕ} {batches : List (List JsonObject)}

/-- The log belongs to the round. -/
theorem mergeBatches_snd :
    (mergeBatches ops chat n batches).2 = askAll chat n (batches.map (reduceRequest ops)) := by
  induction batches generalizing n with
  | nil => rfl
  | cons batch rest ih =>
    rw [List.map_cons, askAll, mergeBatches]
    cases chat n (reduceRequest ops batch) with
    | error e => rfl
    | ok payload =>
      rw [Except.ok_bind, ← ih]
      dsimp only
      cases (mergeBatches ops chat (n + 1) rest).2 <;> rfl

/-- The calls are given the batches in order; the last of them is the first that raises. -/
theorem mergeBatches_batches :
    (mergeBatches ops chat n batches).1.map (fun call => call.batch) <+: batches := by
  induction batches generalizing n with
  | nil => exact List.prefix_rfl
  | cons batch rest ih =>
    rw [mergeBatches]
    cases chat n (reduceRequest ops batch) with
    | error e => exact ⟨rest, rfl⟩
    | ok payload => exact List.prefix_cons_inj _ |>.mpr ih

/-- A successful round asked once for each batch, in order. -/
theorem mergeBatches_of_ok {payloads : List JsonObject}
    (h : (mergeBatches ops chat n batches).2 = .ok payloads) :
    (mergeBatches ops chat n batches).1.map (fun call => call.batch) = batches ∧
      answers (mergeBatches ops chat n batches).1 = payloads := by
  induction batches generalizing n payloads with
  | nil =>
    cases h
    exact ⟨rfl, rfl⟩
  | cons batch rest ih =>
    rw [mergeBatches] at h ⊢
    cases hchat : chat n (reduceRequest ops batch) with
    | error e =>
      rw [hchat] at h
      cases h
    | ok payload =>
      rw [hchat] at h
      obtain ⟨others, hothers, rfl⟩ := Except.map_eq_ok.mp h
      obtain ⟨hbatches, hanswers⟩ := ih hothers
      exact ⟨congrArg (batch :: ·) hbatches, congrArg (payload :: ·) hanswers⟩

/-- A failed round ends with the call that failed. -/
theorem mergeBatches_of_error {e : String}
    (h : (mergeBatches ops chat n batches).2 = .error e) :
    ∃ calls call, (mergeBatches ops chat n batches).1 = calls ++ [call] ∧
      call.answer = .error e := by
  induction batches generalizing n with
  | nil => cases h
  | cons batch rest ih =>
    rw [mergeBatches] at h ⊢
    cases hchat : chat n (reduceRequest ops batch) with
    | error e' =>
      rw [hchat] at h
      cases h
      exact ⟨[], _, rfl, rfl⟩
    | ok payload =>
      rw [hchat] at h
      have hrest : (mergeBatches ops chat (n + 1) rest).2 = .error e := by
        dsimp only at h
        cases hmerged : (mergeBatches ops chat (n + 1) rest).2 with
        | error e' =>
          rw [hmerged] at h
          exact h
        | ok payloads =>
          rw [hmerged] at h
          cases h
      obtain ⟨calls, last, hcalls, hlast⟩ := ih hrest
      exact ⟨_ :: calls, last, congrArg (_ :: ·) hcalls, hlast⟩

/-- A successful round gives one payload for each batch. -/
theorem length_of_mergeBatches {calls : List ReductionCall} {payloads : List JsonObject}
    (h : mergeBatches ops chat n batches = (calls, .ok payloads)) :
    payloads.length = batches.length := by
  have hask : askAll chat n (batches.map (reduceRequest ops)) = .ok payloads := by
    rw [← mergeBatches_snd, h]
  rw [length_askAll hask, List.length_map]

/-- Every call is answered by the model, in turn, and asks about its payloads. -/
theorem mergeBatches_asked {i : ℕ} {call : ReductionCall}
    (h : (mergeBatches ops chat n batches).1[i]? = some call) :
    call.answer = chat (n + i) call.request ∧ call.request = reduceRequest ops call.batch := by
  induction batches generalizing n i with
  | nil => cases h
  | cons batch rest ih =>
    rw [mergeBatches] at h
    cases hchat : chat n (reduceRequest ops batch) with
    | error e =>
      rw [hchat] at h
      cases i with
      | zero =>
        cases h
        exact ⟨hchat.symm, rfl⟩
      | succ i => cases h
    | ok payload =>
      rw [hchat] at h
      cases i with
      | zero =>
        cases h
        exact ⟨hchat.symm, rfl⟩
      | succ i =>
        have hcall := ih h
        rwa [Nat.add_assoc, Nat.add_comm 1 i] at hcall

end Round

/-- `_reduce_curation` with the log of its calls. -/
def reduceLogged (n : ℕ) (pending : List JsonObject) :
    List ReductionCall × Except String JsonObject :=
  match pending with
  | [] => ([], .error "IndexError")
  | [payload] => ([], .ok payload)
  | first :: second :: rest =>
    match _h : mergeBatches ops chat n (slices 4 (first :: second :: rest)) with
    | (calls, .error e) => (calls, .error e)
    | (calls, .ok next) =>
      let merged := reduceLogged (n + next.length) next
      (calls ++ merged.1, merged.2)
termination_by pending.length
decreasing_by
  have hlen := length_of_mergeBatches _h
  simp only [length_slices, List.length_cons] at hlen ⊢
  omega

section Equations

variable {ops chat} {n : ℕ} {first second : JsonObject} {rest : List JsonObject}
variable {calls : List ReductionCall}

/-- A failed round ends the reduction with its error. -/
theorem reduceLogged_of_error {e : String}
    (h : mergeBatches ops chat n (slices 4 (first :: second :: rest)) = (calls, .error e)) :
    reduceLogged ops chat n (first :: second :: rest) = (calls, .error e) ∧
      reduceCuration ops chat n (first :: second :: rest) = .error e := by
  have hask := congrArg Prod.snd h
  rw [mergeBatches_snd] at hask
  constructor
  · rw [reduceLogged]
    split
    · next hmerge =>
      cases hmerge.symm.trans h
      rfl
    · next hmerge => cases hmerge.symm.trans h
  · rw [reduceCuration]
    split
    · next hasked => exact congrArg _ (Except.error.inj (hasked.symm.trans hask))
    · next hasked => cases hasked.symm.trans hask

/-- A successful round is followed by the reduction of its answers. -/
theorem reduceLogged_of_ok {next : List JsonObject}
    (h : mergeBatches ops chat n (slices 4 (first :: second :: rest)) = (calls, .ok next)) :
    reduceLogged ops chat n (first :: second :: rest) =
        (calls ++ (reduceLogged ops chat (n + next.length) next).1,
          (reduceLogged ops chat (n + next.length) next).2) ∧
      reduceCuration ops chat n (first :: second :: rest) =
        reduceCuration ops chat (n + next.length) next := by
  have hask := congrArg Prod.snd h
  rw [mergeBatches_snd] at hask
  constructor
  · rw [reduceLogged]
    split
    · next hmerge => cases hmerge.symm.trans h
    · next hmerge =>
      cases hmerge.symm.trans h
      rfl
  · rw [reduceCuration]
    split
    · next hasked => cases hasked.symm.trans hask
    · next hasked =>
      cases hasked.symm.trans hask
      rfl

end Equations

/-- What the model is told to do with the payloads of a call. -/
def mergeInstruction : String :=
  "Merge these fragment curations. Keep only evidence-backed durable facts, " ++
    "preserve temporal changes, preserve only verbatim evidence_quotes, and return the " ++
    "same JSON keys.\n\n"

/-- The request ends with the payloads in JSON, behind an instruction that is the same for all. -/
def Shows (request : ChatRequest) (batch : List JsonObject) : Prop :=
  request.messages.getLast? =
    some ("user", mergeInstruction ++ ops.dumps (.arr (batch.map .obj)))

/-- A reduction of some payloads: every call is asked of the model in turn and shows it at most four
payloads, the payloads shown are the ones there were to merge, in order and each once, and with a
result it is the only one that is left. -/
structure Reduces (n : ℕ) (payloads : List JsonObject) (calls : List ReductionCall)
    (result : Except String JsonObject) : Prop where
  asked : ∀ i call, calls[i]? = some call → call.answer = chat (n + i) call.request
  shown : ∀ call ∈ calls, Shows ops call.request call.batch
  batch : ∀ call ∈ calls, call.batch ≠ [] ∧ call.batch.length ≤ 4
  given : calls.flatMap (fun call => call.batch) <+: payloads ++ answers calls
  returned : ∀ payload, result = .ok payload →
    calls.flatMap (fun call => call.batch) ++ [payload] = payloads ++ answers calls
  raised : ∀ e, result = .error e → ∃ before call, calls = before ++ [call] ∧ call.answer = .error e
  bound : calls.length < payloads.length

section Reduction

variable {ops chat} {n : ℕ} {payloads : List JsonObject}

/-- The answers of two logs are those of the first, then those of the second. -/
theorem answers_append (calls others : List ReductionCall) :
    answers (calls ++ others) = answers calls ++ answers others := List.filterMap_append

/-- The batches of a round are those of its payloads. -/
theorem batch_of_mergeBatches {call : ReductionCall}
    (h : call ∈ (mergeBatches ops chat n (slices 4 payloads)).1) :
    call.batch ≠ [] ∧ call.batch.length ≤ 4 :=
  mem_slices (by decide) (mergeBatches_batches.subset (List.mem_map_of_mem h))

/-- The request of a batch shows the model every payload of it. -/
theorem shows_reduceRequest (batch : List JsonObject) :
    Shows ops (reduceRequest ops batch) batch := rfl

/-- The calls of a round show their payloads. -/
theorem shows_of_mergeBatches {batches : List (List JsonObject)} {call : ReductionCall}
    (h : call ∈ (mergeBatches ops chat n batches).1) : Shows ops call.request call.batch := by
  obtain ⟨i, hi⟩ := List.mem_iff_getElem?.mp h
  rw [(mergeBatches_asked hi).2]
  exact shows_reduceRequest call.batch

/-- A round that raises ends the reduction. -/
theorem reduces_of_error {calls : List ReductionCall} {e : String} (hlength : 2 ≤ payloads.length)
    (h : mergeBatches ops chat n (slices 4 payloads) = (calls, .error e)) :
    Reduces ops chat n payloads calls (.error e) := by
  have hcalls : (mergeBatches ops chat n (slices 4 payloads)).1 = calls := congrArg Prod.fst h
  have hprefix : calls.map (fun call => call.batch) <+: slices 4 payloads := by
    rw [← hcalls]
    exact mergeBatches_batches
  have hflat : calls.flatMap (fun call => call.batch) <+: payloads := by
    obtain ⟨others, hothers⟩ := hprefix
    refine ⟨others.flatten, ?_⟩
    rw [List.flatMap_def, ← List.flatten_append, hothers, flatten_slices (by decide)]
  constructor
  · intro i call hcall
    rw [← hcalls] at hcall
    exact (mergeBatches_asked hcall).1
  · intro call hcall
    rw [← hcalls] at hcall
    exact shows_of_mergeBatches hcall
  · intro call hcall
    rw [← hcalls] at hcall
    exact batch_of_mergeBatches hcall
  · exact hflat.trans (List.prefix_append _ _)
  · rintro payload ⟨⟩
  · rintro e' ⟨⟩
    have hraised := mergeBatches_of_error (congrArg Prod.snd h)
    rwa [hcalls] at hraised
  · have hle := hprefix.length_le
    rw [List.length_map, length_slices] at hle
    omega

/-- The calls of a round come before those of the later rounds. -/
theorem Reduces.cons {calls later : List ReductionCall} {next : List JsonObject}
    {result : Except String JsonObject} (hlength : 2 ≤ payloads.length)
    (h : mergeBatches ops chat n (slices 4 payloads) = (calls, .ok next))
    (hlater : Reduces ops chat (n + next.length) next later result) :
    Reduces ops chat n payloads (calls ++ later) result := by
  have hcalls : (mergeBatches ops chat n (slices 4 payloads)).1 = calls := congrArg Prod.fst h
  obtain ⟨hbatches, hanswers⟩ := mergeBatches_of_ok (congrArg Prod.snd h)
  rw [hcalls] at hbatches hanswers
  have hcount : calls.length = next.length := by
    rw [length_of_mergeBatches h, ← hbatches, List.length_map]
  have hflat : calls.flatMap (fun call => call.batch) = payloads := by
    rw [List.flatMap_def, hbatches, flatten_slices (by decide)]
  have hnext : calls.length = (payloads.length + 4 - 1) / 4 := by
    rw [hcount, length_of_mergeBatches h, length_slices]
  constructor
  · intro i call hcall
    by_cases hi : i < calls.length
    · rw [List.getElem?_append_left hi, ← hcalls] at hcall
      exact (mergeBatches_asked hcall).1
    · rw [List.getElem?_append_right (by omega)] at hcall
      have hasked := hlater.asked _ call hcall
      rwa [Nat.add_assoc, ← hcount, Nat.add_sub_cancel' (by omega)] at hasked
  · intro call hcall
    rcases List.mem_append.mp hcall with hcall | hcall
    · rw [← hcalls] at hcall
      exact shows_of_mergeBatches hcall
    · exact hlater.shown call hcall
  · intro call hcall
    rcases List.mem_append.mp hcall with hcall | hcall
    · rw [← hcalls] at hcall
      exact batch_of_mergeBatches hcall
    · exact hlater.batch call hcall
  · rw [List.flatMap_append, hflat, answers_append, hanswers]
    exact (List.prefix_append_right_inj _).mpr hlater.given
  · intro payload hresult
    rw [List.flatMap_append, hflat, answers_append, hanswers, List.append_assoc,
      hlater.returned payload hresult]
  · intro e he
    obtain ⟨before, call, rfl, hcall⟩ := hlater.raised e he
    exact ⟨calls ++ before, call, (List.append_assoc _ _ _).symm, hcall⟩
  · have hbound := hlater.bound
    rw [List.length_append]
    omega

/-- The log belongs to the reduction, and the reduction loses nothing. -/
theorem reduceLogged_spec (ops : TextOps) (chat : MemoryReasoner) (n : ℕ)
    {payloads : List JsonObject} (h : payloads ≠ []) :
    (reduceLogged ops chat n payloads).2 = reduceCuration ops chat n payloads ∧
      Reduces ops chat n payloads (reduceLogged ops chat n payloads).1
        (reduceLogged ops chat n payloads).2 := by
  induction n, payloads using reduceLogged.induct ops chat with
  | case1 n => exact absurd rfl h
  | case2 n payload =>
    rw [reduceLogged, reduceCuration]
    refine ⟨rfl, ?_, ?_, ?_, ?_, ?_, ?_, Nat.zero_lt_one⟩
    · rintro i call ⟨⟩
    · rintro call ⟨⟩
    · rintro call ⟨⟩
    · exact List.nil_prefix
    · rintro _ ⟨⟩
      rfl
    · rintro e ⟨⟩
  | case3 n first second rest calls e hmerge =>
    obtain ⟨hlogged, hcuration⟩ := reduceLogged_of_error hmerge
    rw [hlogged, hcuration]
    exact ⟨rfl, reduces_of_error (by simp) hmerge⟩
  | case4 n first second rest calls next hmerge ih =>
    have hnext : next ≠ [] := by
      have hlength := length_of_mergeBatches hmerge
      rw [length_slices, List.length_cons, List.length_cons] at hlength
      rintro rfl
      rw [List.length_nil] at hlength
      omega
    obtain ⟨hresult, hreduces⟩ := ih hnext
    obtain ⟨hlogged, hcuration⟩ := reduceLogged_of_ok hmerge
    rw [hlogged, hcuration]
    exact ⟨hresult, hreduces.cons (by simp) hmerge⟩

end Reduction

/-- A transcript is cut without a loss, and the payloads of its fragments are reduced to one by
calls that are given each of them, and each answer but the last, once and in order. -/
theorem curation_complete (ops : TextOps) (chat : MemoryReasoner) (turn : ConversationTurn)
    {limit : ℕ} (hlimit : 1 ≤ limit) (n : ℕ) {payloads : List JsonObject} (h : payloads ≠ []) :
    Cut limit (conversationText turn) (conversationChunksWithin limit turn) ∧
      (reduceLogged ops chat n payloads).2 = reduceCuration ops chat n payloads ∧
      Reduces ops chat n payloads (reduceLogged ops chat n payloads).1
        (reduceCuration ops chat n payloads) := by
  obtain ⟨hresult, hreduces⟩ := reduceLogged_spec ops chat n h
  rw [hresult] at hreduces
  exact ⟨cut_conversationChunksWithin hlimit turn, hresult, hreduces⟩

/-- A turn with one message. -/
def shortTurn : ConversationTurn where
  tenantId := UUID.ofNat 1
  workspaceId := UUID.ofNat 2
  threadId := UUID.ofNat 3
  messages :=
    [{ role := "user", content := "hello", name := none, metadata := [], valid := rfl }]
  id := UUID.ofNat 4
  «namespace» := "default"
  agentId := none
  sourceKind := "chat"
  retentionPolicy := .curatedOnly
  metadata := []
  createdAt := .ofMicros 0
  expiresAt := none
  valid := rfl

/-- The JSON text of a list of objects with one text each. -/
def shortDumps : Json → String
  | .arr objects => "[" ++ ", ".intercalate (objects.map shortObject) ++ "]"
  | _ => ""
where
  shortObject : Json → String
    | .obj [(name, .str text)] => "\x7b\"" ++ name ++ "\": \"" ++ text ++ "\"\x7d"
    | _ => ""

/-- Conversions on short texts. -/
def shortOps : TextOps where
  lower := id
  repr _ := ""
  int _ := .ok 0
  float _ := .ok .nan
  dumps := shortDumps
  isoformat _ := "1970-01-01T00:00:00+00:00"

/-- The answers about five fragments. -/
def fivePayloads : List JsonObject :=
  ["a", "b", "c", "d", "e"].map fun text => [("summary", .str text)]

/-- A model that numbers its answers. -/
def countingModel : MemoryReasoner := fun n _ => .ok [("summary", .str (toString n))]

/-- Five payloads take three calls: the first four, the last one, and the two answers. -/
example : ((reduceLogged shortOps countingModel 5 fivePayloads).1.map fun call =>
    call.batch.length) = [4, 1, 2] := by decide +kernel

/-- The reduction of the example's five distinct payloads is complete. -/
theorem curation_complete_five :
    Cut 7 (conversationText shortTurn) (conversationChunksWithin 7 shortTurn) ∧
      (reduceLogged shortOps countingModel 5 fivePayloads).2 =
        reduceCuration shortOps countingModel 5 fivePayloads ∧
      Reduces shortOps countingModel 5 fivePayloads
        (reduceLogged shortOps countingModel 5 fivePayloads).1
        (reduceCuration shortOps countingModel 5 fivePayloads) :=
  curation_complete shortOps countingModel shortTurn (by decide) 5 (by decide)

end ConversationCurator

end MemoryPlane
