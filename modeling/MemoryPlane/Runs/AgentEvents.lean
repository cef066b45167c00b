import MemoryPlane.Adapters.Writes
import MemoryPlane.Integrations.AgentPlugin
import MemoryPlane.Services.Retention
import MemoryPlane.Services.VaultImport

/-!
# Events of an agent run under their keys

The key of an event tells its kind, its tool and its text, and no more: the error and whether a tool
is named do not enter it. Two events with different keys are both kept by the server.
-/

namespace MemoryPlane

namespace AgentPlugin

variable {config : AgentMemoryConfig} {digest : StableDigest}

/-- What the key of an event tells is not all the same for two events. -/
def Separates (e₁ e₂ : AgentLifecycleEvent) : Prop :=
  e₁.kind ≠ e₂.kind ∨ toolLabel e₁ ≠ toolLabel e₂ ∨ e₁.text ≠ e₂.text

/-- The memory that a command asks for. -/
structure Carries (item : MemoryItem) (command : RetainCommand) : Prop where
  tenant : item.tenantId = command.tenantId
  workspace : item.workspaceId = command.workspaceId
  layer : item.layer = command.layer
  kind : item.kind = command.kind
  text : item.text = command.text

section Keys

/-- A text that starts with a part free of the mark splits at the mark in one way only. -/
theorem append_mark_inj {mark : Char} {a a' b b' : List Char}
    (h : a ++ mark :: b = a' ++ mark :: b') (ha : mark ∉ a) (ha' : mark ∉ a') :
    a = a' ∧ b = b' := by
  have hspan : ∀ front back : List Char, mark ∉ front →
      (front ++ mark :: back).takeWhile (· ≠ mark) = front := by
    intro front back hfree
    rw [List.takeWhile_append_of_pos]
    · simp
    · intro c hc
      rw [decide_eq_true_eq]
      rintro rfl
      exact hfree hc
  have hfront : a = a' := by rw [← hspan a b ha, h, hspan a' b' ha']
  subst hfront
  exact ⟨rfl, (List.cons.inj (List.append_cancel_left h)).2⟩

theorem colon_not_mem_value (kind : AgentEventKind) : ':' ∉ kind.value.toList := by
  cases kind <;> decide +kernel

/-- The parts behind the thread are told by a key. -/
theorem joinKey_inj {thread kind kind' tool tool' hash hash' : String}
    (h : joinKey thread kind tool hash = joinKey thread kind' tool' hash')
    (hkind : ':' ∉ kind.toList) (hkind' : ':' ∉ kind'.toList) (hhash : hash.length = hash'.length) :
    kind = kind' ∧ tool = tool' ∧ hash = hash' := by
  have hparts : ∀ front k t d : String, (front ++ ":" ++ k ++ ":" ++ t ++ ":" ++ d).toList =
      front.toList ++ ':' :: (k.toList ++ ':' :: (t.toList ++ ':' :: d.toList)) := by
    intro front k t d
    simp [String.toList_append]
  have hlist := ((hparts ("agent-event:" ++ thread) kind tool hash).symm.trans
    (congrArg String.toList h)).trans (hparts ("agent-event:" ++ thread) kind' tool' hash')
  have hbehind := (List.cons.inj (List.append_cancel_left hlist)).2
  obtain ⟨hfirst, hrest⟩ := append_mark_inj hbehind hkind hkind'
  have hlength : (':' :: hash.toList).length = (':' :: hash'.toList).length := by
    rw [List.length_cons, List.length_cons, String.length_toList, String.length_toList, hhash]
  obtain ⟨hsecond, hthird⟩ := List.append_inj' hrest hlength
  exact ⟨String.toList_inj.mp hfirst, String.toList_inj.mp hsecond,
    String.toList_inj.mp (List.cons.inj hthird).2⟩

theorem value_inj {k₁ k₂ : AgentEventKind} (h : k₁.value = k₂.value) : k₁ = k₂ := by
  cases k₁ <;> cases k₂ <;> first | rfl | simp [AgentEventKind.value] at h

/-- In one run, keys differ exactly for events that differ in what the key tells. -/
theorem key_ne_iff {e₁ e₂ : AgentLifecycleEvent} (hcontext : e₁.context = e₂.context)
    (hdigest : digest.of e₁.text = digest.of e₂.text → e₁.text = e₂.text) :
    eventIdempotencyKey digest e₁ ≠ eventIdempotencyKey digest e₂ ↔ Separates e₁ e₂ := by
  constructor
  · intro h
    by_contra hsame
    simp only [Separates, not_or, not_not] at hsame
    obtain ⟨hkind, htool, htext⟩ := hsame
    apply h
    rw [eventIdempotencyKey, eventIdempotencyKey, hcontext, hkind, htool, htext]
  · intro hsep h
    rw [eventIdempotencyKey, eventIdempotencyKey, hcontext] at h
    obtain ⟨hkind, htool, hof⟩ := joinKey_inj h (colon_not_mem_value e₁.kind)
      (colon_not_mem_value e₂.kind) ((digest.length _).trans (digest.length _).symm)
    rcases hsep with hne | hne | hne
    · exact hne (value_inj hkind)
    · exact hne htool
    · exact hne (hdigest hof)

end Keys

section Server

open InMemoryMemoryStore RetentionService

variable {privacy : PrivacyGuard} {s t : InMemoryMemoryStore} {d : Draws} {c c' : RetainCommand}

/-- The key of a command as the store keeps it. -/
def scopedKey (c : RetainCommand) : Option String :=
  scopeIdempotencyKey c.workspaceId c.idempotencyKey

/-- The server's answer to a command. -/
def serve (privacy : PrivacyGuard) (c : RetainCommand) (audit : Option AuditEvent) (d : Draws)
    (s : InMemoryMemoryStore) : Except Exn RetainResult × InMemoryMemoryStore :=
  (retain inMemoryRetention privacy c audit d).run s

/-- The store knows no other memory under the key of a command. -/
def Honest (s : InMemoryMemoryStore) (c : RetainCommand) : Prop :=
  ∀ e, s.replayed c.tenantId (scopedKey c) = some e →
    ∃ i, s.items.find e.itemId = some i ∧ Carries i c

/-- A text with a text that is not blank in it is not blank. -/
theorem isBlank_append (front back : String) {text : String} (h : Text.isBlank text = false) :
    Text.isBlank (front ++ text ++ back) = false := by
  rw [Text.isBlank, String.toList_append, String.toList_append, List.all_append, List.all_append,
    show text.toList.all isSpace = false from h, Bool.and_false, Bool.false_and]

theorem isBlank_eventText {e : AgentLifecycleEvent} (h : Text.isBlank e.text = false) :
    Text.isBlank (eventText e) = false := by
  rw [eventText]
  split
  · next toolName _ _ =>
    have htext := isBlank_append ("Tool `" ++ toolName ++ "`: ") "" h
    rwa [String.append_empty] at htext
  · next error _ _ =>
    have htext := isBlank_append "" ("\n\nError: " ++ error) h
    rwa [String.empty_append, ← String.append_assoc] at htext
  · exact h

/-- Without a guard, the text of a command is stored as it is. -/
theorem prepare_plain (hguard : privacy.enabled = false) {item : MemoryItem}
    {event : IntegrationEvent} (h : prepare privacy c d = .ok (item, event)) :
    item.layer = c.layer ∧ item.kind = c.kind ∧ item.text = c.text := by
  rw [prepare, PrivacyGuard.apply_of_disabled hguard, Except.ok_bind] at h
  obtain ⟨i, hnew, h⟩ := Except.bind_eq_ok.mp h
  cases h
  have hfields := MemoryItem.new_eq_ok.mp hnew
  refine ⟨?_, ?_, ?_⟩ <;> rw [hfields]

/-- What an unguarded command of the plugin is prepared to. -/
theorem exists_prepare_plain (hguard : privacy.enabled = false) {e : AgentLifecycleEvent}
    (h : Text.isBlank e.text = false) (d : Draws) :
    ∃ item event, prepare privacy (commandOf digest e) d = .ok (item, event) ∧
      item.id = d.uuid4 0 ∧ Carries item (commandOf digest e) := by
  have hscope : ∀ scope, (commandOf digest e).scope = scope → scope = .thread ∧
      (commandOf digest e).threadId ≠ none ∨ scope = .workspace := by
    rintro scope rfl
    cases hthread : e.context.threadId with
    | none => simp [commandOf, hthread]
    | some threadId => simp [commandOf, hthread]
  have hprepared : ∃ r, prepare privacy (commandOf digest e) d = .ok r :=
    exists_prepare d (PrivacyGuard.apply_of_disabled hguard _) (isBlank_eventText h)
      (by norm_num [commandOf]) (by norm_num [commandOf])
      (fun ht => (hscope _ ht).elim And.right (by simp))
      (fun hp => (hscope _ hp).elim (by simp) (by simp)) (by simp [commandOf])
  obtain ⟨⟨item, event⟩, hprepare⟩ := hprepared
  obtain ⟨hid, -, -, -, htenant, hworkspace, -, -⟩ := prepare_eq_ok hprepare
  obtain ⟨hlayer, hkind, htext⟩ := prepare_plain hguard hprepare
  exact ⟨item, event, hprepare, hid, htenant, hworkspace, hlayer, hkind, htext⟩

/-- What the store holds after a command: the memory under its key, or a new one. -/
inductive Served (c : RetainCommand) (d : Draws) (s : InMemoryMemoryStore) :
    Except Exn RetainResult → InMemoryMemoryStore → Prop
  /-- The key was used before. -/
  | known (item : MemoryItem) (mem : item ∈ s.items.rows) (carries : Carries item c) :
      Served c d s (.ok ⟨item, false, []⟩) s
  | stored (item : MemoryItem) (event : IntegrationEvent) (t : InMemoryMemoryStore)
      (id : item.id = d.uuid4 0) (carries : Carries item c)
      (writes : s.tables.Writes ⟨item, event, scopedKey c⟩ t.tables) :
      Served c d s (.ok ⟨item, true, [event.id]⟩) t

theorem serve_served (hguard : privacy.enabled = false) {e : AgentLifecycleEvent}
    (h : afterEvent config digest e = some c) (hs : Honest s c) (audit : Option AuditEvent)
    (d : Draws) :
    Served c d s (serve privacy c audit d s).1 (serve privacy c audit d s).2 := by
  obtain ⟨-, hblank, rfl⟩ := afterEvent_eq_some.mp h
  obtain ⟨item, event, hprepare, hid, hcarries⟩ := exists_prepare_plain hguard hblank d
  obtain ⟨e', he', -⟩ | ⟨item', event', hprepare', a, hrun⟩ :=
    run_retain privacy inMemoryRetention d s (commandOf digest e) audit
  · cases hprepare.symm.trans he'
  cases hprepare.symm.trans hprepare'
  rw [serve, hrun]
  have hkey : scopeIdempotencyKey item.workspaceId (commandOf digest e).idempotencyKey =
      scopedKey (commandOf digest e) := by rw [hcarries.workspace, scopedKey]
  simp only [inMemoryRetention]
  cases hused : s.replayed item.tenantId (scopedKey (commandOf digest e)) with
  | some entry =>
    rw [hcarries.tenant] at hused
    obtain ⟨i, hfind, hi⟩ := hs entry hused
    rw [← hcarries.tenant] at hused
    have hretain : s.retain item event (commandOf digest e).idempotencyKey a =
        (.ok (i, false), s) := by
      simp [InMemoryMemoryStore.retain, append, hkey, hused, itemAt, hfind, Except.map]
    rw [hretain]
    exact .known i (Table.find_eq_some.mp hfind).1 hi
  | none =>
    have hretain : s.retain item event (commandOf digest e).idempotencyKey a = (.ok (item, true),
        ((s.putItem item (scopedKey (commandOf digest e))).publish event).appendAuditEvent a) := by
      simp [InMemoryMemoryStore.retain, append, hkey, hused]
    rw [hretain]
    refine .stored item event _ hid hcarries ?_
    rw [appendAuditEvent_tables]
    exact publish_putItem_writes ..

/-- Two commands are served one after the other, and the memories of both are stored. -/
def BothKept (privacy : PrivacyGuard) (c c' : RetainCommand) (audit audit' : Option AuditEvent)
    (d d' : Draws) (s : InMemoryMemoryStore) : Prop :=
  ∃ r r', (serve privacy c audit d s).1 = .ok r ∧ Carries r.item c ∧
    (serve privacy c' audit' d' (serve privacy c audit d s).2).1 = .ok r' ∧ Carries r'.item c' ∧
    r.item ∈ (serve privacy c' audit' d' (serve privacy c audit d s).2).2.items.rows ∧
    r'.item ∈ (serve privacy c' audit' d' (serve privacy c audit d s).2).2.items.rows

/-- The identifier that a command draws is not stored. -/
def Unused (d : Draws) (s : InMemoryMemoryStore) : Prop := s.items.find (d.uuid4 0) = none

/-- What was stored stays stored. -/
theorem Served.mem {r : Except Exn RetainResult} (h : Served c d s r t) (hd : Unused d s)
    {i : MemoryItem} (hi : i ∈ s.items.rows) : i ∈ t.items.rows := by
  cases h with
  | known => exact hi
  | stored item event t id carries writes =>
    have hitems : t.items = s.items.put item := writes.items
    rw [hitems, Table.rows_put_of_fresh (id ▸ hd)]
    exact List.mem_append_left _ hi

/-- Under another key the store knows what it knew before. -/
theorem Served.honest {r : Except Exn RetainResult} (h : Served c d s r t) (hd : Unused d s)
    (hs : Honest s c') (hkey : scopedKey c' ≠ scopedKey c) : Honest t c' := by
  cases h with
  | known => exact hs
  | stored item event t id carries writes =>
    intro e he
    rw [replayed_of_writes writes hkey] at he
    obtain ⟨i, hfind, hi⟩ := hs e he
    have hitems : t.items = s.items.put item := writes.items
    refine ⟨i, ?_, hi⟩
    rw [hitems, Table.find_put_of_ne]
    · exact hfind
    · intro heq
      rw [heq, id] at hfind
      cases hfind.symm.trans hd

/-- The answer is the memory of the command, and it is stored. -/
theorem Served.answer {r : Except Exn RetainResult} (h : Served c d s r t) :
    ∃ result, r = .ok result ∧ Carries result.item c ∧ result.item ∈ t.items.rows := by
  cases h with
  | known item mem carries => exact ⟨_, rfl, carries, mem⟩
  | stored item event t id carries writes =>
    have hitems : t.items = s.items.put item := writes.items
    refine ⟨_, rfl, carries, ?_⟩
    rw [hitems]
    exact Table.mem_put.mpr (.inl rfl)

theorem Served.unused {r : Except Exn RetainResult} (h : Served c d s r t) {d' : Draws}
    (hd : Unused d' s) (hne : d'.uuid4 0 ≠ d.uuid4 0) : Unused d' t := by
  cases h with
  | known => exact hd
  | stored item event t id carries writes =>
    have hitems : t.items = s.items.put item := writes.items
    rw [Unused, hitems, Table.find_put_of_ne]
    · exact hd
    · rw [id]
      exact hne

/-- Two events with different keys are both kept. -/
theorem bothKept_of_keys_ne (hguard : privacy.enabled = false) {e e' : AgentLifecycleEvent}
    (h : afterEvent config digest e = some c) (h' : afterEvent config digest e' = some c')
    (hs : Honest s c) (hs' : Honest s c') (audit audit' : Option AuditEvent) {d d' : Draws}
    (hd : Unused d s) (hd' : Unused d' s) (hne : d'.uuid4 0 ≠ d.uuid4 0)
    (hkey : scopedKey c' ≠ scopedKey c) : BothKept privacy c c' audit audit' d d' s := by
  have hfirst := serve_served hguard h hs audit d
  have hsecond := serve_served hguard h' (hfirst.honest hd hs' hkey) audit' d'
  obtain ⟨r, hr, hcarries, hmem⟩ := hfirst.answer
  obtain ⟨r', hr', hcarries', hmem'⟩ := hsecond.answer
  exact ⟨r, r', hr, hcarries, hr', hcarries', hsecond.mem (hfirst.unused hd' hne) hmem, hmem'⟩

theorem scopedKey_ne_iff {e₁ e₂ : AgentLifecycleEvent} (hcontext : e₁.context = e₂.context) :
    scopedKey (commandOf digest e₁) ≠ scopedKey (commandOf digest e₂) ↔
      eventIdempotencyKey digest e₁ ≠ eventIdempotencyKey digest e₂ := by
  rw [not_iff_not]
  constructor
  · exact fun h => VaultExporter.scopeIdempotencyKey_inj h
  · intro h
    rw [scopedKey, scopedKey, commandOf, commandOf, hcontext, h]

/-- Two events of a run have different keys, and are both kept in either order, exactly if they
differ in their kind, in the tool that the key names, or in their text without the error. -/
theorem events_kept_iff (hguard : privacy.enabled = false) {e₁ e₂ : AgentLifecycleEvent}
    {c₁ c₂ : RetainCommand} (hcontext : e₁.context = e₂.context)
    (h₁ : afterEvent config digest e₁ = some c₁) (h₂ : afterEvent config digest e₂ = some c₂)
    (hdigest : digest.of e₁.text = digest.of e₂.text → e₁.text = e₂.text)
    (hs₁ : Honest s c₁) (hs₂ : Honest s c₂) (audit₁ audit₂ : Option AuditEvent) {d₁ d₂ : Draws}
    (hd₁ : Unused d₁ s) (hd₂ : Unused d₂ s) (hne : d₁.uuid4 0 ≠ d₂.uuid4 0) :
    (c₁.idempotencyKey ≠ c₂.idempotencyKey ∧
      BothKept privacy c₁ c₂ audit₁ audit₂ d₁ d₂ s ∧
      BothKept privacy c₂ c₁ audit₂ audit₁ d₂ d₁ s) ↔ Separates e₁ e₂ := by
  obtain ⟨-, -, rfl⟩ := afterEvent_eq_some.mp h₁
  obtain ⟨-, -, rfl⟩ := afterEvent_eq_some.mp h₂
  have hkeys : (commandOf digest e₁).idempotencyKey ≠ (commandOf digest e₂).idempotencyKey ↔
      eventIdempotencyKey digest e₁ ≠ eventIdempotencyKey digest e₂ :=
    not_congr ⟨Option.some.inj, congrArg some⟩
  rw [hkeys, ← key_ne_iff hcontext hdigest]
  constructor
  · exact fun h => h.1
  · intro h
    have hscoped := (scopedKey_ne_iff hcontext).mpr h
    exact ⟨h, bothKept_of_keys_ne hguard h₁ h₂ hs₁ hs₂ audit₁ audit₂ hd₁ hd₂ hne.symm hscoped.symm,
      bothKept_of_keys_ne hguard h₂ h₁ hs₂ hs₁ audit₂ audit₁ hd₂ hd₁ hne hscoped⟩

/-- Everything is retained. -/
def retainAll : AgentMemoryConfig := ⟨true, true, true, true⟩

/-- The first characters of a text stand for its hash. -/
def prefixDigest : StableDigest where
  of text := String.ofList ((text.toList ++ List.replicate 24 '0').take 24)
  length text := by simp

/-- An error of a run. -/
def failed (text error : String) : AgentLifecycleEvent where
  kind := .error
  text := text
  context := { tenantId := UUID.ofNat 1, workspaceId := UUID.ofNat 2 }
  error := some error

/-- A guard that is switched off. -/
def noGuard : PrivacyGuard := { enabled := false }

/-- The identifiers from a number on. -/
def drawsFrom (n : ℕ) : Draws := ⟨fun i => UUID.ofNat (n + i), fun _ => .ofMicros 0⟩

theorem events_kept_iff_texts :
    ((commandOf prefixDigest (failed "read" "denied")).idempotencyKey ≠
        (commandOf prefixDigest (failed "write" "denied")).idempotencyKey ∧
      BothKept noGuard (commandOf prefixDigest (failed "read" "denied"))
        (commandOf prefixDigest (failed "write" "denied")) none none (drawsFrom 10) (drawsFrom 20)
        .empty ∧
      BothKept noGuard (commandOf prefixDigest (failed "write" "denied"))
        (commandOf prefixDigest (failed "read" "denied")) none none (drawsFrom 20) (drawsFrom 10)
        .empty) ↔ Separates (failed "read" "denied") (failed "write" "denied") :=
  have hread : afterEvent retainAll prefixDigest (failed "read" "denied") =
      some (commandOf prefixDigest (failed "read" "denied")) :=
    afterEvent_eq_some.mpr ⟨by decide, by decide +kernel, rfl⟩
  have hwrite : afterEvent retainAll prefixDigest (failed "write" "denied") =
      some (commandOf prefixDigest (failed "write" "denied")) :=
    afterEvent_eq_some.mpr ⟨by decide, by decide +kernel, rfl⟩
  have hempty : ∀ c, Honest .empty c := by
    intro c e h
    obtain ⟨k, -, hfind⟩ := Option.bind_eq_some_iff.mp h
    cases hfind
  have hcontext : (failed "read" "denied").context = (failed "write" "denied").context := rfl
  have hids : (drawsFrom 10).uuid4 0 ≠ (drawsFrom 20).uuid4 0 := by decide
  events_kept_iff rfl hcontext hread hwrite (by decide +kernel) (hempty _) (hempty _) none none rfl
    rfl hids

/-- Two errors with the same text have one key, and the second is dropped. -/
theorem events_merged :
    (commandOf prefixDigest (failed "upload failed" "disk full")).text ≠
        (commandOf prefixDigest (failed "upload failed" "timed out")).text ∧
      (commandOf prefixDigest (failed "upload failed" "disk full")).idempotencyKey =
        (commandOf prefixDigest (failed "upload failed" "timed out")).idempotencyKey ∧
      ((serve noGuard (commandOf prefixDigest (failed "upload failed" "timed out")) none
        (drawsFrom 20) (serve noGuard (commandOf prefixDigest (failed "upload failed" "disk full"))
          none (drawsFrom 10) .empty).2).2.items.rows.map fun item => item.text) =
        ["upload failed\n\nError: disk full"] := by
  refine ⟨by decide +kernel, rfl, by decide +kernel⟩

end Server

end AgentPlugin

end MemoryPlane
