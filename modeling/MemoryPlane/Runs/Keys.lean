import MemoryPlane.Runs.ConflictReviews

/-!
# Idempotency keys in every run

A key that was used stays used for the same item, and an item is stored under one key at most. So
a retry finds the item of the first call however far its chain has moved on, and calls that return
the same item used the same key.
-/

namespace MemoryPlane

open InMemoryMemoryStore

namespace Ledger

variable {l : Ledger} {ws : List Write} {e : IdempotencyEntry}

/-- Writes under other keys leave the entry of a key. -/
theorem find_idempotency_commitAll {k : UUID × String} (h : l.idempotency.find k = some e)
    (hother : ∀ w ∈ ws, ∀ key, w.key = some key → (w.item.tenantId, key) ≠ k) :
    (l.commitAll ws).idempotency.find k = some e := by
  induction ws generalizing l with
  | nil => exact h
  | cons w ws ih =>
    rw [commitAll_cons]
    refine ih ?_ fun v hv => hother v (List.mem_cons_of_mem _ hv)
    cases hkey : w.key with
    | none => simpa [commit, hkey] using h
    | some key =>
      have hne : k ≠ (w.item.tenantId, key) := (hother w (List.mem_cons_self ..) key hkey).symm
      have hput := Table.find_put_of_ne (t := l.idempotency)
        (a := ⟨w.item.tenantId, key, w.item.id⟩) hne
      simp only [commit, hkey]
      exact hput.trans h

/-- Admitted writes keep the entries of the keys in use. -/
theorem Admits.keeps_key (h : l.Admits ws) {k : UUID × String}
    (hfound : l.idempotency.find k = some e) : (l.commitAll ws).idempotency.find k = some e := by
  apply find_idempotency_commitAll hfound
  rintro w hw key hkey rfl
  have hunused := h.unused w hw key hkey
  rw [hfound] at hunused
  cases hunused

/-- No item is stored under two keys. -/
def KeysTellItems (l : Ledger) : Prop :=
  ∀ e ∈ l.idempotency.rows, ∀ e' ∈ l.idempotency.rows, e.itemId = e'.itemId → e = e'

/-- An entry in use does not point to an item that is written anew. -/
theorem Keyed.itemId_ne (hk : l.Keyed) (h : l.Admits ws) (he : e ∈ l.idempotency.rows) {w : Write}
    (hw : w ∈ ws) : e.itemId ≠ w.item.id := by
  intro hid
  obtain ⟨i, hi, hitem, -⟩ := hk e he
  exact Table.find_eq_none.mp (h.freshItems w hw) i hi (hitem.trans hid)

theorem KeysTellItems.commitAll (ht : l.KeysTellItems) (hk : l.Keyed) (h : l.Admits ws) :
    (l.commitAll ws).KeysTellItems := by
  intro e he e' he' hsame
  rcases mem_idempotency_commitAll he with hold | ⟨w, hw, hkey, htenant, hid⟩
  · rcases mem_idempotency_commitAll he' with hold' | ⟨v, hv, -, -, hid'⟩
    · exact ht e hold e' hold' hsame
    · exact absurd (hsame.trans hid') (hk.itemId_ne h hold hv)
  · rcases mem_idempotency_commitAll he' with hold' | ⟨v, hv, hkey', htenant', hid'⟩
    · exact absurd (hsame.symm.trans hid) (hk.itemId_ne h hold' hw)
    · have hitem : w.item.id = v.item.id := hid.symm.trans (hsame.trans hid')
      obtain rfl := List.inj_on_of_nodup_map h.distinctItems hw hv hitem
      rw [hkey, Option.some.injEq] at hkey'
      cases e
      cases e'
      simp_all

end Ledger

variable {env : Deployment} {s t u : InMemoryMemoryStore}

theorem Reachable.keysTellItems (h : Reachable env s) : s.toLedger.KeysTellItems := by
  induction h with
  | empty => simp [Ledger.KeysTellItems, InMemoryMemoryStore.empty, Ledger.empty]
  | step op d before fresh ih =>
    obtain ⟨ws, hw⟩ := op.run_writes env before.consistent.chained fresh
    rw [hw.ledger]
    exact ih.commitAll before.consistent.keyed hw.admitted

theorem Later.trans (h : Later env s t) (h' : Later env t u) : Later env s u := by
  induction h' with
  | refl => exact h
  | step op d _ fresh ih => exact .step op d ih fresh

/-- A key in use stays in use for its item. -/
theorem Later.keeps_key (h : Later env s t) (hs : Reachable env s) {tenantId : UUID}
    {key : Option String} {e : IdempotencyEntry} (hused : s.replayed tenantId key = some e) :
    t.replayed tenantId key = some e := by
  induction h with
  | refl => exact hused
  | @step u op d before fresh ih =>
    obtain ⟨ws, hw⟩ := op.run_writes env (before.reachable hs).consistent.chained fresh
    obtain ⟨k, rfl, hfound⟩ := Option.bind_eq_some_iff.mp ih
    apply Option.bind_eq_some_iff.mpr
    refine ⟨k, rfl, ?_⟩
    rw [hw.ledger]
    exact hw.admitted.keeps_key hfound

/-- What is found in a store is found later. -/
theorem Later.found (h : Later env s t) (hs : Reachable env s) {tenantId itemId : UUID}
    {i : MemoryItem} (hfound : s.get tenantId itemId = some i) :
    t.get tenantId itemId = some i := by
  obtain ⟨hmem, hid, htenant⟩ := Ledger.get_eq_some.mp hfound
  exact Ledger.get_eq_some.mpr ⟨h.keeps_items hs hmem, hid, htenant⟩

/-- Keys that return the same item are the same key. -/
theorem Reachable.key_eq (h : Reachable env s) {tenantId tenantId' : UUID}
    {key key' : Option String} {e e' : IdempotencyEntry} (hused : s.replayed tenantId key = some e)
    (hused' : s.replayed tenantId' key' = some e') (hitem : e.itemId = e'.itemId) : key = key' := by
  obtain ⟨k, rfl, hfound⟩ := Option.bind_eq_some_iff.mp hused
  obtain ⟨k', rfl, hfound'⟩ := Option.bind_eq_some_iff.mp hused'
  obtain ⟨hmem, hkey⟩ := Table.find_eq_some.mp hfound
  obtain ⟨hmem', hkey'⟩ := Table.find_eq_some.mp hfound'
  obtain rfl := h.keysTellItems e hmem e' hmem' hitem
  have hpair : (tenantId, k) = (tenantId', k') := hkey.symm.trans hkey'
  obtain ⟨-, rfl⟩ := Prod.mk.inj hpair
  rfl

end MemoryPlane
