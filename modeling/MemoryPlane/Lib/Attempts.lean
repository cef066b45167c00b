import MemoryPlane.Lib.Proc

/-!
# Operations that may fail

A program of named operations runs in a world that says for each operation whether it fails, and
with which exception. A program performs a list of operations when it returns a fixed result in
every world in which none of them fails, and raises in every other world. A program keeps a
relation when the states before and after it are related, however it ends.
-/

/-- A state, and the exception with which an operation fails. -/
structure World (ω ε σ : Type) where
  faults : ω → Option ε
  state : σ

namespace World

variable {ω ε σ : Type}

/-- None of the operations fails. -/
def Sound (w : World ω ε σ) (ops : List ω) : Prop := ∀ op ∈ ops, w.faults op = none

/-- No fault hits two lists of operations when none hits either. -/
theorem sound_append {w : World ω ε σ} {ops ops' : List ω} :
    w.Sound (ops ++ ops') ↔ w.Sound ops ∧ w.Sound ops' := List.forall_mem_append

end World

namespace Proc

variable {ω ε σ α β : Type} {w w' w'' : World ω ε σ} {ops ops' : List ω} {a : α} {b : β}

/-- One operation, which fails as the world says or as it does by itself. -/
def attempt (op : ω) (f : σ → Except ε α × σ) : Proc (World ω ε σ) ε α :=
  invoke fun w =>
    match w.faults op with
    | some e => (.error e, w)
    | none => ((f w.state).1, { w with state := (f w.state).2 })

/-- A program with a last step for the case that it raises; its exception is raised again, unless
the last step raises itself. -/
def onError : Proc σ ε α → Proc σ ε Unit → Proc σ ε α
  | .done a, _ => .done a
  | .raise e, cleanup => cleanup >>= fun _ => .raise e
  | .call act next, cleanup => .call act fun s => (next s).onError cleanup

/-- The cleanup runs exactly when the process failed. -/
theorem run_onError (p : Proc σ ε α) (cleanup : Proc σ ε Unit) (s : σ) :
    (p.onError cleanup).run s = match p.run s with
      | (.ok a, t) => (.ok a, t)
      | (.error e, t) => (cleanup >>= fun _ => .raise e).run t := by
  induction p generalizing s with
  | done a => rfl
  | raise e => rfl
  | call act next ih => exact ih s (act s)

/-- In this world the program performs the operations: it returns if none of them fails, and raises
if one does. -/
structure Performs (p : Proc (World ω ε σ) ε α) (w : World ω ε σ) (ops : List ω) (a : α)
    (w' : World ω ε σ) : Prop where
  returns : w.Sound ops → p.run w = (.ok a, w')
  raises : ¬ w.Sound ops → ∃ e u, p.run w = (.error e, u)
  faults : w'.faults = w.faults

/-- A pure value needs no operation. -/
theorem performs_pure : Performs (pure a : Proc (World ω ε σ) ε α) w [] a w where
  returns _ := rfl
  raises h := absurd (fun _ hop => absurd hop List.not_mem_nil) h
  faults := rfl

/-- An operation that succeeds is performed. -/
theorem performs_attempt {op : ω} {f : σ → Except ε α × σ} {s : σ}
    (h : f w.state = (.ok a, s)) : Performs (attempt op f) w [op] a { w with state := s } where
  returns hsound := by
    rw [attempt, run_invoke, hsound op List.mem_cons_self, h]
  raises hfault := by
    have hop : w.faults op ≠ none := fun hnone => hfault fun op' hop' => by
      rwa [List.mem_singleton.mp hop']
    obtain ⟨e, he⟩ := Option.ne_none_iff_exists'.mp hop
    exact ⟨e, w, by rw [attempt, run_invoke, he]⟩
  faults := rfl

/-- The operations of a sequence are those of its parts. -/
theorem Performs.bind {p : Proc (World ω ε σ) ε α} {f : α → Proc (World ω ε σ) ε β}
    (hp : Performs p w ops a w') (hf : Performs (f a) w' ops' b w'') :
    Performs (p >>= f) w (ops ++ ops') b w'' where
  returns hsound := by
    obtain ⟨hfirst, hsecond⟩ := World.sound_append.mp hsound
    rw [run_bind, hp.returns hfirst]
    exact hf.returns fun op hop => hp.faults ▸ hsecond op hop
  raises hfault := by
    by_cases hfirst : w.Sound ops
    · have hsecond : ¬ w'.Sound ops' := fun h =>
        hfault (World.sound_append.mpr ⟨hfirst, fun op hop => hp.faults ▸ h op hop⟩)
      obtain ⟨e, u, he⟩ := hf.raises hsecond
      exact ⟨e, u, by rw [run_bind, hp.returns hfirst, ← he]⟩
    · obtain ⟨e, u, he⟩ := hp.raises hfirst
      exact ⟨e, u, by rw [run_bind, he]⟩
  faults := hf.faults.trans hp.faults

/-- What a program returns tells that none of its operations failed. -/
theorem Performs.of_ok {p : Proc (World ω ε σ) ε α} (hp : Performs p w ops a w') {a' : α}
    {u : World ω ε σ} (h : p.run w = (.ok a', u)) : w.Sound ops ∧ a' = a ∧ u = w' := by
  by_cases hsound : w.Sound ops
  · have hrun := hp.returns hsound
    rw [h] at hrun
    cases hrun
    exact ⟨hsound, rfl, rfl⟩
  · obtain ⟨e, v, he⟩ := hp.raises hsound
    cases h.symm.trans he

/-- A last step for the case of an exception changes nothing where there is none. -/
theorem Performs.onError {p : Proc (World ω ε σ) ε α} (hp : Performs p w ops a w')
    (cleanup : Proc (World ω ε σ) ε Unit) : Performs (p.onError cleanup) w ops a w' where
  returns hsound := by rw [run_onError, hp.returns hsound]
  raises hfault := by
    obtain ⟨e, u, he⟩ := hp.raises hfault
    rw [run_onError, he]
    simp only [run_bind]
    rcases cleanup.run u with ⟨r, v⟩
    cases r with
    | ok _ => exact ⟨e, v, rfl⟩
    | error e' => exact ⟨e', v, rfl⟩
  faults := hp.faults

/-- However a program ends, the state before it and the state after it are related. -/
def Keeps (R : σ → σ → Prop) (p : Proc (World ω ε σ) ε α) : Prop :=
  ∀ w, R w.state (p.run w).2.state

section Keeping

variable {R : σ → σ → Prop}

/-- A pure value keeps every reflexive relation. -/
theorem keeps_pure (hrefl : ∀ s, R s s) (a : α) :
    Keeps R (pure a : Proc (World ω ε σ) ε α) := fun w => hrefl w.state

/-- An exception keeps every reflexive relation. -/
theorem keeps_raise (hrefl : ∀ s, R s s) (e : ε) :
    Keeps R (raise e : Proc (World ω ε σ) ε α) := fun w => hrefl w.state

/-- An operation keeps what its effect keeps, fault or not. -/
theorem keeps_attempt (hrefl : ∀ s, R s s) (op : ω) {f : σ → Except ε α × σ}
    (h : ∀ s, R s (f s).2) : Keeps R (attempt op f) := by
  intro w
  rw [attempt, run_invoke]
  cases w.faults op with
  | some e => exact hrefl w.state
  | none => exact h w.state

/-- A chain keeps a transitive relation that both of its parts keep. -/
theorem Keeps.bind (htrans : ∀ s t u, R s t → R t u → R s u) {p : Proc (World ω ε σ) ε α}
    {f : α → Proc (World ω ε σ) ε β} (hp : Keeps R p) (hf : ∀ a, Keeps R (f a)) :
    Keeps R (p >>= f) := by
  intro w
  have hfirst := hp w
  rw [run_bind]
  rcases hrun : p.run w with ⟨r, u⟩
  rw [hrun] at hfirst
  cases r with
  | error e => exact hfirst
  | ok a => exact htrans _ _ _ hfirst (hf a u)

/-- A program that raises leaves the state before it and the state after it related. -/
def KeepsOnError (R : σ → σ → Prop) (p : Proc (World ω ε σ) ε α) : Prop :=
  ∀ w e u, p.run w = (.error e, u) → R w.state u.state

/-- What is always kept is kept on errors. -/
theorem Keeps.keepsOnError {p : Proc (World ω ε σ) ε α} (hp : Keeps R p) : KeepsOnError R p := by
  intro w e u h
  have hw := hp w
  rwa [h] at hw

/-- A chain keeps on errors what its first part always keeps. -/
theorem KeepsOnError.bind (htrans : ∀ s t u, R s t → R t u → R s u)
    {p : Proc (World ω ε σ) ε α} {f : α → Proc (World ω ε σ) ε β} (hp : Keeps R p)
    (hf : ∀ a, KeepsOnError R (f a)) : KeepsOnError R (p >>= f) := by
  intro w e u h
  have hfirst := hp w
  obtain hraised | ⟨a, v, hran, hraised⟩ := run_bind_error.mp h
  · rwa [hraised] at hfirst
  · rw [hran] at hfirst
    exact htrans _ _ _ hfirst (hf a v e u hraised)

/-- An operation that only fails before it does anything may be the last one. -/
theorem keepsOnError_last (hrefl : ∀ s, R s s) (op : ω) (f : σ → σ) (a : α) :
    KeepsOnError R (attempt op (fun s => (.ok (), f s)) >>= fun _ => pure a :
      Proc (World ω ε σ) ε α) := by
  intro w e u h
  rw [run_bind, attempt, run_invoke] at h
  cases hop : w.faults op with
  | some e' =>
    rw [hop] at h
    cases h
    exact hrefl w.state
  | none =>
    rw [hop] at h
    cases h

/-- A cleanup that keeps the relation may follow a failure. -/
theorem KeepsOnError.onError (htrans : ∀ s t u, R s t → R t u → R s u)
    {p : Proc (World ω ε σ) ε α} {cleanup : Proc (World ω ε σ) ε Unit} (hp : KeepsOnError R p)
    (hcleanup : Keeps R cleanup) : KeepsOnError R (p.onError cleanup) := by
  intro w e u h
  rw [run_onError] at h
  rcases hrun : p.run w with ⟨r, v⟩
  rw [hrun] at h
  cases r with
  | ok a => cases h
  | error e' =>
    have hcleaned := hcleanup v
    refine htrans _ _ _ (hp w e' v hrun) ?_
    obtain hraised | ⟨_, v', hran, hraised⟩ := run_bind_error.mp h
    · rwa [hraised] at hcleaned
    · rw [hran] at hcleaned
      cases hraised
      exact hcleaned

end Keeping

end Proc
