import Mathlib.Logic.Function.Basic

/-!
# Programs of atomic calls

A program is a sequence of atomic calls on a shared state, each chosen after the result of the
one before, that ends with a value or an exception. Calls made before an exception stay made.
Alone, a program computes a state transformer; in a pool, a schedule says whose call comes
next, and a rule carries invariants along every schedule.
-/

/-- A sequence of computations returns when both parts return. -/
theorem Except.bind_eq_ok {ε α β : Type} {x : Except ε α} {f : α → Except ε β} {b : β} :
    (x >>= f) = .ok b ↔ ∃ a, x = .ok a ∧ f a = .ok b := by
  cases x with
  | error e =>
    constructor
    · intro h
      cases h
    · rintro ⟨a, h, -⟩
      cases h
  | ok a =>
    constructor
    · exact fun h => ⟨a, rfl, h⟩
    · rintro ⟨_, h, hf⟩
      cases h
      exact hf

/-- A mapped computation returns when the computation does. -/
theorem Except.map_eq_ok {ε α β : Type} {x : Except ε α} {f : α → β} {b : β} :
    x.map f = .ok b ↔ ∃ a, x = .ok a ∧ f a = b := by
  cases x with
  | error e =>
    constructor
    · intro h
      cases h
    · rintro ⟨a, h, -⟩
      cases h
  | ok a =>
    constructor
    · intro h
      exact ⟨a, rfl, Except.ok.inj h⟩
    · rintro ⟨a', h, rfl⟩
      cases h
      rfl

/-- A value is handed to the next step. -/
theorem Except.ok_bind {ε α β : Type} (a : α) (f : α → Except ε β) :
    (Except.ok a >>= f) = f a := rfl

/-- An error skips the next step. -/
theorem Except.error_bind {ε α β : Type} (e : ε) (f : α → Except ε β) :
    (Except.error e >>= f) = .error e := rfl

/-- Two successive changes of a result. -/
theorem Except.map_map {ε α β γ : Type} (x : Except ε α) (f : α → β) (g : β → γ) :
    (x.map f).map g = x.map fun a => g (f a) := by
  cases x <;> rfl

/-- A list of computations returns when each of them does. -/
theorem Except.mapM_eq_ok_iff {ε α β : Type} {f : α → Except ε β} {P : α → Prop} {g : α → β}
    {xs : List α} {ys : List β} (hf : ∀ x ∈ xs, ∀ y, f x = .ok y ↔ P x ∧ y = g x) :
    xs.mapM f = .ok ys ↔ (∀ x ∈ xs, P x) ∧ ys = xs.map g := by
  induction xs generalizing ys with
  | nil =>
    rw [List.mapM_nil]
    exact ⟨fun h => ⟨fun _ hx => absurd hx List.not_mem_nil, (Except.ok.inj h).symm⟩,
      fun h => congrArg Except.ok h.2.symm⟩
  | cons x xs ih =>
    have htail : ∀ ys, xs.mapM f = .ok ys ↔ (∀ x ∈ xs, P x) ∧ ys = xs.map g :=
      fun ys => ih fun x hx => hf x (List.mem_cons_of_mem _ hx)
    rw [List.mapM_cons, List.forall_mem_cons, List.map_cons]
    constructor
    · intro h
      obtain ⟨y, hy, h⟩ := Except.bind_eq_ok.mp h
      obtain ⟨zs, hzs, h⟩ := Except.bind_eq_ok.mp h
      cases h
      obtain ⟨hx, rfl⟩ := (hf x List.mem_cons_self y).mp hy
      obtain ⟨hxs, rfl⟩ := (htail zs).mp hzs
      exact ⟨⟨hx, hxs⟩, rfl⟩
    · rintro ⟨⟨hx, hxs⟩, rfl⟩
      rw [(hf x List.mem_cons_self (g x)).mpr ⟨hx, rfl⟩, Except.ok_bind,
        (htail (xs.map g)).mpr ⟨hxs, rfl⟩]
      rfl

/-- A successful result has a value. -/
theorem Except.exists_of_isOk {ε α : Type} {x : Except ε α} (h : x.isOk = true) :
    ∃ a, x = .ok a := by
  cases x with
  | error e => cases h
  | ok a => exact ⟨a, rfl⟩

/-- An unsuccessful result has an error. -/
theorem Except.exists_of_not_isOk {ε α : Type} {x : Except ε α} (h : x.isOk = false) :
    ∃ e, x = .error e := by
  cases x with
  | error e => exact ⟨e, rfl⟩
  | ok a => cases h

/-- A program over the state `σ` with exceptions `ε` and results `α`. -/
inductive Proc (σ ε α : Type) : Type
  /-- The program has returned. -/
  | done (a : α)
  /-- The program has raised. -/
  | raise (e : ε)
  /-- One atomic call changes the state; the rest depends on the state it found. -/
  | call (act : σ → σ) (next : σ → Proc σ ε α)

namespace Proc

variable {σ ε α β : Type}

/-- Sequencing: calls of the first program precede those of the second. -/
protected def bind : Proc σ ε α → (α → Proc σ ε β) → Proc σ ε β
  | .done a, f => f a
  | .raise e, _ => .raise e
  | .call act next, f => .call act fun s => (next s).bind f

instance : Monad (Proc σ ε) where
  pure := .done
  bind := Proc.bind

/-- One atomic call that may raise; its writes stay either way. -/
def invoke (f : σ → Except ε α × σ) : Proc σ ε α :=
  .call (fun s => (f s).2) fun s =>
    match (f s).1 with
    | .ok a => .done a
    | .error e => .raise e

/-- One atomic call that returns a value. -/
def effect (f : σ → α × σ) : Proc σ ε α := .call (fun s => (f s).2) fun s => .done (f s).1

/-- One atomic call that only reads. -/
def read (f : σ → α) : Proc σ ε α := .call id fun s => .done (f s)

/-- A computation that touches no shared state. -/
def ofExcept : Except ε α → Proc σ ε α
  | .ok a => .done a
  | .error e => .raise e

/-- What a program does when nothing else runs. -/
def run : Proc σ ε α → σ → Except ε α × σ
  | .done a, s => (.ok a, s)
  | .raise e, s => (.error e, s)
  | .call act next, s => (next s).run (act s)

/-- A finished process returns without touching the state. -/
@[simp] theorem run_done (a : α) (s : σ) : (done a : Proc σ ε α).run s = (.ok a, s) := rfl

/-- A pure value is returned without touching the state. -/
@[simp] theorem run_pure (a : α) (s : σ) : (pure a : Proc σ ε α).run s = (.ok a, s) := rfl

/-- An exception is raised without touching the state. -/
@[simp] theorem run_raise (e : ε) (s : σ) : (raise e : Proc σ ε α).run s = (.error e, s) := rfl

/-- A reading returns what it sees and leaves it there. -/
@[simp] theorem run_read (f : σ → α) (s : σ) : (read f : Proc σ ε α).run s = (.ok (f s), s) := rfl

/-- An effect returns its result beside the new state. -/
@[simp] theorem run_effect (f : σ → α × σ) (s : σ) :
    (effect f : Proc σ ε α).run s = (.ok (f s).1, (f s).2) := rfl

/-- A call of an atomic operation is that operation. -/
@[simp] theorem run_invoke (f : σ → Except ε α × σ) (s : σ) : (invoke f).run s = f s := by
  rcases h : f s with ⟨r, t⟩
  cases r <;> simp [invoke, run, h]

/-- A result computed beforehand is handed on as it is. -/
@[simp] theorem run_ofExcept (x : Except ε α) (s : σ) :
    (ofExcept x : Proc σ ε α).run s = (x, s) := by
  cases x <;> rfl

/-- The second process runs on what the first left, unless that one failed. -/
theorem run_bind (p : Proc σ ε α) (f : α → Proc σ ε β) (s : σ) :
    (p >>= f).run s = match p.run s with
      | (.ok a, t) => (f a).run t
      | (.error e, t) => (.error e, t) := by
  change (p.bind f).run s = _
  induction p generalizing s with
  | done a => rfl
  | raise e => rfl
  | call act next ih => exact ih s (act s)

/-- A program that is one call that may raise. -/
theorem invoke_eq_call {f : σ → Except ε α × σ} {act : σ → σ} {next : σ → Proc σ ε α}
    (h : invoke f = .call act next) (s : σ) :
    act s = (f s).2 ∧ ((∃ a, (f s).1 = .ok a ∧ next s = .done a) ∨
      ∃ e, (f s).1 = .error e ∧ next s = .raise e) := by
  cases h
  refine ⟨rfl, ?_⟩
  cases hr : (f s).1 with
  | error e => exact .inr ⟨e, rfl, by simp only [hr]⟩
  | ok a => exact .inl ⟨a, rfl, by simp only [hr]⟩

/-- What a program returns, after its result is wrapped. -/
theorem run_wrap (p : Proc σ ε α) (f : α → β) (s : σ) :
    (p >>= fun a => pure (f a)).run s = ((p.run s).1.map f, (p.run s).2) := by
  rw [run_bind]
  rcases p.run s with ⟨r, t⟩
  cases r <;> rfl

/-- A sequence returns when both parts return. -/
theorem run_bind_ok {p : Proc σ ε α} {f : α → Proc σ ε β} {s t : σ} {b : β} :
    (p >>= f).run s = (.ok b, t) ↔
      ∃ a u, p.run s = (.ok a, u) ∧ (f a).run u = (.ok b, t) := by
  rw [run_bind]
  rcases p.run s with ⟨r, u⟩
  cases r with
  | error e => simp
  | ok a => exact ⟨fun h => ⟨a, u, rfl, h⟩, fun ⟨_, _, he, h⟩ => by cases he; exact h⟩

/-- A sequence raises in its first part or in its second. -/
theorem run_bind_error {p : Proc σ ε α} {f : α → Proc σ ε β} {s t : σ} {e : ε} :
    (p >>= f).run s = (.error e, t) ↔
      p.run s = (.error e, t) ∨
        ∃ a u, p.run s = (.ok a, u) ∧ (f a).run u = (.error e, t) := by
  rw [run_bind]
  rcases p.run s with ⟨r, u⟩
  cases r with
  | error e' => simp
  | ok a =>
    constructor
    · exact fun h => .inr ⟨a, u, rfl, h⟩
    · rintro (h | ⟨_, _, he, h⟩)
      · cases h
      · cases he
        exact h

end Proc

namespace Pool

variable {σ ε α ι : Type} [DecidableEq ι]

/-- A shared state and, for each client, what it still has to do. -/
abbrev Config (σ ε α ι : Type) := σ × (ι → Proc σ ε α)

/-- One client makes its next call; a finished client does nothing. -/
def step (c : Config σ ε α ι) (i : ι) : Config σ ε α ι :=
  match c.2 i with
  | .call act next => (act c.1, Function.update c.2 i (next c.1))
  | _ => c

/-- The clients move in the order of a schedule. -/
def exec (c : Config σ ε α ι) (schedule : List ι) : Config σ ε α ι := schedule.foldl step c

/-- Every step of the schedule meets a condition on the state and the client before it. -/
def Always (G : σ → Proc σ ε α → Prop) : Config σ ε α ι → List ι → Prop
  | _, [] => True
  | c, i :: rest => G c.1 (c.2 i) ∧ Always G (step c i) rest

/-- Nobody moves in an empty schedule. -/
@[simp] theorem exec_nil (c : Config σ ε α ι) : exec c [] = c := rfl

/-- A schedule is its first move followed by the rest. -/
@[simp] theorem exec_cons (c : Config σ ε α ι) (i : ι) (rest : List ι) :
    exec c (i :: rest) = exec (step c i) rest := rfl

/-- Schedules run one after the other. -/
theorem exec_append (c : Config σ ε α ι) (xs ys : List ι) :
    exec c (xs ++ ys) = exec (exec c xs) ys := List.foldl_append

/-- What holds throughout a schedule holds throughout both of its halves. -/
theorem always_append {G : σ → Proc σ ε α → Prop} {c : Config σ ε α ι} {xs ys : List ι} :
    Always G c (xs ++ ys) ↔ Always G c xs ∧ Always G (exec c xs) ys := by
  induction xs generalizing c with
  | nil => simp [Always]
  | cons i rest ih => simp [Always, ih, and_assoc]

/-- An invariant that each admitted step keeps holds after every admitted schedule. -/
theorem exec_invariant {I : Config σ ε α ι → Prop} {G : σ → Proc σ ε α → Prop}
    (hstep : ∀ c i, I c → G c.1 (c.2 i) → I (step c i)) {c : Config σ ε α ι}
    {schedule : List ι} (hI : I c) (hG : Always G c schedule) : I (exec c schedule) := by
  induction schedule generalizing c with
  | nil => exact hI
  | cons i rest ih => exact ih (hstep c i hI hG.1) hG.2

/-- The case without a condition on the steps. -/
theorem exec_induction {I : Config σ ε α ι → Prop} (hstep : ∀ c i, I c → I (step c i))
    {c : Config σ ε α ι} (hI : I c) (schedule : List ι) : I (exec c schedule) := by
  induction schedule generalizing c with
  | nil => exact hI
  | cons i rest ih => exact ih (hstep c i hI)

/-- A condition on every step of a schedule, step by step. -/
theorem always_iff_forall_prefix {G : σ → Proc σ ε α → Prop} {c : Config σ ε α ι}
    {schedule : List ι} :
    Always G c schedule ↔
      ∀ pre i post, schedule = pre ++ i :: post → G (exec c pre).1 ((exec c pre).2 i) := by
  induction schedule generalizing c with
  | nil => simp [Always]
  | cons j rest ih =>
    rw [Always, ih]
    constructor
    · rintro ⟨hj, hrest⟩ pre i post he
      cases pre with
      | nil =>
        cases he
        exact hj
      | cons k pre =>
        cases he
        exact hrest pre i post rfl
    · intro h
      exact ⟨h [] j rest rfl, fun pre i post he => h (j :: pre) i post (by rw [he]; rfl)⟩

/-- A client without a call does nothing. -/
theorem step_of_no_call {c : Config σ ε α ι} {i : ι} (h : ∀ act next, c.2 i ≠ .call act next) :
    step c i = c := by
  unfold step
  cases hp : c.2 i with
  | done a => rfl
  | raise e => rfl
  | call act next => exact absurd hp (h act next)

/-- The step of a client that has a call to make. -/
theorem step_of_call {c : Config σ ε α ι} {i : ι} {act : σ → σ} {next : σ → Proc σ ε α}
    (h : c.2 i = .call act next) :
    step c i = (act c.1, Function.update c.2 i (next c.1)) := by
  simp [step, h]

/-- Invariants that speak of the state, and of each client by itself, may be kept call by
call. -/
theorem step_of_calls {J : σ → Prop} {Φ : Proc σ ε α → Prop} {c : Config σ ε α ι} {i : ι}
    (hcall : ∀ act next, c.2 i = .call act next → J (act c.1) ∧ Φ (next c.1))
    (hJ : J c.1) (hΦ : ∀ j, Φ (c.2 j)) : J (step c i).1 ∧ ∀ j, Φ ((step c i).2 j) := by
  unfold step
  cases hp : c.2 i with
  | done a => exact ⟨hJ, hΦ⟩
  | raise e => exact ⟨hJ, hΦ⟩
  | call act next =>
    obtain ⟨hJ', hΦ'⟩ := hcall act next hp
    refine ⟨hJ', fun j => ?_⟩
    by_cases hj : j = i
    · subst hj
      simpa using hΦ'
    · simpa [Function.update_of_ne hj] using hΦ j

/-- Rely and guarantee: what a client knows of the state may survive the calls of the others,
because each call only changes the state as its client promises. -/
theorem step_of_guarantees {J : σ → Prop} {R : ι → σ → σ → Prop} {Φ : ι → σ → Proc σ ε α → Prop}
    {c : Config σ ε α ι} {i : ι}
    (hstable : ∀ j p s s', j ≠ i → R i s s' → Φ j s p → Φ j s' p)
    (hcall : ∀ act next, c.2 i = .call act next →
      J (act c.1) ∧ R i c.1 (act c.1) ∧ Φ i (act c.1) (next c.1))
    (hJ : J c.1) (hΦ : ∀ j, Φ j c.1 (c.2 j)) :
    J (step c i).1 ∧ ∀ j, Φ j (step c i).1 ((step c i).2 j) := by
  unfold step
  cases hp : c.2 i with
  | done a => exact ⟨hJ, hΦ⟩
  | raise e => exact ⟨hJ, hΦ⟩
  | call act next =>
    obtain ⟨hJ', hR, hΦ'⟩ := hcall act next hp
    refine ⟨hJ', fun j => ?_⟩
    by_cases hj : j = i
    · subst hj
      simpa using hΦ'
    · simpa [Function.update_of_ne hj] using hstable j (c.2 j) _ _ hj hR (hΦ j)

end Pool
