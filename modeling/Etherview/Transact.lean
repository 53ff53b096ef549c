import Mathlib.Tactic.Common

/-! # Failing stateful computations whose mutations survive a failure

    `Tx σ ε α` runs on a state, may change it, and ends in a value or an error.
    A change made before the error is *not* rolled back, so that "a failed call
    changes nothing" is a property to prove and not a consequence of the type.

    * `Tx.run_bind_ok` and its companions take a successful run apart, one bind
      at a time;
    * `Tx.Atomic` says that a failed run leaves the state alone.  It composes:
      reads first, then a computation that cannot fail (`Atomic.bind`,
      `NeverFails.atomic`). -/

namespace Transact

open List

variable {σ ε α β : Type}

/-! ## Pure failures -/

/-- Reject with `e` when the condition holds. -/
def failIf (c : Prop) [Decidable c] (e : ε) : Except ε Unit := if c then .error e else .ok ()

/-- A check succeeds iff its condition does not hold. -/
@[simp] theorem failIf_eq_ok {c : Prop} [Decidable c] {e : ε} {u : Unit} :
    failIf c e = .ok u ↔ ¬ c := by
  unfold failIf
  by_cases h : c <;> simp [h]

/-- A check fails iff its condition holds. -/
@[simp] theorem failIf_eq_error {c : Prop} [Decidable c] {e e' : ε} :
    failIf c e = .error e' ↔ c ∧ e = e' := by
  unfold failIf
  by_cases h : c <;> simp [h]

variable {x : Except ε α} {f : α → Except ε β}

/-- Two steps succeed iff both do. -/
theorem bind_eq_ok {b : β} : (x >>= f) = .ok b ↔ ∃ a, x = .ok a ∧ f a = .ok b := by
  cases x with
  | error e =>
    constructor
    · intro h
      cases h
    · rintro ⟨a, h, -⟩
      cases h
  | ok a =>
    constructor
    · intro h
      exact ⟨a, rfl, h⟩
    · rintro ⟨a', h, hf⟩
      cases h
      exact hf

/-- Two steps fail iff one of them does. -/
theorem bind_eq_error {e : ε} :
    (x >>= f) = .error e ↔ x = .error e ∨ ∃ a, x = .ok a ∧ f a = .error e := by
  cases x with
  | error e' =>
    constructor
    · intro h
      cases h
      exact .inl rfl
    · rintro (h | ⟨a, h, -⟩)
      · cases h
        rfl
      · cases h
  | ok a =>
    constructor
    · intro h
      exact .inr ⟨a, rfl, h⟩
    · rintro (h | ⟨a', h, hf⟩)
      · cases h
      · cases h
        exact hf

variable {δ : Type} {g : ε → δ}

/-- Changing the errors of two steps. -/
theorem mapError_bind : (x >>= f).mapError g = x.mapError g >>= fun a => (f a).mapError g := by
  cases x with
  | error e => rfl
  | ok a => rfl

/-- Changing the error of a check. -/
theorem mapError_failIf {c : Prop} [Decidable c] {e : ε} :
    (failIf c e).mapError g = failIf c (g e) := by
  unfold failIf
  by_cases h : c
  · rw [if_pos h, if_pos h]
    rfl
  · rw [if_neg h, if_neg h]
    rfl

/-- A value that is returned. -/
theorem pure_eq_ok {a b : α} : (pure a : Except ε α) = .ok b ↔ a = b := by
  constructor
  · intro h
    cases h
    rfl
  · rintro rfl
    rfl

/-- Run a check on every element, stopping at the first failure. -/
def checkAll (check : α → Except ε Unit) : List α → Except ε Unit
  | [] => .ok ()
  | x :: rest => do
      check x
      checkAll check rest

/-- All checks succeed iff each does. -/
theorem checkAll_eq_ok {check : α → Except ε Unit} {l : List α} :
    checkAll check l = .ok () ↔ ∀ x ∈ l, check x = .ok () := by
  induction l with
  | nil => simp [checkAll]
  | cons x rest ih =>
    rw [checkAll, bind_eq_ok, forall_mem_cons, ← ih]
    constructor
    · rintro ⟨_, hx, hrest⟩
      exact ⟨hx, hrest⟩
    · rintro ⟨hx, hrest⟩
      exact ⟨(), hx, hrest⟩

/-! ## Properties of errors -/

/-- Every error of a computation has the property. -/
def Errs (P : ε → Prop) (x : Except ε α) : Prop := ∀ e, x = .error e → P e

section Errors

variable {P : ε → Prop}

theorem errs_ok {a : α} : Errs P (.ok a : Except ε α) := by
  intro e h
  cases h

theorem errs_error {e : ε} (h : P e) : Errs P (.error e : Except ε α) := by
  intro e' he
  cases he
  exact h

theorem errs_bind (hx : Errs P x) (hf : ∀ a, x = .ok a → Errs P (f a)) : Errs P (x >>= f) := by
  intro e h
  rcases bind_eq_error.mp h with h | ⟨a, ha, h⟩
  · exact hx e h
  · exact hf a ha e h

theorem errs_failIf {c : Prop} [Decidable c] {e : ε} (h : c → P e) : Errs P (failIf c e) := by
  intro e' he
  obtain ⟨hc, rfl⟩ := failIf_eq_error.mp he
  exact h hc

theorem errs_mapError {δ : Type} {Q : δ → Prop} {f : ε → δ} (hx : Errs P x)
    (h : ∀ e, P e → Q (f e)) : Errs Q (x.mapError f) := by
  cases x with
  | ok a => exact errs_ok
  | error e => exact errs_error (h e (hx e rfl))

/-- The errors of all checks. -/
theorem errs_checkAll {check : α → Except ε Unit} {l : List α}
    (h : ∀ x ∈ l, Errs P (check x)) : Errs P (checkAll check l) := by
  induction l with
  | nil => exact errs_ok
  | cons x rest ih =>
    refine errs_bind (h x mem_cons_self) fun _ _ => ?_
    exact ih fun y hy => h y (mem_cons_of_mem _ hy)

end Errors

/-! ## The state-and-error monad -/

/-- A computation on the state `σ` that returns `α` or fails with `ε`; the final
    state is reported in both cases. -/
structure Tx (σ ε α : Type) where
  run : σ → Except ε α × σ

namespace Tx

instance : Monad (Tx σ ε) where
  pure a := ⟨fun s => (.ok a, s)⟩
  bind x f := ⟨fun s =>
    match x.run s with
    | (.ok a, t) => (f a).run t
    | (.error e, t) => (.error e, t)⟩

/-- A pure failure as a computation. -/
def lift (x : Except ε α) : Tx σ ε α := ⟨fun s => (x, s)⟩

instance : MonadLift (Except ε) (Tx σ ε) := ⟨lift⟩

/-- Read the state. -/
def get : Tx σ ε σ := ⟨fun s => (.ok s, s)⟩

/-- Change the state. -/
def modify (f : σ → σ) : Tx σ ε Unit := ⟨fun s => (.ok (), f s)⟩

/-- Fail in the current state. -/
def throw (e : ε) : Tx σ ε α := ⟨fun s => (.error e, s)⟩

/-- Run the handler when the computation fails, keeping its mutations. -/
def onError (x : Tx σ ε α) (handler : ε → Tx σ ε α) : Tx σ ε α := ⟨fun s =>
    match x.run s with
    | (.ok a, t) => (.ok a, t)
    | (.error e, t) => (handler e).run t⟩

@[simp] theorem run_liftM (x : Except ε α) (s : σ) :
    (liftM x : Tx σ ε α).run s = (x, s) := rfl

@[simp] theorem run_modify (f : σ → σ) (s : σ) :
    (modify f : Tx σ ε Unit).run s = (.ok (), f s) := rfl

variable {x : Tx σ ε α} {f : α → Tx σ ε β} {s t : σ}

/-- A step that succeeded goes on. -/
theorem run_bind_of_ok {a : α} (h : x.run s = (.ok a, t)) : (x >>= f).run s = (f a).run t := by
  show (match x.run s with
    | (.ok a, t) => (f a).run t
    | (.error e, t) => (.error e, t)) = _
  rw [h]

variable {e : ε}

/-- A step that failed ends the call. -/
theorem run_bind_of_error (h : x.run s = (.error e, t)) : (x >>= f).run s = (.error e, t) := by
  show (match x.run s with
    | (.ok a, t) => (f a).run t
    | (.error e, t) => (.error e, t)) = _
  rw [h]

variable {b : β}

/-- Two steps succeed iff both do, one state after the other. -/
theorem run_bind_ok : (x >>= f).run s = (.ok b, t)
      ↔ ∃ a u, x.run s = (.ok a, u) ∧ (f a).run u = (.ok b, t) := by
  rcases hx : x.run s with ⟨e | a, u⟩
  · rw [run_bind_of_error hx]
    constructor
    · intro h
      cases h
    · rintro ⟨a, u', h, -⟩
      cases h
  · rw [run_bind_of_ok hx]
    constructor
    · intro h
      exact ⟨a, u, rfl, h⟩
    · rintro ⟨a', u', h, hf⟩
      cases h
      exact hf

/-- A value that is computed in the end. -/
theorem run_map_ok {g : α → β} (h : (x >>= fun a => pure (g a)).run s = (.ok b, t)) :
    ∃ a, x.run s = (.ok a, t) ∧ g a = b := by
  obtain ⟨a, u, hx, hpure⟩ := run_bind_ok.mp h
  cases hpure
  exact ⟨a, hx, rfl⟩

/-- Reading the state hands it to the rest. -/
@[simp] theorem run_get_bind (f : σ → Tx σ ε β) (s : σ) :
    (get >>= f).run s = (f s).run s := rfl

/-- A change is seen by the rest. -/
@[simp] theorem run_modify_bind (g : σ → σ) (f : Unit → Tx σ ε β) (s : σ) :
    (modify g >>= f).run s = (f ()).run (g s) := rfl

/-- A lifted check that precedes the rest of a successful run has passed and has
    not touched the state. -/
theorem run_liftM_bind_ok {x : Except ε α} : ((liftM x : Tx σ ε α) >>= f).run s = (.ok b, t)
      ↔ ∃ a, x = .ok a ∧ (f a).run s = (.ok b, t) := by
  rw [run_bind_ok]
  constructor
  · rintro ⟨a, u, h, hf⟩
    cases h
    exact ⟨a, rfl, hf⟩
  · rintro ⟨a, rfl, hf⟩
    exact ⟨a, s, rfl, hf⟩

/-- A call behind a check. -/
theorem run_check_bind_ok {x : Except ε Unit} {f : Unit → Tx σ ε β} :
    ((liftM x : Tx σ ε Unit) >>= f).run s = (.ok b, t)
      ↔ x = .ok () ∧ (f ()).run s = (.ok b, t) := by
  rw [run_liftM_bind_ok]
  constructor
  · rintro ⟨_, hx, hf⟩
    exact ⟨hx, hf⟩
  · rintro ⟨hx, hf⟩
    exact ⟨(), hx, hf⟩

/-- A failed run with a check in front: the check has failed, or the rest has. -/
theorem run_liftM_bind_error {x : Except ε α}
    (h : ((liftM x : Tx σ ε α) >>= f).run s = (.error e, t)) :
    (x = .error e ∧ t = s) ∨ ∃ a, x = .ok a ∧ (f a).run s = (.error e, t) := by
  cases x with
  | error e' =>
    cases h
    exact .inl ⟨rfl, rfl⟩
  | ok a =>
    exact .inr ⟨a, rfl, h⟩

/-- The error of a call whose result is replaced. -/
theorem run_bind_pure_error
    (h : (x >>= fun _ => pure b).run s = (.error e, t)) : x.run s = (.error e, t) := by
  cases hx : x.run s with
  | mk out u =>
    cases out with
    | error e' =>
      rw [run_bind_of_error hx] at h
      cases h
      rfl
    | ok a =>
      rw [run_bind_of_ok hx] at h
      cases h

/-- The state after a change. -/
theorem run_modify_ok {g : σ → σ} {u : Unit} :
    (modify g : Tx σ ε Unit).run s = (.ok u, t) ↔ t = g s := by
  rw [run_modify]
  constructor
  · intro h
    cases h
    rfl
  · rintro rfl
    rfl

/-! ## Failure atomicity -/

/-- A failed run leaves the state as it was. -/
def Atomic (x : Tx σ ε α) : Prop := ∀ s e t, x.run s = (.error e, t) → t = s

/-- No run changes the state. -/
def ReadOnly (x : Tx σ ε α) : Prop := ∀ s, (x.run s).2 = s

/-- The call succeeds in every state. -/
def NeverFails (x : Tx σ ε α) : Prop := ∀ s e t, x.run s ≠ (.error e, t)

/-- A call that never fails is atomic. -/
theorem NeverFails.atomic (h : NeverFails x) : Atomic x := by
  intro s e t hrun
  exact absurd hrun (h s e t)

theorem readOnly_liftM (x : Except ε α) : ReadOnly (liftM x : Tx σ ε α) := fun _ => rfl

theorem readOnly_get : ReadOnly (get : Tx σ ε σ) := fun _ => rfl

theorem neverFails_pure {a : α} : NeverFails (pure a : Tx σ ε α) := by
  intro s e t h
  cases h

/-- Changing the state never fails. -/
theorem neverFails_modify {f : σ → σ} : NeverFails (modify f : Tx σ ε Unit) := by
  intro s e t h
  cases h

theorem NeverFails.bind (hx : NeverFails x)
    (hf : ∀ a, NeverFails (f a)) : NeverFails (x >>= f) := by
  intro s e t h
  rcases hrun : x.run s with ⟨e' | a, u⟩
  · exact hx s e' u hrun
  · rw [run_bind_of_ok hrun] at h
    exact hf a u e t h

/-- **Reads first**: what follows a read-only prefix decides atomicity. -/
theorem Atomic.bind (hx : ReadOnly x) (hf : ∀ a, Atomic (f a)) : Atomic (x >>= f) := by
  intro s e t h
  have hs := hx s
  rcases hrun : x.run s with ⟨e' | a, u⟩
  · rw [run_bind_of_error hrun] at h
    cases h
    rw [hrun] at hs
    exact hs
  · rw [run_bind_of_ok hrun] at h
    rw [hrun] at hs
    have hu : u = s := hs
    rw [hu] at h
    exact hf a s e t h

/-- **Writes last**: what cannot fail does not spoil atomicity. -/
theorem Atomic.andThen (hx : Atomic x) (hf : ∀ a, NeverFails (f a)) : Atomic (x >>= f) := by
  intro s e t h
  rcases hrun : x.run s with ⟨e' | a, u⟩
  · rw [run_bind_of_error hrun] at h
    cases h
    exact hx s e t hrun
  · rw [run_bind_of_ok hrun] at h
    exact absurd h (hf a u e t)

/-- A lifted check before an atomic rest. -/
theorem Atomic.check {x : Except ε α} (hf : ∀ a, Atomic (f a)) :
    Atomic ((liftM x : Tx σ ε α) >>= f) := Atomic.bind (readOnly_liftM x) hf

theorem Atomic.read {f : σ → Tx σ ε β} (hf : ∀ s, Atomic (f s)) :
    Atomic (get >>= f) := Atomic.bind readOnly_get hf

end Tx

/-! ## Runs -/

section Runs

variable {σ α : Type} (step : σ → α → σ) (s : σ) (events : List α)

/-- The state after the first `i` events of a run. -/
def stateAt (i : Nat) : σ := (events.take i).foldl step s

/-- The state after one more event. -/
theorem stateAt_succ {i : Nat} {e : α} (h : events[i]? = some e) :
    stateAt step s events (i + 1) = step (stateAt step s events i) e := by
  rw [stateAt, take_add_one, h, foldl_append]
  rfl

/-- **The run rule**: what holds after `j` events and is kept by each later step
    holds after every later number of events. -/
theorem stateAt_induction {P : Nat → σ → Prop} {j : Nat}
    (hbase : P j (stateAt step s events j))
    (hstep : ∀ i e, j ≤ i → events[i]? = some e → P i (stateAt step s events i) →
      P (i + 1) (step (stateAt step s events i) e)) :
    ∀ i, j ≤ i → i ≤ events.length → P i (stateAt step s events i) := by
  intro i hji
  induction hji with
  | refl =>
    intro _
    exact hbase
  | @step i hji ih =>
    intro hlen
    have he := getElem?_eq_getElem (Nat.lt_of_succ_le hlen)
    rw [stateAt_succ step s events he]
    exact hstep i _ hji he (ih (Nat.le_of_succ_le hlen))

end Runs

/-- An element of one list has its partner in the other. -/
theorem exists_related {R : α → β → Prop} {l : List α} {m : List β}
    (h : Forall₂ R l m) {a : α} (ha : a ∈ l) : ∃ b ∈ m, R a b := by
  induction h with
  | nil => cases ha
  | cons hrel _ ih =>
    rcases mem_cons.mp ha with rfl | ha
    · exact ⟨_, mem_cons_self, hrel⟩
    · obtain ⟨b, hb, hr⟩ := ih ha
      exact ⟨b, mem_cons_of_mem _ hb, hr⟩

end Transact
