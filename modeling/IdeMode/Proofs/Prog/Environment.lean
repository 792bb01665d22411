import IdeMode.Prog
set_option autoImplicit false

/-!
# Programs in an environment

While a program waits, anything may happen to the state that it shares with others. An environment
says what: it is asked at every wait, and answers with the signal that ends the wait and the state
in which the program goes on. It may remember things of its own. A program that runs in an
environment comes to its end, because it is finite in depth. Without an environment it runs up to
its next wait.
-/

namespace IdeMode.Prog

/-- What happens while a program waits. `ε` is what the environment remembers. -/
abbrev Environment (σ ω ε : Type) : Type := ω → Option Int → σ → ε → Signal × σ × ε

variable {σ ω ε α β : Type}

/-- Runs a program to its end; the environment acts at every wait. -/
def runIn (env : Environment σ ω ε) : Prog σ ω α → σ → ε → Result α × σ × ε
  | .done r, s, e => (r, s, e)
  | .look next, s, e => runIn env (next s) s e
  | .store s next, _, e => runIn env next s e
  | .wait on deadline next, s, e =>
    runIn env (next (env on deadline s e).1) (env on deadline s e).2.1 (env on deadline s e).2.2

variable (env : Environment σ ω ε)

@[simp] theorem runIn_pure (a : α) (s : σ) (e : ε) : runIn env (pure a) s e = (.ok a, s, e) := rfl

@[simp] theorem runIn_throw (f : Fault) (s : σ) (e : ε) :
    runIn env (throw f : Prog σ ω α) s e = (.error f, s, e) := rfl

@[simp] theorem runIn_get (s : σ) (e : ε) : runIn env (get : Prog σ ω σ) s e = (.ok s, s, e) := rfl

@[simp] theorem runIn_modify (f : σ → σ) (s : σ) (e : ε) :
    runIn env (modify f : Prog σ ω PUnit) s e = (.ok PUnit.unit, f s, e) := rfl

@[simp] theorem runIn_await (on : ω) (deadline : Option Int) (s : σ) (e : ε) :
    runIn env (await on deadline) s e =
      (.ok (env on deadline s e).1, (env on deadline s e).2.1, (env on deadline s e).2.2) := rfl

/-- A program that goes on runs to the end of its first part, and from there on if that ends
well. -/
theorem runIn_bind (p : Prog σ ω α) (f : α → Prog σ ω β) (s : σ) (e : ε) :
    runIn env (p >>= f) s e =
      match runIn env p s e with
      | (.ok a, s', e') => runIn env (f a) s' e'
      | (.error fault, s', e') => (.error fault, s', e') := by
  induction p generalizing s e with
  | done r => cases r <;> rfl
  | look next ih => exact ih s s e
  | store s' next ih => exact ih s' e
  | wait on deadline next ih => exact ih _ _ _

variable {p : Prog σ ω α} {f : α → Prog σ ω β} {r : Result α}

theorem runIn_bind_ok {s s' : σ} {e e' : ε} {a : α} (h : runIn env p s e = (.ok a, s', e')) :
    runIn env (p >>= f) s e = runIn env (f a) s' e' := by
  rw [runIn_bind, h]

theorem runIn_bind_error {s s' : σ} {e e' : ε} {fault : Fault}
    (h : runIn env p s e = (.error fault, s', e')) :
    runIn env (p >>= f) s e = (.error fault, s', e') := by
  rw [runIn_bind, h]

theorem exists_of_runIn_bind_ok {s s' : σ} {e e' : ε} {b : β}
    (h : runIn env (p >>= f) s e = (.ok b, s', e')) :
    ∃ a s₁ e₁, runIn env p s e = (.ok a, s₁, e₁) ∧ runIn env (f a) s₁ e₁ = (.ok b, s', e') := by
  rw [runIn_bind] at h
  split at h
  · next a s₁ e₁ hp => exact ⟨a, s₁, e₁, hp, h⟩
  · cases h

theorem runIn_bind_pure (p : Prog σ ω α) (f : α → β) (s : σ) (e : ε) :
    runIn env (p >>= fun a => pure (f a)) s e =
      ((runIn env p s e).1.map f, (runIn env p s e).2) := by
  rw [runIn_bind]
  rcases runIn env p s e with ⟨fault | a, s', e'⟩ <;> rfl

/-- An attempt runs like the program itself, and its outcome becomes a value. -/
theorem runIn_attempt (p : Prog σ ω α) (s : σ) (e : ε) :
    runIn env p.attempt s e =
      (.ok (runIn env p s e).1, (runIn env p s e).2.1, (runIn env p s e).2.2) := by
  induction p generalizing s e with
  | done r => rfl
  | look next ih => exact ih s s e
  | store s' next ih => exact ih s' e
  | wait on deadline next ih => exact ih _ _ _

/-! ## Up to the next wait -/

/-- A program that ends without a wait ends so in every environment. -/
theorem runIn_of_run_finished {s s' : σ} (h : run p s = (.finished r, s')) (e : ε) :
    runIn env p s e = (r, s', e) := by
  induction p generalizing s with
  | done r' =>
    cases h
    rfl
  | look next ih => exact ih s h
  | store s₁ next ih => exact ih h
  | wait on deadline next ih => cases h

theorem run_bind (p : Prog σ ω α) (f : α → Prog σ ω β) (s : σ) :
    run (p >>= f) s =
      match run p s with
      | (.finished (.ok a), s') => run (f a) s'
      | (.finished (.error fault), s') => (.finished (.error fault), s')
      | (.waiting on deadline next, s') =>
        (.waiting on deadline fun signal => next signal >>= f, s') := by
  induction p generalizing s with
  | done r => cases r <;> rfl
  | look next ih => exact ih s s
  | store s' next ih => exact ih s'
  | wait on deadline next ih => rfl

theorem run_bind_ok {s s' : σ} {a : α} (h : run p s = (.finished (.ok a), s')) :
    run (p >>= f) s = run (f a) s' := by
  rw [run_bind, h]

theorem run_map_finished {f : α → β} {s s' : σ} (h : run p s = (.finished r, s')) :
    run (f <$> p) s = (.finished (r.map f), s') := by
  show run (p >>= fun a => pure (f a)) s = _
  rw [run_bind, h]
  cases r <;> rfl

end IdeMode.Prog
