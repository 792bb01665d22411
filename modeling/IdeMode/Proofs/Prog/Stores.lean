import IdeMode.Proofs.Prog.Environment
import IdeMode.Proofs.Prog.Safe
set_option autoImplicit false

/-!
# What a program does by itself

In a run the state changes in two ways: a program replaces it, and the environment does while the
program waits. `stores` keeps the replacements of the program apart from what others do, so that an
effect can be put down to the one who caused it.
-/

namespace IdeMode.Prog

variable {σ ω ε γ α β : Type}

/-- The replacements that a program makes in an environment, in order: the state that each found and
the state that it left. -/
def stores (env : Environment σ ω ε) : Prog σ ω α → σ → ε → List (σ × σ)
  | .done _, _, _ => []
  | .look next, s, e => stores env (next s) s e
  | .store s' next, s, e => (s, s') :: stores env next s' e
  | .wait on deadline next, s, e =>
    stores env (next (env on deadline s e).1) (env on deadline s e).2.1 (env on deadline s e).2.2

theorem stores_bind (env : Environment σ ω ε) (p : Prog σ ω α) (f : α → Prog σ ω β)
    (s : σ) (e : ε) : stores env (p >>= f) s e = stores env p s e ++
      match runIn env p s e with
      | (.ok a, s', e') => stores env (f a) s' e'
      | (.error _, _, _) => [] := by
  induction p generalizing s e with
  | done r => cases r <;> rfl
  | look next ih => exact ih s s e
  | store s' next ih => exact congrArg (List.cons (s, s')) (ih s' e)
  | wait on deadline next ih => exact ih _ _ _

variable {p : Prog σ ω α} {env : Environment σ ω ε}

theorem stores_bind_ok {f : α → Prog σ ω β} {s s' : σ} {e e' : ε} {a : α}
    (h : runIn env p s e = (.ok a, s', e')) :
    stores env (p >>= f) s e = stores env p s e ++ stores env (f a) s' e' := by
  rw [stores_bind, h]

theorem stores_bind_error {f : α → Prog σ ω β} {s s' : σ} {e e' : ε} {fault : Fault}
    (h : runIn env p s e = (.error fault, s', e')) :
    stores env (p >>= f) s e = stores env p s e := by
  rw [stores_bind, h, List.append_nil]

/-- A discipline allows replacements one after the other, and they move the mark from one to
another. -/
inductive Leads (D : Discipline σ ω γ) : γ → List (σ × σ) → γ → Prop where
  | nil (g : γ) : Leads D g [] g
  | cons {s s' : σ} {g g' g'' : γ} {rest : List (σ × σ)} (hstep : D.Step s g s' g')
    (hrest : Leads D g' rest g'') : Leads D g ((s, s') :: rest) g''

/-- Where a discipline lets anything happen during a wait, a safe program makes only the
replacements that the discipline allows, in every environment. -/
theorem Safe.leads {D : Discipline σ ω γ}
    (hwake : ∀ on signal s g s', D.Pause on s g → D.Wake on signal s g s' g)
    {Q : Result α → σ → γ → Prop} {s : σ} {g : γ} (h : Safe D p Q s g)
    (env : Environment σ ω ε) (e : ε) :
    ∃ g', Leads D g (stores env p s e) g' ∧ Q (runIn env p s e).1 (runIn env p s e).2.1 g' := by
  induction p generalizing s g e with
  | done r => exact ⟨g, .nil g, h⟩
  | look next ih => exact ih s h e
  | store s' next ih =>
    obtain ⟨g', hstep, hnext⟩ := h
    obtain ⟨g'', hleads, hend⟩ := ih hnext e
    exact ⟨g'', .cons hstep hleads, hend⟩
  | wait on deadline next ih =>
    obtain ⟨hpause, hnext⟩ := h
    exact ih _ (hnext _ _ g (hwake on _ s g _ hpause)) _

/-- What neither the steps of a discipline nor the environment change holds at the end of a run if
it held before. -/
theorem Obeys.runIn_keeps {D : Discipline σ ω Unit}
    (hwake : ∀ on signal s s', D.Wake on signal s () s' ())
    {I : σ → ε → Prop} (hstep : ∀ s e s', I s e → D.Step s () s' () → I s' e)
    (henv : ∀ on deadline s e, I s e → I (env on deadline s e).2.1 (env on deadline s e).2.2)
    (h : Obeys D p) {s : σ} {e : ε} (hs : I s e) :
    I (runIn env p s e).2.1 (runIn env p s e).2.2 := by
  have hsafe := h s
  clear h
  induction p generalizing s e with
  | done r => exact hs
  | look next ih => exact ih s hs hsafe
  | store s' next ih =>
    obtain ⟨_, hfirst, hnext⟩ := hsafe
    exact ih (hstep s e s' hs hfirst) hnext
  | wait on deadline next ih =>
    exact ih _ (henv on deadline s e hs) (hsafe.2 _ _ _ (hwake on _ s _))

end IdeMode.Prog
