import IdeMode.Prog
set_option autoImplicit false

/-!
# Programs that keep to a discipline

A discipline says what a program may do to the state that it shares with others, when it may begin
to wait, and how it can find things when it goes on. All of this may depend on where the program
stands, which is recorded by a mark of type `γ`: the program moves its mark along with every
replacement of the state.

A program that is safe keeps to the discipline up to its end, whatever happens while it waits.
-/

namespace IdeMode.Prog

/-- What programs over the state `σ` that wait for things of type `ω` have to keep to. -/
structure Discipline (σ ω γ : Type) where
  /-- a state and a mark may be replaced by others -/
  Step : σ → γ → σ → γ → Prop
  /-- a wait may begin -/
  Pause : ω → σ → γ → Prop
  /-- a wait that began with a state and a mark may end with others -/
  Wake : ω → Signal → σ → γ → σ → γ → Prop

variable {σ ω γ α β : Type} {D : Discipline σ ω γ}

/-- A program keeps to a discipline, and if it ends then `Q` holds of its result. -/
def Safe (D : Discipline σ ω γ) : Prog σ ω α → (Result α → σ → γ → Prop) → σ → γ → Prop
  | .done r, Q, s, g => Q r s g
  | .look next, Q, s, g => Safe D (next s) Q s g
  | .store s' next, Q, s, g => ∃ g', D.Step s g s' g' ∧ Safe D next Q s' g'
  | .wait on _ next, Q, s, g =>
    D.Pause on s g ∧ ∀ signal s' g', D.Wake on signal s g s' g' → Safe D (next signal) Q s' g'

variable {g : γ} {s : σ} {p : Prog σ ω α} {Q : Result α → σ → γ → Prop}

theorem Safe.mono {R : Result α → σ → γ → Prop} (h : Safe D p Q s g)
    (hQR : ∀ r s g, Q r s g → R r s g) : Safe D p R s g := by
  induction p generalizing s g with
  | done r => exact hQR r s g h
  | look next ih => exact ih s h
  | store s' next ih =>
    obtain ⟨g', hstep, hnext⟩ := h
    exact ⟨g', hstep, ih hnext⟩
  | wait on deadline next ih =>
    obtain ⟨hpause, hnext⟩ := h
    exact ⟨hpause, fun signal s' g' hwake => ih signal (hnext signal s' g' hwake)⟩

theorem safe_modifyGet {f : σ → α × σ} (g' : γ) (hstep : D.Step s g (f s).2 g')
    (hQ : Q (.ok (f s).1) (f s).2 g') : Safe D (modifyGet f : Prog σ ω α) Q s g := ⟨g', hstep, hQ⟩

protected theorem Safe.get {f : σ → Prog σ ω α} (h : Safe D (f s) Q s g) :
    Safe D (get >>= f) Q s g := h

protected theorem Safe.modify_bind {f : σ → σ} {next : PUnit → Prog σ ω α} (g' : γ)
    (hstep : D.Step s g (f s) g') (hnext : Safe D (next ⟨⟩) Q (f s) g') :
    Safe D (modify f >>= next) Q s g :=
  ⟨g', hstep, hnext⟩

/-- A result that is already there either goes on or ends the program. -/
protected theorem Safe.ofResult_bind {r : Result α} {f : α → Prog σ ω β}
    {Q : Result β → σ → γ → Prop} (hok : ∀ a, r = .ok a → Safe D (f a) Q s g)
    (herror : ∀ e, r = .error e → Q (.error e) s g) : Safe D (ofResult r >>= f) Q s g := by
  cases r with
  | ok a => exact hok a rfl
  | error e => exact herror e rfl

/-- Where the first part of a program ends well, the second part goes on from there. -/
theorem Safe.bind {f : α → Prog σ ω β} {Q : Result β → σ → γ → Prop} (h : Safe D p (fun r s g =>
      match r with | .ok a => Safe D (f a) Q s g | .error e => Q (.error e) s g) s g) :
    Safe D (p >>= f) Q s g := by
  induction p generalizing s g with
  | done r =>
    cases r with
    | ok a => exact h
    | error e => exact h
  | look next ih => exact ih s h
  | store s' next ih =>
    obtain ⟨g', hstep, hnext⟩ := h
    exact ⟨g', hstep, ih hnext⟩
  | wait on deadline next ih =>
    obtain ⟨hpause, hnext⟩ := h
    exact ⟨hpause, fun signal s' g' hwake => ih signal (hnext signal s' g' hwake)⟩

theorem Safe.attempt {Q : Result (Result α) → σ → γ → Prop}
    (h : Safe D p (fun r s g => Q (.ok r) s g) s g) : Safe D p.attempt Q s g := by
  induction p generalizing s g with
  | done r => exact h
  | look next ih => exact ih s h
  | store s' next ih =>
    obtain ⟨g', hstep, hnext⟩ := h
    exact ⟨g', hstep, ih hnext⟩
  | wait on deadline next ih =>
    obtain ⟨hpause, hnext⟩ := h
    exact ⟨hpause, fun signal s' g' hwake => ih signal (hnext signal s' g' hwake)⟩

/-- What every step of a discipline keeps holds wherever a safe program comes to a halt. If it
waits, it is safe again from whatever it finds when it goes on. -/
theorem Safe.run {I : σ → γ → Prop} (hI : ∀ s g s' g', I s g → D.Step s g s' g' → I s' g')
    (h : Safe D p Q s g) (hs : I s g) : ∃ g', I (p.run s).2 g' ∧
      match (p.run s).1 with
      | .finished r => Q r (p.run s).2 g'
      | .waiting on _ next => D.Pause on (p.run s).2 g' ∧
        ∀ signal s' g'', D.Wake on signal (p.run s).2 g' s' g'' →
          Safe D (next signal) Q s' g'' := by
  induction p generalizing s g with
  | done r => exact ⟨g, hs, h⟩
  | look next ih => exact ih s h hs
  | store s' next ih =>
    obtain ⟨g', hstep, hnext⟩ := h
    exact ih hnext (hI s g s' g' hs hstep)
  | wait on deadline next ih => exact ⟨g, hs, h⟩

/-- What every step and every wait of a discipline keeps holds at the end of a safe program as
well. -/
theorem Safe.always {I : σ → γ → Prop} (hstep : ∀ s g s' g', I s g → D.Step s g s' g' → I s' g')
    (hwake : ∀ on signal s g s' g', I s g → D.Wake on signal s g s' g' → I s' g')
    (h : Safe D p Q s g) (hs : I s g) : Safe D p (fun r s g => Q r s g ∧ I s g) s g := by
  induction p generalizing s g with
  | done r => exact ⟨h, hs⟩
  | look next ih => exact ih s h hs
  | store s' next ih =>
    obtain ⟨g', hfirst, hnext⟩ := h
    exact ⟨g', hfirst, ih hnext (hstep s g s' g' hs hfirst)⟩
  | wait on deadline next ih =>
    obtain ⟨hpause, hnext⟩ := h
    exact ⟨hpause, fun signal s' g' hend =>
      ih signal (hnext signal s' g' hend) (hwake on signal s g s' g' hs hend)⟩

/-- A program that keeps to one discipline keeps to another if marks can be moved along so that
every step and every pause of the one is one of the other, and whatever is found after a wait under
the other may be found under the one. -/
theorem Safe.refine {γ' : Type} {D' : Discipline σ ω γ'} {R : σ → γ → γ' → Prop}
    (hstep : ∀ s g g' s₁ g₁, R s g g' → D.Step s g s₁ g₁ → ∃ g₁', D'.Step s g' s₁ g₁' ∧ R s₁ g₁ g₁')
    (hpause : ∀ on s g g', R s g g' → D.Pause on s g → D'.Pause on s g')
    (hwake : ∀ on signal s g g' s₁ g₁', R s g g' → D'.Wake on signal s g' s₁ g₁' →
      ∃ g₁, D.Wake on signal s g s₁ g₁ ∧ R s₁ g₁ g₁')
    {g' : γ'} (h : Safe D p Q s g) (hR : R s g g') :
    Safe D' p (fun r s g' => ∃ g, Q r s g ∧ R s g g') s g' := by
  induction p generalizing s g g' with
  | done r => exact ⟨g, h, hR⟩
  | look next ih => exact ih s h hR
  | store s₁ next ih =>
    obtain ⟨g₁, hfirst, hnext⟩ := h
    obtain ⟨g₁', hfirst', hR'⟩ := hstep s g g' s₁ g₁ hR hfirst
    exact ⟨g₁', hfirst', ih hnext hR'⟩
  | wait on deadline next ih =>
    obtain ⟨hbegin, hnext⟩ := h
    refine ⟨hpause on s g g' hR hbegin, fun signal s₁ g₁' hend => ?_⟩
    obtain ⟨g₁, hend', hR'⟩ := hwake on signal s g g' s₁ g₁' hR hend
    exact ih signal (hnext signal s₁ g₁ hend') hR'

/-! ## Disciplines without marks -/

/-- A program keeps to a discipline from wherever it starts. -/
def Obeys (D : Discipline σ ω Unit) (p : Prog σ ω α) : Prop :=
  ∀ s, Safe D p (fun _ _ _ => True) s ()

section Obeys

variable {D : Discipline σ ω Unit}

theorem Obeys.done (r : Result α) : Obeys D (.done r) := fun _ => trivial

variable {p : Prog σ ω α}

theorem Obeys.bind {f : α → Prog σ ω β} (hp : Obeys D p) (hf : ∀ a, Obeys D (f a)) :
    Obeys D (p >>= f) := by
  intro s
  refine Safe.bind ((hp s).mono ?_)
  rintro r s' - -
  cases r with
  | ok a => exact hf a s'
  | error e => trivial

/-- A program that keeps to one discipline keeps to another that allows the same and expects no less
of the others. -/
theorem Obeys.refine {D' : Discipline σ ω Unit} (h : Obeys D p)
    (hstep : ∀ s s', D.Step s () s' () → D'.Step s () s' ())
    (hpause : ∀ on s, D.Pause on s () → D'.Pause on s ())
    (hwake : ∀ on signal s s', D'.Wake on signal s () s' () → D.Wake on signal s () s' ()) :
    Obeys D' p := by
  intro s
  refine (Safe.refine (R := fun _ _ _ => True) ?_ ?_ ?_ (h s) trivial).mono fun _ _ _ _ => trivial
  · intro s _ _ s' _ _ hs
    exact ⟨(), hstep s s' hs, trivial⟩
  · intro on s _ _ _ hs
    exact hpause on s hs
  · intro on signal s _ _ s' _ _ hs
    exact ⟨(), hwake on signal s s' hs, trivial⟩

protected theorem Obeys.attempt (hp : Obeys D p) : Obeys D p.attempt := fun s => Safe.attempt (hp s)

protected theorem Obeys.get : Obeys D (get : Prog σ ω σ) := fun _ => trivial

protected theorem Obeys.modify {f : σ → σ} (hf : ∀ s, D.Step s () (f s) ()) :
    Obeys D (modify f : Prog σ ω PUnit) :=
  fun s => ⟨(), hf s, trivial⟩

/-- A program that looks at the state, replaces it and goes on. -/
theorem obeys_exchange {f : σ → σ} {next : σ → Prog σ ω α} (hf : ∀ s, D.Step s () (f s) ())
    (hnext : ∀ s, Obeys D (next s)) : Obeys D (get >>= fun s => set (f s) >>= fun _ => next s) :=
  fun s => ⟨(), hf s, hnext s (f s)⟩

protected theorem Obeys.await {on : ω} {deadline : Option Int} (h : ∀ s, D.Pause on s ()) :
    Obeys D (Prog.await on deadline : Prog σ ω Signal) := fun s => ⟨h s, fun _ _ _ _ => trivial⟩

end Obeys

end IdeMode.Prog
