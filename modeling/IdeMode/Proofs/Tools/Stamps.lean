import IdeMode.Proofs.Tools.Desks
set_option autoImplicit false

/-!
# Time stamps of sessions

The registry says of each named session when it was made and when it was last used. Loops, and tools
at work with a session, leave the registry alone. Otherwise tools make sessions, stamp them, and
take those away that nobody used for long; only whoever starts or stops a session takes one away
before that.
-/

namespace IdeMode

namespace World

/-! ## The registry and the clock -/

/-- Neither the named sessions nor the clock changed. -/
def KeepsEntries (w w' : World) : Prop :=
  w'.registry.entries = w.registry.entries ∧ w'.host.clock = w.host.clock

variable {w w' w₁ w₂ w₃ : World} {s : Nat}

theorem KeepsEntries.refl (w : World) : KeepsEntries w w := ⟨rfl, rfl⟩

theorem KeepsEntries.trans (h : KeepsEntries w₁ w₂) (h' : KeepsEntries w₂ w₃) :
    KeepsEntries w₁ w₃ :=
  ⟨h'.1.trans h.1, h'.2.trans h.2⟩

theorem Stirs.keepsEntries (h : Stirs w w') : KeepsEntries w w' :=
  ⟨congrArg Registry.entries h.registry_eq, h.clock_eq⟩

theorem composes_keepsEntries : Composes KeepsEntries := ⟨.refl, .trans⟩

theorem keepsEntries_deliverAll (w : World) (s : Nat) (settled : List (Call × Outcome)) :
    KeepsEntries w (w.deliverAll s settled) :=
  composes_keepsEntries.deliverAll (fun _ _ _ => ⟨rfl, rfl⟩) (fun _ _ => ⟨rfl, rfl⟩)
    (fun _ _ _ _ => ⟨rfl, rfl⟩) w

theorem keepsEntries_settlePending (w : World) (s : Nat) (outage : Outage) :
    KeepsEntries w (w.settlePending s outage) :=
  KeepsEntries.trans (show KeepsEntries w
    (w.modifyDispatch s fun _ => ((w.session s).dispatch.settlePending outage).2)
    from ⟨rfl, rfl⟩) (keepsEntries_deliverAll _ s _)

theorem keepsEntries_discard (w : World) (s : Nat) : KeepsEntries w (w.discard s) := by
  have hdropped : KeepsEntries w (w.modifyDispatch s fun _ => (w.session s).dispatch.discard.2) :=
    ⟨rfl, rfl⟩
  exact (hdropped.trans (keepsEntries_deliverAll _ s _)).trans
    (stirs_foldl stirs_wake _ _).keepsEntries

theorem keepsEntries_issue (w : World) (s : Nat) (command : Command) (addressee : Addressee) :
    KeepsEntries w (w.issue s command addressee).2 := by
  refine composes_keepsEntries.issue ?_ (fun _ _ => ⟨rfl, rfl⟩) fun _ _ => ⟨rfl, rfl⟩
  exact composes_keepsEntries.ensureServices (fun _ _ _ => ⟨rfl, rfl⟩) (fun _ _ _ => ⟨rfl, rfl⟩) w

theorem keepsEntries_loadFault (w : World) (s : Nat) (p : Path) (f : Fault) :
    KeepsEntries w (w.loadFault s p f).2 := by
  unfold loadFault
  split <;> exact ⟨rfl, rfl⟩

theorem keepsEntries_rereadNamed (w : World) (s : Nat) (name : String) :
    KeepsEntries w (w.rereadNamed s name) := by
  unfold rereadNamed rereadDocument
  split
  · split <;> exact ⟨rfl, rfl⟩
  · exact .refl w

theorem keepsEntries_transmit (w : World) (s c : Nat) (payload : String) :
    KeepsEntries w (w.transmit s c payload) :=
  composes_keepsEntries.transmit (fun _ _ _ => ⟨rfl, rfl⟩) (fun _ _ _ => ⟨rfl, rfl⟩)
    (fun w => keepsEntries_rereadNamed w s)
    (fun w r id => (stirs_reaction w c r id).keepsEntries) w payload

theorem keepsEntries_settle (w : World) (s : Nat) (addressee : Addressee) (outcome : Outcome) :
    KeepsEntries w (w.settle s addressee outcome) := by
  unfold settle
  split
  · exact ⟨rfl, rfl⟩
  · exact ⟨rfl, rfl⟩
  · exact ⟨rfl, rfl⟩
  · exact (keepsEntries_loadFault w s _ _).trans ⟨rfl, rfl⟩
  · exact .refl w

/-! ## Stamps -/

/-- The times at which sessions were made and last used lie in the past. -/
def Punctual (w : World) : Prop :=
  ∀ name e, w.registry.entries.get? name = some e →
    e.started ≤ e.lastUsed ∧ e.lastUsed ≤ w.host.clock

/-- The session that has the name, if any, was used at a time or later. -/
def UsedSince (name : String) (t : Int) (w : World) : Prop :=
  ∀ e, w.registry.entries.get? name = some e → t ≤ e.lastUsed

/-- Time passed and no stamp went back: a session that has a name had it before, or was used
since. -/
structure Elapses (w w' : World) : Prop where
  clock_le : w.host.clock ≤ w'.host.clock
  punctual : w'.Punctual
  used : ∀ name e', w'.registry.entries.get? name = some e' → w.host.clock ≤ e'.lastUsed ∨
    ∃ e, w.registry.entries.get? name = some e ∧ e.lastUsed ≤ e'.lastUsed

theorem Elapses.of_entries (hw : w.Punctual) (hentries : w'.registry.entries = w.registry.entries)
    (hclock : w.host.clock ≤ w'.host.clock) : Elapses w w' := by
  refine ⟨hclock, fun name e he => ?_, fun name e he => .inr ⟨e, hentries ▸ he, Int.le_refl _⟩⟩
  obtain ⟨hmade, hused⟩ := hw name e (hentries ▸ he)
  exact ⟨hmade, Int.le_trans hused hclock⟩

theorem Elapses.refl (hw : w.Punctual) : Elapses w w := .of_entries hw rfl (Int.le_refl _)

theorem Elapses.trans (h : Elapses w₁ w₂) (h' : Elapses w₂ w₃) : Elapses w₁ w₃ := by
  refine ⟨Int.le_trans h.clock_le h'.clock_le, h'.punctual, fun name e he => ?_⟩
  rcases h'.used name e he with hnew | ⟨e₂, he₂, hle⟩
  · exact .inl (Int.le_trans h.clock_le hnew)
  · rcases h.used name e₂ he₂ with hnew | ⟨e₁, he₁, hle₁⟩
    · exact .inl (Int.le_trans hnew hle)
    · exact .inr ⟨e₁, he₁, Int.le_trans hle₁ hle⟩

theorem KeepsEntries.elapses (h : KeepsEntries w w') (hw : w.Punctual) : Elapses w w' :=
  .of_entries hw h.1 (Int.le_of_eq h.2.symm)

theorem Elapses.usedSince (h : Elapses w w') {name : String} {t : Int} (ht : t ≤ w.host.clock)
    (hused : UsedSince name t w) : UsedSince name t w' := by
  intro e he
  rcases h.used name e he with hnew | ⟨e₁, he₁, hle⟩
  · exact Int.le_trans ht hnew
  · exact Int.le_trans (hused e₁ he₁) hle

/-- Whatever session had a name still has it, unless nobody used it for long. Only the session of
the name `own` may be taken away before that. -/
structure Ages (own : Option String) (w w' : World) : Prop extends Elapses w w' where
  kept : ∀ name e, w.registry.entries.get? name = some e →
    (∃ e', w'.registry.entries.get? name = some e' ∧ e'.session = e.session ∧
      e.lastUsed ≤ e'.lastUsed) ∨ Client.idleLimit < w'.host.clock - e.lastUsed ∨ own = some name

variable {own : Option String}

theorem Ages.of_entries (hw : w.Punctual) (hentries : w'.registry.entries = w.registry.entries)
    (hclock : w.host.clock ≤ w'.host.clock) : Ages own w w' :=
  ⟨.of_entries hw hentries hclock, fun _ e he => .inl ⟨e, hentries ▸ he, rfl, Int.le_refl _⟩⟩

theorem Ages.refl (hw : w.Punctual) : Ages own w w := .of_entries hw rfl (Int.le_refl _)

theorem Ages.trans (h : Ages own w₁ w₂) (h' : Ages own w₂ w₃) : Ages own w₁ w₃ := by
  refine ⟨h.toElapses.trans h'.toElapses, fun name e he => ?_⟩
  rcases h.kept name e he with ⟨e₂, he₂, hsame, hle⟩ | hidle | hown
  · rcases h'.kept name e₂ he₂ with ⟨e₃, he₃, hsame', hle'⟩ | hidle | hown
    · exact .inl ⟨e₃, he₃, hsame'.trans hsame, Int.le_trans hle hle'⟩
    · exact .inr (.inl (by omega))
    · exact .inr (.inr hown)
  · have hclock := h'.clock_le
    exact .inr (.inl (by omega))
  · exact .inr (.inr hown)

theorem KeepsEntries.ages (h : KeepsEntries w w') (hw : w.Punctual) : Ages own w w' :=
  .of_entries hw h.1 (Int.le_of_eq h.2.symm)

end World

/-- A wait for the exit of a process. -/
def Await.isExit : Await → Bool
  | .exit _ => true
  | _ => false

/-- A fault with which the stop of a process ends. -/
def Fault.IsOfStopping : Fault → Prop
  | .system _ | .processGone => True
  | _ => False

theorem Fault.IsOfStopping.not_reported {f : Fault} (h : f.IsOfStopping) :
    f.isReported = false := by
  cases f with
  | system cause => rfl
  | processGone => rfl
  | _ => exact h.elim

/-- A program was ended by the stop of a process that went wrong. -/
def FailsToStop {α : Type} (r : Result α) : Prop := ∃ f, r = .error f ∧ f.IsOfStopping

namespace Tools

open Client Prog World

variable {α β : Type} {w w' : World} {s : Nat} {own : Option String}

/-! ## Programs that leave the registry alone -/

/-- What programs keep to that leave the registry alone and wait only for certain things. -/
def leaving (waits : Await → Prop) : Discipline World Await Unit where
  Step w _ w' _ := KeepsEntries w w'
  Pause on _ _ := waits on
  Wake _ _ _ _ _ _ := True

/-- What programs keep to that leave the registry alone. -/
def aloof : Discipline World Await Unit := leaving fun _ => True

variable {p : Action α}

theorem keepsEntries_of_gentle {t : Nat} (h : Gentle t w w') : KeepsEntries w w' := by
  cases h with
  | stirs hstirs _ => exact hstirs.keepsEntries
  | transport _ => exact ⟨rfl, rfl⟩

theorem aloof_of_gentle {t : Nat} (h : Obeys (gentle t) p) : Obeys aloof p :=
  h.refine (fun _ _ hw => keepsEntries_of_gentle hw) (fun _ _ _ => trivial) fun _ _ _ _ _ => trivial

theorem aloof_isRunning (s : Nat) : Obeys aloof (isRunning s) := .bind .get fun _ => .done _

theorem aloof_modifySession (s : Nat) (f : Session → Session) : Obeys aloof (modifySession s f) :=
  .modify fun _ => ⟨rfl, rfl⟩

/-- Starts and calls leave the registry alone. -/
theorem aloof_of_dealing {P : Command → Prop} (h : Obeys (dealing s P) p) : Obeys aloof p := by
  have hstep : ∀ w w', Deals s P w w' → KeepsEntries w w' := by
    intro w w' hdeals
    cases hdeals with
    | gentle h => exact keepsEntries_of_gentle h
    | spawn _ _ _ => exact ⟨rfl, Host.spawn_feature Host.clock _ (fun _ _ _ => rfl) ..⟩
    | issue _ _ => exact keepsEntries_issue w s _ .waiter
    | _ => exact ⟨rfl, rfl⟩
  exact h.refine hstep (fun _ _ _ => trivial) fun _ _ _ _ _ => trivial

theorem aloof_call (command : Command) (limit : Option Duration) :
    Obeys aloof (call s command limit) :=
  aloof_of_dealing (dealing_call (P := fun _ => True) s trivial limit)

theorem Works.aloof (h : Works s p) : Obeys aloof p := by
  induction h with
  | done r => exact .done r
  | bind _ _ hp hf => exact .bind hp hf
  | attempt _ hp => exact .attempt hp
  | get => exact .get
  | note hf => exact aloof_modifySession s _
  | revise hf _ hnext =>
    exact .bind (obeys_session s)
      fun session => .bind (aloof_modifySession s _) fun _ => hnext session
  | write disk => exact .modify fun _ => ⟨rfl, rfl⟩
  | announce d f => exact fun w => ⟨(), keepsEntries_loadFault w s _ f, trivial⟩
  | start =>
    refine .bind (aloof_isRunning s) fun running => ?_
    split
    · exact .done _
    · refine .bind (aloof_modifySession s _) fun _ => ?_
      exact .bind (aloof_of_dealing (dealing_start (P := fun _ => True) s startLimit))
        fun message => .done _
  | call command hlimit => exact .bind (obeys_session s) fun session => aloof_call command _
  | load command => exact .bind (obeys_session s) fun session => aloof_call command _

/-! ## Loops -/

theorem keepsEntries_of_serves (h : Client.Serves s w w') : KeepsEntries w w' := by
  cases h with
  | writes h =>
    cases h with
    | gentle h => exact keepsEntries_of_gentle h
    | pick => exact ⟨rfl, rfl⟩
    | transmit c payload => exact keepsEntries_transmit w s c payload
    | outage o => exact keepsEntries_settlePending w s o
  | note _ => exact ⟨rfl, rfl⟩
  | report _ => exact ⟨rfl, rfl⟩
  | reply id ok payload => exact KeepsEntries.trans ⟨rfl, rfl⟩ (keepsEntries_deliverAll _ s _)

theorem aloof_serve (service : Service) : Obeys aloof (serve service) :=
  obeys_serve (fun _ _ h =>
    h.refine (fun _ _ hw => keepsEntries_of_serves hw) (fun _ _ _ => trivial)
    fun _ _ _ _ _ => trivial) service

/-! ## Stopping -/

/-- The program ends well or with a fault of stopping, leaves the registry alone, and waits for
nothing but exits. -/
def Halts (p : Action α) : Prop :=
  ∀ w, Safe (leaving (·.isExit)) p (fun r _ _ => ∀ f, r = .error f → f.IsOfStopping) w ()

theorem isOfStopping_of_ok (a : α) (f : Fault) (h : (.ok a : Result α) = .error f) :
    f.IsOfStopping := by cases h

theorem halts_done (a : α) : Halts (.done (.ok a)) := fun _ => isOfStopping_of_ok a

theorem Halts.bind {f : α → Action β} (hp : Halts p) (hf : ∀ a, Halts (f a)) : Halts (p >>= f) := by
  intro w
  refine Safe.bind ((hp w).mono fun r w' _ hr => ?_)
  cases r with
  | ok a => exact hf a w'
  | error e => exact fun f hf => hr f (congrArg Except.error (Except.error.inj hf))

theorem halts_get : Halts (get : Action World) := fun w => isOfStopping_of_ok w

theorem halts_modify {f : World → World} (hf : ∀ w, KeepsEntries w (f w)) :
    Halts (modify f : Action PUnit) :=
  fun w => ⟨(), hf w, isOfStopping_of_ok _⟩

theorem halts_process (s : Nat) : Halts (process s) := by
  refine .bind (.bind halts_get fun _ => halts_done _) fun session => ?_
  split
  · exact halts_done _
  · rintro w f ⟨⟩
    trivial

theorem halts_signal (c : Nat) (terminates : Bool) : Halts (signal c terminates) := by
  intro w
  refine ⟨(), (stirs_signal w c terminates).keepsEntries, ?_⟩
  split
  · exact isOfStopping_of_ok _
  · exact isOfStopping_of_ok _
  · exact isOfStopping_of_ok _
  · rintro f ⟨⟩
    trivial

theorem halts_killProcess (s : Nat) : Halts (killProcess s) :=
  .bind (halts_process s) fun c w => ⟨(), (stirs_kill w c).keepsEntries, isOfStopping_of_ok _⟩

theorem halts_terminate (s c : Nat) : Halts (terminate s c) := by
  refine .bind (halts_signal c true) fun _ => .bind halts_get fun w => ?_
  split
  · refine .bind (.bind halts_get fun _ => halts_done _) fun deadline => ?_
    refine .bind (fun w => ⟨rfl, fun signal w' _ _ => isOfStopping_of_ok _⟩) fun signal => ?_
    split
    · exact halts_done _
    · exact halts_killProcess s
  · exact halts_done _

theorem halts_stop (s : Nat) : Halts (stop s) := by
  have hforget : Halts (modify fun w => w.modifyTransport s fun t => { t with
      child := none, version := none } : Action Unit) := halts_modify fun _ => ⟨rfl, rfl⟩
  refine .bind (.bind halts_get fun _ => halts_done _) fun session => ?_
  split
  · refine .bind halts_get fun w => ?_
    split
    · exact .bind (halts_terminate s _) fun _ => hforget
    · exact hforget
  · exact hforget

theorem halts_close (s : Nat) : Halts (close s) :=
  .bind (halts_modify fun w => keepsEntries_discard w s) fun _ => .bind (halts_stop s) fun _ =>
    halts_modify fun _ => ⟨rfl, rfl⟩

/-! ## Tools -/

/-- What tools keep to: they take sessions away only when nobody used them for long, `own` apart;
they wait for anything but an exit only where `used` holds; and while they wait no stamp goes
back. -/
def aging (own : Option String) (used : World → Prop) : Discipline World Await Unit where
  Step w _ w' _ := Ages own w w'
  Pause on w _ := on.isExit ∨ used w
  Wake _ _ w _ w' _ := Elapses w w'

variable {used : World → Prop}

theorem safe_of_leaving {waits : Await → Prop} {Q : Result α → World → Unit → Prop}
    (hp : Safe (leaving waits) p Q w ()) (hw : w.Punctual)
    (hwaits : ∀ on w₁, Elapses w w₁ → waits on → on.isExit ∨ used w₁) :
    Safe (aging own used) p (fun r w' g => Elapses w w' ∧ Q r w' g) w () := by
  refine (Safe.refine (R := fun w₁ _ _ => Elapses w w₁) ?_ ?_ ?_ hp (.refl hw)).mono ?_
  · intro w₁ _ _ w₂ _ hpassed hkept
    exact ⟨(), hkept.ages hpassed.punctual, hpassed.trans (hkept.elapses hpassed.punctual)⟩
  · exact fun on w₁ _ _ hpassed hon => hwaits on w₁ hpassed hon
  · exact fun _ _ _ _ _ _ _ hpassed hwake => ⟨(), trivial, hpassed.trans hwake⟩
  · rintro r w' _ ⟨_, hQ, hpassed⟩
    exact ⟨hpassed, hQ⟩

theorem safe_of_halts (hp : Halts p) (hw : w.Punctual) : Safe (aging own used) p
    (fun r w' _ => Elapses w w' ∧ ∀ f, r = .error f → f.IsOfStopping) w () :=
  safe_of_leaving (hp w) hw fun _ _ _ hexit => .inl hexit

theorem safe_obeys (hp : Obeys aloof p) (hw : w.Punctual) (hused : ∀ w₁, Elapses w w₁ → used w₁) :
    Safe (aging own used) p (fun _ w' _ => Elapses w w') w () :=
  (safe_of_leaving (hp w) hw fun _ w₁ hpassed _ => .inr (hused w₁ hpassed)).mono fun _ _ _ h => h.1

section Entries

variable {name : String} {e : Entry}

/-- A session is taken away. -/
theorem ages_forget (hw : w.Punctual) (hfound : w.registry.entries.get? name = some e)
    (hidle : idleLimit < w.host.clock - e.lastUsed ∨ own = some name) : Ages own w
      { w with registry := { w.registry with entries := w.registry.entries.erase name } } := by
  have hold : ∀ other e', (w.registry.entries.erase name).get? other = some e' →
      w.registry.entries.get? other = some e' := by
    intro other e' he'
    rw [Table.get?_erase] at he'
    split at he'
    · cases he'
    · exact he'
  refine ⟨⟨Int.le_refl _, fun other e' he' => hw other e' (hold other e' he'),
    fun other e' he' => .inr ?_⟩, ?_⟩
  · exact ⟨e', hold other e' he', Int.le_refl _⟩
  · intro other e' he'
    by_cases hname : name = other
    · subst hname
      obtain rfl := Option.some.inj (hfound.symm.trans he')
      exact .inr hidle
    · exact .inl ⟨e', (Table.get?_erase ..).trans ((if_neg hname).trans he'), rfl, Int.le_refl _⟩

/-- A session is given a name. -/
theorem ages_enter (hw : w.Punctual)
    (hvacant : w.registry.entries.get? name = none ∨ own = some name)
    (hstarted : e.started = w.host.clock) (hused : e.lastUsed = w.host.clock) : Ages own w
      { w with registry := { w.registry with entries := w.registry.entries.set name e } } := by
  have hcases : ∀ other e', (w.registry.entries.set name e).get? other = some e' →
      e' = e ∨ w.registry.entries.get? other = some e' := by
    intro other e' he'
    rw [Table.get?_set] at he'
    split at he'
    · exact .inl (Option.some.inj he').symm
    · exact .inr he'
  refine ⟨⟨Int.le_refl _, fun other e' he' => ?_, fun other e' he' => ?_⟩, fun other e' he' => ?_⟩
  · rcases hcases other e' he' with rfl | hold
    · exact ⟨Int.le_of_eq (hstarted.trans hused.symm), Int.le_of_eq hused⟩
    · exact hw other e' hold
  · rcases hcases other e' he' with rfl | hold
    · exact .inl (Int.le_of_eq hused.symm)
    · exact .inr ⟨e', hold, Int.le_refl _⟩
  · by_cases hname : name = other
    · subst hname
      rcases hvacant with hnone | hown
      · cases hnone.symm.trans he'
      · exact .inr (.inr hown)
    · exact .inl ⟨e', (Table.get?_set ..).trans ((if_neg hname).trans he'), rfl, Int.le_refl _⟩

/-- The time of use of a session. -/
def touched (w : World) (name : String) : World :=
  { w with registry := { w.registry with entries := w.registry.entries.update name fun old =>
    { old with lastUsed := w.host.clock } } }

/-- A session is used. -/
theorem ages_touched (hw : w.Punctual) (name : String) : Ages own w (touched w name) ∧
    UsedSince name w.host.clock (touched w name) := by
  have hcases : ∀ other e', (touched w name).registry.entries.get? other = some e' →
      ∃ e, w.registry.entries.get? other = some e ∧
        (name = other ∧ e' = { e with lastUsed := w.host.clock } ∨ name ≠ other ∧ e' = e) := by
    intro other e' he'
    rw [touched, Table.get?_update] at he'
    split at he'
    · next hname =>
      obtain ⟨e, he, rfl⟩ := Option.map_eq_some_iff.1 he'
      exact ⟨e, he, .inl ⟨hname, rfl⟩⟩
    · next hname => exact ⟨e', he', .inr ⟨hname, rfl⟩⟩
  refine ⟨⟨⟨Int.le_refl _, fun other e' he' => ?_, fun other e' he' => ?_⟩,
    fun other e he => .inl ?_⟩, fun e' he' => ?_⟩
  · obtain ⟨e, he, ⟨-, rfl⟩ | ⟨-, rfl⟩⟩ := hcases other e' he'
    · exact ⟨Int.le_trans (hw other e he).1 (hw other e he).2, Int.le_refl _⟩
    · exact hw other _ he
  · obtain ⟨e, he, ⟨-, rfl⟩ | ⟨-, rfl⟩⟩ := hcases other e' he'
    · exact .inl (Int.le_refl _)
    · exact .inr ⟨_, he, Int.le_refl _⟩
  · rw [touched, Table.get?_update]
    by_cases hname : name = other
    · rw [if_pos hname, he]
      exact ⟨_, rfl, rfl, (hw other e he).2⟩
    · rw [if_neg hname]
      exact ⟨e, he, rfl, Int.le_refl _⟩
  · obtain ⟨e, he, ⟨-, rfl⟩ | ⟨hne, -⟩⟩ := hcases name e' he'
    · exact Int.le_refl _
    · exact absurd rfl hne

end Entries

theorem aging_pruneAll (names : List String) (hw : w.Punctual) :
    Safe (aging own used) (pruneAll names)
      (fun r w' _ => Elapses w w' ∧ ∀ f, r = .error f → f.IsOfStopping) w () := by
  induction names generalizing w with
  | nil => exact ⟨.refl hw, isOfStopping_of_ok _⟩
  | cons name rest ih =>
    refine .get ?_
    dsimp only [pure_bind]
    split
    · exact ih hw
    · next e hfound =>
      refine .get ?_
      dsimp only [pure_bind]
      split
      · exact ih hw
      · next hidle =>
        have hforget : Ages own w
            { w with registry := { w.registry with entries := w.registry.entries.erase name } } :=
          ages_forget hw hfound (.inl (Int.not_le.1 hidle))
        refine .modify_bind () hforget ?_
        refine Safe.bind ((safe_of_halts (halts_close e.session) hforget.punctual).mono
          fun r w₁ _ hclosed => ?_)
        cases r with
        | error f => exact ⟨hforget.toElapses.trans hclosed.1, hclosed.2⟩
        | ok _ =>
          refine (ih hclosed.1.punctual).mono fun r w₂ _ hrest => ?_
          exact ⟨(hforget.toElapses.trans hclosed.1).trans hrest.1, hrest.2⟩

theorem aging_prune (hw : w.Punctual) : Safe (aging own used) prune
    (fun r w' _ => Elapses w w' ∧ ∀ f, r = .error f → f.IsOfStopping) w () := by
  refine .get (.get ?_)
  dsimp only [pure_bind]
  split
  · exact ⟨.refl hw, isOfStopping_of_ok _⟩
  · have hnoted : Elapses w { w with registry := { w.registry with lastPrune := w.host.clock } } :=
      .of_entries hw rfl (Int.le_refl _)
    refine .modify_bind () (.of_entries hw rfl (Int.le_refl _)) (.get ?_)
    refine (aging_pruneAll _ hnoted.punctual).mono fun r w₁ _ hpruned => ?_
    exact ⟨hnoted.trans hpruned.1, hpruned.2⟩

theorem aging_openSession {name : String} (hw : w.Punctual)
    (hvacant : w.registry.entries.get? name = none ∨ own = some name)
    (directory : Path) (environment : Option (List (String × String))) :
    Safe (aging own used) (openSession name directory environment)
      (fun r w' _ => Elapses w w' ∧ ∃ e, r = .ok e) w () := by
  have hadded : ∀ new, Elapses w (w.addSession new).2 := fun _ => .of_entries hw rfl (Int.le_refl _)
  let e : Entry := ⟨w.sessions.length, w.host.clock, w.host.clock, directory, environment⟩
  have hentered : ∀ new, Ages own (w.addSession new).2 { (w.addSession new).2 with
      registry := { w.registry with entries := w.registry.entries.set name e } } := fun new =>
    ages_enter (hadded new).punctual hvacant rfl rfl
  exact .get ⟨(), .of_entries hw rfl (Int.le_refl _), (), hentered _,
    (hadded _).trans (hentered _).toElapses, _, rfl⟩

/-- The session of a name was used at a time or later, unless the program was ended by a stop that
went wrong. -/
def Stamped (name : String) (t : Int) (r : Result α) (w : World) : Prop :=
  FailsToStop r ∨ UsedSince name t w

theorem aging_entryFor (name : String) (directory : Option Path) (hw : w.Punctual) :
    Safe (aging own used) (entryFor name directory)
      (fun r w' _ => Elapses w w' ∧ Stamped name w.host.clock r w') w () := by
  have huse : ∀ (e : Entry) (w₁ : World), Elapses w w₁ → Safe (aging own used) (touch name e)
      (fun r w' _ => Elapses w w' ∧ Stamped name w.host.clock r w') w₁ () := by
    intro e w₁ hpassed
    obtain ⟨hages, hused⟩ : Ages own w₁ (touched w₁ name) ∧
        UsedSince name w₁.host.clock (touched w₁ name) :=
      ages_touched hpassed.punctual name
    refine ⟨(), hages, hpassed.trans hages.toElapses, .inr fun e' he' => ?_⟩
    exact Int.le_trans hpassed.clock_le (hused e' he')
  refine Safe.bind ((aging_prune hw).mono fun r w₁ _ hpruned => ?_)
  cases r with
  | error f => exact ⟨hpruned.1, .inl ⟨f, rfl, hpruned.2 f rfl⟩⟩
  | ok _ =>
    refine .get ?_
    dsimp only [pure_bind]
    split
    · next e _ => exact huse e w₁ hpruned.1
    · next hnone =>
      refine .get (Safe.bind ((aging_openSession hpruned.1.punctual (.inl hnone) _ none).mono
        fun r w₂ _ hopened => ?_))
      obtain ⟨hopened, e, rfl⟩ := hopened
      exact huse e w₂ (hpruned.1.trans hopened)

section Requests

variable {name : String} {t : Int}

theorem Stamped.fault {f : Fault} (h : Stamped name t (.error f : Result α) w) :
    Stamped name t (.error f : Result β) w := by
  refine h.imp_left ?_
  rintro ⟨_, ⟨⟩, hf⟩
  exact ⟨f, rfl, hf⟩

theorem Stamped.usedSince {r : Result α} (h : Stamped name t r w)
    (hr : ∀ f, r = .error f → ¬ f.IsOfStopping) : UsedSince name t w := by
  refine h.resolve_left ?_
  rintro ⟨f, hf, hstopping⟩
  exact hr f hf hstopping

theorem aging_evaluateTool (expression name : String) (limit : Duration) (hw : w.Punctual)
    (hdue : ∀ w₁, UsedSince name w.host.clock w₁ → used w₁) :
    Safe (aging own used) (evaluateTool expression name limit)
      (fun r w' _ => Stamped name w.host.clock r w') w () := by
  refine Safe.bind ((aging_entryFor name none hw).mono fun r w₁ _ hgiven => ?_)
  cases r with
  | error f => exact hgiven.2.fault
  | ok e =>
    have hused : ∀ w₂, Elapses w₁ w₂ → UsedSince name w.host.clock w₂ := fun w₂ hpassed =>
      hpassed.usedSince hgiven.1.clock_le (hgiven.2.usedSince fun f hf => by cases hf)
    have hworks : Obeys aloof (evaluated e.session expression limit) :=
      (works_evaluated e.session expression limit).aloof
    refine (safe_obeys hworks hgiven.1.punctual fun w₂ hpassed => hdue w₂ (hused w₂ hpassed)).mono
      ?_
    exact fun _ w₂ _ hpassed => .inr (hused w₂ hpassed)

theorem shown_of_stopping (file : String) (session : Option Nat) {f : Fault} (hf : f.IsOfStopping) :
    onFile.shown file session f = .done (.error f) := by
  unfold onFile.shown
  split
  · exact hf.elim
  · rw [hf.not_reported]
    rfl

theorem aging_desk (file name : String) (hw : w.Punctual)
    (hdue : ∀ w₁, (Path.isName file = true → UsedSince name w.host.clock w₁) → used w₁) :
    Safe (aging own used) (desk file name) (fun r w' _ =>
      Elapses w w' ∧ (Path.isName file = true → Stamped name w.host.clock r w')) w () := by
  unfold desk resolve
  cases hname : Path.isName file with
  | false => exact ⟨.refl hw, fun hfile => by cases hfile⟩
  | true =>
    refine .get (Safe.bind ((aging_entryFor name _ hw).mono fun r w₁ _ hgiven => ?_))
    cases r with
    | error f => exact ⟨hgiven.1, fun _ => hgiven.2.fault⟩
    | ok e =>
      have hused : ∀ w₂, Elapses w₁ w₂ → UsedSince name w.host.clock w₂ := fun w₂ hpassed =>
        hpassed.usedSince hgiven.1.clock_le (hgiven.2.usedSince fun f hf => by cases hf)
      have hopened : Works e.session
          (do return ⟨e.session, ← documentAt e.session (w.host.cwd.resolve file)⟩ : Action Desk) :=
        .bind (works_documentAt _) fun _ => .done _
      refine (safe_obeys hopened.aloof hgiven.1.punctual
        fun w₂ hpassed => hdue w₂ fun _ => hused w₂ hpassed).mono ?_
      exact fun r w₂ _ hpassed => ⟨hgiven.1.trans hpassed, fun _ => .inr (hused w₂ hpassed)⟩

theorem aging_onFile (file name : String) {action : Desk → Action α}
    {present : Desk → α → Action String} {b b' : Bool}
    (haction : ∀ k, Handles k.session k.document b b' (action k))
    (hpresent : ∀ k a, Looks (present k a)) (hw : w.Punctual)
    (hdue : ∀ w₁, (Path.isName file = true → UsedSince name w.host.clock w₁) → used w₁) :
    Safe (aging own used) (onFile file name action present)
      (fun r w' _ => Path.isName file = true → Stamped name w.host.clock r w') w () := by
  refine Safe.bind (Safe.attempt ((aging_desk file name hw hdue).mono fun r w₁ _ hdesk => ?_))
  obtain ⟨hpassed, hstamped⟩ := hdesk
  -- What follows on a file that the session was used for leaves the registry alone.
  have hrest : ∀ {p : Action String}, (∀ f, r = .error f → ¬ f.IsOfStopping) → Obeys aloof p →
    Safe (aging own used) p
      (fun r w' _ => Path.isName file = true → Stamped name w.host.clock r w') w₁ () := by
    intro p hr hp
    have hused : ∀ w₂, Elapses w₁ w₂ → Path.isName file = true → UsedSince name w.host.clock w₂ :=
      fun w₂ hlater hfile => hlater.usedSince hpassed.clock_le ((hstamped hfile).usedSince hr)
    refine (safe_obeys hp hpassed.punctual fun w₂ hlater => hdue w₂ (hused w₂ hlater)).mono ?_
    exact fun _ w₂ _ hlater hfile => .inr (hused w₂ hlater hfile)
  cases r with
  | error f =>
    by_cases hf : f.IsOfStopping
    · show Safe (aging own used) (onFile.shown file none f) _ w₁ ()
      rw [shown_of_stopping file none hf]
      exact fun _ => .inl ⟨f, rfl, hf⟩
    · refine hrest ?_ (Looks.shown file none f).obeys
      rintro _ ⟨⟩
      exact hf
  | ok k =>
    refine hrest ?_ (works_onDesk file (haction k) (hpresent k)).aloof
    rintro _ ⟨⟩

theorem aging_stopTool (name : String) (hw : w.Punctual) :
    Safe (aging (some name) used) (stopTool name)
      (fun _ w' _ => UsedSince name w.host.clock w') w () := by
  refine .get ?_
  dsimp only [pure_bind]
  split
  · next hnone =>
    intro e he
    cases hnone.symm.trans he
  · next e hfound =>
    have hforget : Ages (some name) w
        { w with registry := { w.registry with entries := w.registry.entries.erase name } } :=
      ages_forget hw hfound (.inr rfl)
    refine .modify_bind () hforget ?_
    have hgone : UsedSince name w.host.clock
        { w with registry := { w.registry with entries := w.registry.entries.erase name } } := by
      intro e' he'
      rw [Table.get?_erase, if_pos rfl] at he'
      cases he'
    refine Safe.bind ((safe_of_halts (halts_close e.session) hforget.punctual).mono
      fun r w₁ _ hclosed => ?_)
    cases r with
    | ok _ => exact hclosed.1.usedSince hforget.clock_le hgone
    | error f => exact hclosed.1.usedSince hforget.clock_le hgone

theorem aging_startTool (directory name : String) (environment : Option (List (String × String)))
    (hw : w.Punctual) (hdue : ∀ w₁, used w₁) :
    Safe (aging (some name) used) (startTool directory name environment)
      (fun _ _ _ => True) w () := by
  have hopen : ∀ (p : Path) w₁, w₁.Punctual → Safe (aging (some name) used)
      (openSession name p environment >>= fun e => startIn name e p) (fun _ _ _ => True) w₁ () := by
    intro p w₁ hw₁
    refine Safe.bind ((aging_openSession hw₁ (.inr rfl) p environment).mono
      fun r w₂ _ hopened => ?_)
    obtain ⟨hpassed, e, rfl⟩ := hopened
    exact (safe_obeys (works_startIn name e p).aloof hpassed.punctual fun w₁ _ => hdue w₁).mono
      fun _ _ _ _ => trivial
  unfold startTool resolve
  cases hname : Path.isName directory with
  | false => trivial
  | true =>
    refine .get (.get ?_)
    split
    · trivial
    · refine .get ?_
      dsimp only [pure_bind]
      split
      · exact hopen _ w hw
      · next e hfound =>
        refine safe_isRunning ?_
        split
        · trivial
        · split
          · exact (safe_obeys (works_startIn name e _).aloof hw fun w₁ _ => hdue w₁).mono
              fun _ _ _ _ => trivial
          · refine Safe.bind ((safe_of_halts (halts_close e.session) hw).mono
              fun r w₁ _ hclosed => ?_)
            cases r with
            | error f => trivial
            | ok _ => exact hopen _ w₁ hclosed.1.punctual

theorem aging_sessionsTool (hw : w.Punctual) (hdue : ∀ w₁, used w₁) :
    Safe (aging own used) sessionsTool (fun _ _ _ => True) w () := by
  refine Safe.bind ((aging_prune hw).mono fun r w₁ _ hpruned => ?_)
  cases r with
  | error f => trivial
  | ok _ =>
    refine .get ?_
    dsimp only
    split
    · trivial
    · refine (safe_obeys ?_ hpruned.1.punctual fun w₁ _ => hdue w₁).mono fun _ _ _ _ => trivial
      exact .bind (Looks.sessionLines _).obeys fun _ => .done _

theorem aloof_interruptAll (entries : List Entry) : Obeys aloof (interruptAll entries) := by
  induction entries with
  | nil => exact .done _
  | cons e rest ih =>
    refine .bind (.attempt (aloof_of_gentle (gentle_interrupt e.session))) fun sent => ?_
    split
    · exact ih
    · exact ih
    · exact .done (.error _)

/-- The answer of a tool is shown as a text. -/
theorem Stamped.text {r : Result String} (h : Stamped name t r w) :
    Stamped name t (r.map Answer.text) w := by
  refine h.imp_left ?_
  rintro ⟨f, rfl, hf⟩
  exact ⟨f, rfl, hf⟩

theorem safe_text {p : Action String} {Q : Result Answer → World → Unit → Prop}
    (h : Safe (aging own used) p (fun r w' g => Q (r.map .text) w' g) w ()) :
    Safe (aging own used) (Answer.text <$> p) Q w () := by
  refine Safe.bind (h.mono fun r w' _ hr => ?_)
  cases r with
  | ok a => exact hr
  | error f => exact hr

end Requests

end Tools

namespace ToolRequest

open Client Prog Tools World

/-- The session that a tool may take away at any time: it starts or stops the one of this name. -/
def ends? : ToolRequest → Option String
  | .start _ name _ | .stop name => some name
  | _ => none

/-- The session that a tool uses. To look at diagnostics does not count as a use, nor does it count
to start a session that is there; and a file must have a name that is acceptable. -/
def uses? : ToolRequest → Option String
  | .stop owner | .evaluate _ owner _ => some owner
  | request => (request.file?.filter fun target => Path.isName target.1).map Prod.snd

theorem uses?_of_file? {request : ToolRequest} {file owner name : String}
    (h : request.file? = some (file, owner)) (huses : request.uses? = some name) :
    name = owner ∧ Path.isName file = true := by
  have hfilter : ((request.file?.filter fun target => Path.isName target.1).map
      Prod.snd) = some name := by
    cases request with
    | stop owner => cases h
    | evaluate expression owner limit => cases h
    | _ => exact huses
  rw [h] at hfilter
  obtain ⟨target, htarget, rfl⟩ := Option.map_eq_some_iff.1 hfilter
  obtain ⟨hsome, hname⟩ := Option.filter_eq_some_iff.1 htarget
  cases hsome
  exact ⟨rfl, hname⟩

/-- The session that a tool uses, if any, was used at a time or later. -/
def Used (request : ToolRequest) (t : Int) (w : World) : Prop :=
  ∀ name, request.uses? = some name → UsedSince name t w

theorem used_of_uses?_eq_none {request : ToolRequest} (h : request.uses? = none)
    (t : Int) (w : World) : request.Used t w := fun _ huses => by cases h.symm.trans huses

/-- Tools take sessions away only when nobody used them for long, unless they start or stop one; and
whoever uses a session leaves a stamp before it waits for anything but the exit of a process. -/
theorem aging_action (request : ToolRequest) {w : World} {t : Int} (hw : w.Punctual)
    (ht : t ≤ w.host.clock) : Safe (aging request.ends? (request.Used t)) request.action
      (fun r w' _ => ∀ name, request.uses? = some name → Stamped name w.host.clock r w') w () := by
  have hfree : ∀ {own : Option String} {p : Action Answer}, Obeys aloof p → request.uses? = none →
      Safe (aging own (request.Used t)) p
        (fun r w' _ => ∀ name, request.uses? = some name → Stamped name w.host.clock r w') w
        () := by
    intro own p hp hnone
    refine (safe_obeys hp hw fun w₁ _ => used_of_uses?_eq_none hnone t w₁).mono
      fun _ _ _ _ name hname => ?_
    cases hnone.symm.trans hname
  cases hfile : request.file? with
  | some target =>
    obtain ⟨file, owner⟩ := target
    obtain ⟨α, action, present, b, b', haction, hhandles, hpresent⟩ := isOnFile_of_file? hfile
    rw [haction]
    have hdue : ∀ w₁, (Path.isName file = true → UsedSince owner w.host.clock w₁) →
        request.Used t w₁ := by
      intro w₁ hused name huses e he
      obtain ⟨rfl, hname⟩ := uses?_of_file? hfile huses
      exact Int.le_trans ht (hused hname e he)
    refine safe_text ((aging_onFile file owner hhandles hpresent hw hdue).mono
      fun r w' _ hstamped name huses => ?_)
    obtain ⟨rfl, hname⟩ := uses?_of_file? hfile huses
    exact (hstamped hname).text
  | none =>
    cases request with
    | start directory name environment =>
      refine safe_text
        ((aging_startTool directory name environment hw (used_of_uses?_eq_none rfl t)).mono ?_)
      rintro _ _ _ _ _ ⟨⟩
    | sessions =>
      refine safe_text ((aging_sessionsTool hw (used_of_uses?_eq_none rfl t)).mono ?_)
      rintro _ _ _ _ _ ⟨⟩
    | stop name =>
      refine safe_text ((aging_stopTool name hw).mono ?_)
      rintro r w' _ hused _ ⟨⟩
      exact .inr hused
    | evaluate expression name limit =>
      refine safe_text ((aging_evaluateTool expression name limit hw ?_).mono ?_)
      · rintro w₁ hused _ ⟨⟩ e he
        exact Int.le_trans ht (hused e he)
      rintro r w' _ hstamped _ ⟨⟩
      exact hstamped.text
    | warnings file name =>
      exact hfree (.bind (Looks.obeys (.warningsTool file name)) fun _ => .done _) rfl
    | interruptAll =>
      exact hfree (.bind .get fun _ => .bind (aloof_interruptAll _) fun _ => .done _) rfl
    | snippets on =>
      exact hfree (.bind (.modify fun _ => ⟨rfl, rfl⟩) fun _ => .done _) rfl
    | edit file command line column owner =>
      cases command with
      | refine variant stem choices =>
        have hbad : Variant.ofText? variant = none := Option.map_eq_none_iff.1 hfile
        have huses : (ToolRequest.edit file (.refine variant stem choices) line column
            owner).uses? = none := by
          unfold uses?
          dsimp only
          rw [hfile]
          rfl
        refine hfree (.bind ?_ fun _ => .done _) huses
        unfold refineTool
        rw [hbad]
        exact .done _
      | _ => cases hfile
    | _ => cases hfile

end ToolRequest

end IdeMode
