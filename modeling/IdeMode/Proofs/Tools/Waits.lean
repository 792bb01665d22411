import IdeMode.Proofs.Prog.Environment
import IdeMode.Proofs.World.Drift
set_option autoImplicit false

/-!
# The waits of tools

A tool waits for the outcomes of its calls, for the banner of a process and for the exit of one.
While it waits, processes and calls go on, but no file and no document changes. The history of the
waits shows every load: a tool that has asked for one waits for its outcome, so the wait shows the
world in which the load was sent and the world in which it was answered.
-/

namespace IdeMode

open World List

/-! ## The history of waits -/

/-- A wait: what was waited for, the world in which it began and the one in which it ended. -/
structure Pause where
  on : Await
  found : World
  left : World

namespace Pause

/-- The call of a session whose outcome was waited for: it was issued right before. -/
def issued? (x : Pause) (s : Nat) : Option Call :=
  match x.on with
  | .outcome t _ => if t = s then (x.found.session s).dispatch.pending.getLast? else none
  | _ => none

/-- The outcome of a load of a session was waited for. -/
def isLoad (s : Nat) (x : Pause) : Bool :=
  (x.issued? s).any fun call => call.command.tag = "load-file"

/-- The file at a path was to be loaded: by its name, in its directory. -/
def Loads (x : Pause) (s : Nat) (p : Path) : Prop :=
  (∃ call, x.issued? s = some call ∧ call.command = loadCommand p) ∧
    (x.found.session s).cwd = some p.parent

/-- The call that was waited for was answered well. -/
def Answered (x : Pause) (s : Nat) : Prop :=
  ∃ call r, x.issued? s = some call ∧ (x.left.session s).dispatch.outcomes.get? call.id =
    some (.answered r)

instance (c : Command) (p : Path) : Decidable (c = loadCommand p) :=
  match c with
  | ⟨tag, [.str name]⟩ =>
    decidable_of_iff (tag = "load-file" ∧ name = p.name) (by simp [loadCommand])
  | ⟨_, []⟩ | ⟨_, .str _ :: _ :: _⟩ | ⟨_, .sym _ :: _⟩ | ⟨_, .int _ :: _⟩ | ⟨_,
    .list _ :: _⟩ | ⟨_, .bool _ :: _⟩
  | ⟨_, .real _ :: _⟩ | ⟨_, .none :: _⟩ => .isFalse (by simp [loadCommand])

instance (x : Pause) (s : Nat) (p : Path) : Decidable (x.Loads s p) :=
  decidable_of_iff ((x.issued? s).any (fun call => decide (call.command = loadCommand p)) = true ∧
    (x.found.session s).cwd = some p.parent) (and_congr_left' (by simp [Option.any_eq_true]))

instance (x : Pause) (s : Nat) : Decidable (x.Answered s) :=
  decidable_of_iff ((x.issued? s).any
    (fun call => match (x.left.session s).dispatch.outcomes.get? call.id with
      | some (.answered _) => true
      | _ => false) = true) (by
    unfold Pause.Answered
    cases x.issued? s with
    | none => simp
    | some call =>
      simp only [Option.any_some, Option.some.injEq, exists_and_left, exists_eq_left']
      split
      · next r heq => simp [heq]
      · next hne => simpa using hne)

end Pause

/-- The last load of a session. -/
def lastLoad (s : Nat) (h : List Pause) : Option Pause := (h.filter (Pause.isLoad s)).getLast?

section LastLoad

variable {s : Nat} {h : List Pause} {x : Pause}

theorem lastLoad_append_of_isLoad (hx : x.isLoad s = true) : lastLoad s (h ++ [x]) = some x := by
  unfold lastLoad
  rw [filter_append, filter_cons_of_pos hx, filter_nil, List.getLast?_concat]

theorem lastLoad_append_of_not {more : List Pause} (hmore : ∀ x ∈ more, x.isLoad s = false) :
    lastLoad s (h ++ more) = lastLoad s h := by
  have hnone : more.filter (Pause.isLoad s) = [] :=
    filter_eq_nil_iff.2 fun x hx => by simp [hmore x hx]
  unfold lastLoad
  rw [filter_append, hnone, append_nil]

end LastLoad

namespace Tools

open Client Prog

/-- A program has run to its end. While it waited, processes and calls went on, and it remembers its
waits. -/
inductive Ran {α : Type} :
    Action α → World → List Pause → Result α → World → List Pause → Prop where
  | done (r : Result α) (w : World) (h : List Pause) : Ran (.done r) w h r w h
  | look {next : World → Action α} {w w' : World} {h h' : List Pause} {r : Result α}
    (hrest : Ran (next w) w h r w' h') : Ran (.look next) w h r w' h'
  | store {next : Action α} {w w₁ w' : World} {h h' : List Pause} {r : Result α}
    (hrest : Ran next w₁ h r w' h') : Ran (.store w₁ next) w h r w' h'
  | wait {on : Await} {deadline : Option Int} {next : Signal → Action α} {w w₁ w' : World}
    {h h' : List Pause} {r : Result α} (signal : Signal) (hdrifts : Drifts w w₁)
    (hrest : Ran (next signal) w₁ (h ++ [⟨on, w, w₁⟩]) r w' h') :
    Ran (.wait on deadline next) w h r w' h'

/-- What tools keep to: they remember their waits, during which processes and calls go on, and they
keep order. -/
def following : Discipline World Await (List Pause) where
  Step w h w' h' := h' = h ∧ KeepsOrder w w'
  Pause _ _ _ := True
  Wake on _ w h w' h' := Drifts w w' ∧ h' = h ++ [⟨on, w, w'⟩]

variable {α β : Type} {s : Nat} {w w' : World} {h h' : List Pause}

variable {p : Action α} {command : Command} {t : Nat} {r : Result α}

/-- What holds at the end of a safe program holds after every run. -/
theorem Ran.of_safe {Q : Result α → World → List Pause → Prop} (hran : Ran p w h r w' h')
    (hp : Safe following p Q w h) : Q r w' h' := by
  induction hran with
  | done r w h => exact hp
  | look hrest ih => exact ih hp
  | store hrest ih =>
    obtain ⟨_, ⟨rfl, -⟩, hnext⟩ := hp
    exact ih hnext
  | wait signal hdrifts hrest ih => exact ih (hp.2 _ _ _ ⟨hdrifts, rfl⟩)

/-- A program runs to the end of its first part, and from there on if that ends well. -/
theorem ran_bind {f : α → Action β} {r : Result β} (hran : Ran (p >>= f) w h r w' h') :
    ∃ a w₁ h₁, Ran p w h a w₁ h₁ ∧
      match a with
      | .ok a => Ran (f a) w₁ h₁ r w' h'
      | .error e => r = .error e ∧ w' = w₁ ∧ h' = h₁ := by
  induction p generalizing w h with
  | done a =>
    refine ⟨a, w, h, .done a w h, ?_⟩
    cases a with
    | ok a => exact hran
    | error e =>
      cases hran
      exact ⟨rfl, rfl, rfl⟩
  | look next ih =>
    cases hran with
    | look hrest =>
      obtain ⟨a, w₁, h₁, hfirst, hmore⟩ := ih w hrest
      exact ⟨a, w₁, h₁, .look hfirst, hmore⟩
  | store w₂ next ih =>
    cases hran with
    | store hrest =>
      obtain ⟨a, w₁, h₁, hfirst, hmore⟩ := ih hrest
      exact ⟨a, w₁, h₁, .store hfirst, hmore⟩
  | wait on deadline next ih =>
    cases hran with
    | wait signal hdrifts hrest =>
      obtain ⟨a, w₁, h₁, hfirst, hmore⟩ := ih signal hrest
      exact ⟨a, w₁, h₁, .wait signal hdrifts hfirst, hmore⟩

/-- An attempt runs like the program itself. -/
theorem ran_attempt {r : Result (Result α)} (hran : Ran p.attempt w h r w' h') :
    ∃ a, Ran p w h a w' h' ∧ r = .ok a := by
  induction p generalizing w h with
  | done a =>
    cases hran
    exact ⟨a, .done a _ _, rfl⟩
  | look next ih =>
    cases hran with
    | look hrest =>
      obtain ⟨a, hfirst, hr⟩ := ih w hrest
      exact ⟨a, .look hfirst, hr⟩
  | store w₂ next ih =>
    cases hran with
    | store hrest =>
      obtain ⟨a, hfirst, hr⟩ := ih hrest
      exact ⟨a, .store hfirst, hr⟩
  | wait on deadline next ih =>
    cases hran with
    | wait signal hdrifts hrest =>
      obtain ⟨a, hfirst, hr⟩ := ih signal hrest
      exact ⟨a, .wait signal hdrifts hfirst, hr⟩

theorem ran_map {f : α → β} {r : Result β} (hran : Ran (f <$> p) w h r w' h') :
    ∃ a, Ran p w h a w' h' ∧ r = a.map f := by
  obtain ⟨a, w₁, h₁, hfirst, hmore⟩ := ran_bind (f := fun a => pure (f a)) hran
  cases a with
  | ok a =>
    cases hmore
    exact ⟨.ok a, hfirst, rfl⟩
  | error e =>
    obtain ⟨rfl, rfl, rfl⟩ := hmore
    exact ⟨.error e, hfirst, rfl⟩

/-- A program that comes to its end without a wait has run. -/
theorem ran_of_finished (hrun : p.run w = (.finished r, w')) (h : List Pause) :
    Ran p w h r w' h := by
  induction p generalizing w with
  | done a =>
    cases hrun
    exact .done r _ h
  | look next ih => exact .look (ih w hrun)
  | store w₂ next ih => exact .store (ih hrun)
  | wait on deadline next ih => cases hrun

/-- A program that waits has run when it has gone on to its end. -/
theorem ran_of_waiting {on : Await} {deadline : Option Int} {next : Signal → Action α}
    {w₁ w₂ : World} {signal : Signal} (hrun : p.run w = (.waiting on deadline next, w₁))
    (hdrifts : Drifts w₁ w₂) (hrest : Ran (next signal) w₂ (h ++ [⟨on, w₁, w₂⟩]) r w' h') :
    Ran p w h r w' h' := by
  induction p generalizing w with
  | done a => cases hrun
  | look next ih => exact .look (ih w hrun)
  | store w₂ next ih => exact .store (ih hrun)
  | wait on deadline next ih =>
    cases hrun
    exact .wait signal hdrifts hrest

/-! ## Programs that load nothing -/

/-- Only processes and calls went on, and no load was waited for. -/
structure Passed (w : World) (h : List Pause) (w' : World) (h' : List Pause) : Prop where
  drifts : Drifts w w'
  waits : ∃ more, h' = h ++ more ∧ ∀ x ∈ more, ∀ s, x.isLoad s = false

theorem Passed.of_drifts (hdrifts : Drifts w w') : Passed w h w' h :=
  ⟨hdrifts, [], (append_nil h).symm, nofun⟩

theorem Passed.trans {w₁ w₂ w₃ : World} {h₁ h₂ h₃ : List Pause} (hp : Passed w₁ h₁ w₂ h₂)
    (hq : Passed w₂ h₂ w₃ h₃) : Passed w₁ h₁ w₃ h₃ := by
  obtain ⟨hdrifts, more, rfl, hmore⟩ := hp
  obtain ⟨hdrifts', more', rfl, hmore'⟩ := hq
  refine ⟨hdrifts.trans hdrifts', more ++ more', append_assoc .., fun x hx => ?_⟩
  exact (mem_append.1 hx).elim (hmore x) (hmore' x)

theorem Passed.lastLoad_eq (hp : Passed w h w' h') (s : Nat) : lastLoad s h' = lastLoad s h := by
  obtain ⟨-, more, rfl, hmore⟩ := hp
  exact lastLoad_append_of_not fun x hx => hmore x hx s

/-- The program deals with processes and calls only, and asks for no load. -/
def Passes (p : Action α) : Prop := ∀ w h, Safe following p (fun _ w' h' => Passed w h w' h') w h

theorem Passes.done (r : Result α) : Passes (.done r) := fun w _ => .of_drifts (.refl w)

theorem Passes.bind {f : α → Action β} (hp : Passes p) (hf : ∀ a, Passes (f a)) :
    Passes (p >>= f) := by
  intro w h
  refine Safe.bind ((hp w h).mono fun r w' h' hpassed => ?_)
  cases r with
  | ok a => exact (hf a w' h').mono fun _ _ _ hmore => hpassed.trans hmore
  | error e => exact hpassed

theorem passes_attempt (hp : Passes p) : Passes p.attempt := fun w h => Safe.attempt (hp w h)

protected theorem Passes.get : Passes (get : Action World) := fun w _ => .of_drifts (.refl w)

theorem passes_modify {f : World → World} (hf : ∀ w, Drifts w (f w))
    (horder : ∀ w, KeepsOrder w (f w)) :
    Passes (modify f : Action PUnit) := fun w _ => ⟨_, ⟨rfl, horder w⟩, .of_drifts (hf w)⟩

protected theorem Passes.session (s : Nat) : Passes (session s) := .bind .get fun _ => .done _

theorem passes_isRunning (s : Nat) : Passes (isRunning s) := .bind .get fun _ => .done _

theorem passes_modifySession {f : Session → Session}
    (hpapers : ∀ session, (f session).papers = session.papers)
    (hchild : ∀ session, (f session).transport.child = session.transport.child)
    (hdispatch : ∀ session, (f session).dispatch = session.dispatch) : Passes (modifySession s f) :=
  passes_modify (fun _ => drifts_modifySession (hpapers _) (hchild _))
    fun _ => keepsOrder_modifySession (hdispatch _)

theorem drifts_of_gentle (hgentle : Gentle t w w') : Drifts w w' := by
  cases hgentle with
  | stirs hstirs _ => exact hstirs.drifts
  | @transport f hf =>
    refine ⟨undisturbed_modifyTransport w t f, Int.le_refl _, .refl _, fun s c hc => .inl ?_⟩
    rcases child_modifyTransport hc with ⟨-, hc⟩ | ⟨rfl, hgiven⟩
    · exact hc
    · rcases hf (w.session t).transport with hsame | hnone
      · exact hsame.symm.trans hgiven
      · cases hnone.symm.trans hgiven

theorem keepsOrder_of_gentle (hgentle : Gentle t w w') : KeepsOrder w w' := by
  cases hgentle with
  | stirs hstirs _ => exact hstirs.keepsOrder
  | transport hf => exact keepsOrder_modifySession rfl

/-- Programs that only deal with processes wait for no call. -/
theorem passes_of_gentle (hp : Obeys (gentle t) p) : Passes p := by
  have hsafe : ∀ {p : Action α} {w₀ w : World} {h₀ h : List Pause}
    {Q : Result α → World → Unit → Prop}, Safe (gentle t) p Q w () → Passed w₀ h₀ w h →
        Safe following p (fun _ w' h' => Passed w₀ h₀ w' h') w h := by
    intro p w₀ w h₀ h Q hp hpassed
    induction p generalizing w h with
    | done r => exact hpassed
    | look next ih => exact ih w hp hpassed
    | store w' next ih =>
      obtain ⟨_, hstep, hnext⟩ := hp
      exact ⟨h, ⟨rfl, keepsOrder_of_gentle hstep⟩,
        ih hnext (hpassed.trans (.of_drifts (drifts_of_gentle hstep)))⟩
    | wait on deadline next ih =>
      refine ⟨trivial, fun signal w' h' hwake =>
        ih signal (hp.2 signal w' () trivial) (hpassed.trans ?_)⟩
      obtain ⟨hdrifts, rfl⟩ := hwake
      refine ⟨hdrifts, _, rfl, fun x hx s => ?_⟩
      obtain rfl := mem_singleton.1 hx
      cases on with
      | outcome t id => exact absurd rfl (hp.1 t id)
      | _ => rfl
  exact fun w h => hsafe (hp w) (.of_drifts (.refl w))

/-! ## Calls -/

/-- The wait of a call that was issued in a world. -/
structure Asks (s : Nat) (command : Command) (w : World) (x : Pause) : Prop where
  issued : ∃ call, x.issued? s = some call ∧ call.command = command
  other : ∀ t, t ≠ s → x.issued? t = none
  found : Drifts w x.found
  left : Drifts x.found x.left
  cwd_eq : (x.found.session s).cwd = (w.session s).cwd

theorem Asks.isLoad_of_ne {x : Pause} (hx : Asks s command w x) (ht : t ≠ s) :
    x.isLoad t = false := by
  unfold Pause.isLoad
  rw [hx.other t ht]
  rfl

theorem Asks.isLoad_of_tag {x : Pause} (hx : Asks s command w x)
    (htag : command.tag ≠ "load-file") (t : Nat) : x.isLoad t = false := by
  by_cases ht : t = s
  · subst ht
    obtain ⟨call, hissued, rfl⟩ := hx.issued
    unfold Pause.isLoad
    rw [hissued, Option.any_some]
    exact decide_eq_false htag
  · exact hx.isLoad_of_ne ht

/-- The outcome of a call that was waited for is taken, and a response is returned if it is an
answer. -/
theorem safe_takeOutcome {id : Nat} {limit : Option Duration} {tag : String}
    {Q : Result Response → World → List Pause → Prop}
    (hend : ∀ r w', Drifts w w' →
      ((∃ a, r = .ok a) ↔ ∃ a, (w.session s).dispatch.outcomes.get? id = some (.answered a)) →
        Q r w' h) : Safe following (takeOutcome s id >>= conclude s id limit tag) Q w h := by
  let taken := w.modifyDispatch s fun d => { d with outcomes := d.outcomes.erase id }
  have htaken : Drifts w taken := drifts_modifyDispatch w s _
  have hkept : KeepsOrder w taken := keepsOrder_modifyDispatch fun _ hcall => hcall
  refine ⟨h, ⟨rfl, hkept⟩, ?_⟩
  have hdropped : Drifts w (taken.modifyDispatch s fun d => d.remove id) :=
    htaken.trans (drifts_modifyDispatch _ s _)
  have hremove : KeepsOrder taken (taken.modifyDispatch s fun d => d.remove id) :=
    keepsOrder_modifyDispatch fun _ hcall => (mem_filter.1 hcall).1
  have hfault : ∀ f : Fault, ¬ ∃ a, (.error f : Result Response) = .ok a :=
    fun _ ⟨_, ha⟩ => nomatch ha
  cases hget : (w.session s).dispatch.outcomes.get? id with
  | none =>
    exact ⟨h, ⟨rfl, hremove⟩,
      hend _ _ hdropped (iff_of_false (hfault _) fun ⟨_, ha⟩ => nomatch hget.symm.trans ha)⟩
  | some outcome =>
    cases outcome with
    | answered a => exact hend (.ok a) taken htaken (iff_of_true ⟨a, rfl⟩ ⟨a, hget⟩)
    | failed f =>
      exact hend _ taken htaken (iff_of_false (hfault _) fun ⟨_, ha⟩ => nomatch hget.symm.trans ha)
    | expired =>
      exact ⟨h, ⟨rfl, hremove⟩,
        hend _ _ hdropped (iff_of_false (hfault _) fun ⟨_, ha⟩ => nomatch hget.symm.trans ha)⟩

/-- A call fails at once if no process runs; else it has one wait, and returns a response if it was
answered well. -/
theorem safe_call {limit : Option Duration} {Q : Result Response → World → List Pause → Prop}
    (hidle : w.isRunning s = false → Q (.error (.unavailable .notRunning)) w h)
    (hend : w.isRunning s = true →
      ∀ x r w', Asks s command w x → Drifts x.left w' → ((∃ a, r = .ok a) ↔ x.Answered s) →
      Q r w' (h ++ [x])) :
    Safe following (call s command limit) Q w h := by
  refine safe_isRunning ?_
  cases hrunning : w.isRunning s with
  | false => exact hidle hrunning
  | true =>
    obtain ⟨hpending, hcommand⟩ := pending_issue (length_of_isRunning hrunning) command .waiter
    have hfound := drifts_issue w s command .waiter
    have hcwd := session_issue_feature (g := Session.cwd) (fun _ _ => rfl) w s s command .waiter
    refine ⟨h, ⟨rfl, keepsOrder_issue w s command⟩, ?_⟩
    show Safe following (awaitOutcome s (w.issue s command .waiter).1.id limit >>=
      conclude s (w.issue s command .waiter).1.id limit command.tag) Q
      (w.issue s command .waiter).2 h
    generalize w.issue s command .waiter = issued at hpending hcommand hfound hcwd ⊢
    obtain ⟨issued, w₁⟩ := issued
    have hawait : ∀ deadline : Option Int,
      Safe following (Prog.await (.outcome s issued.id) deadline >>= fun _ =>
        takeOutcome s issued.id >>= conclude s issued.id limit command.tag) Q w₁ h := by
      intro deadline
      refine ⟨trivial, ?_⟩
      rintro signal w' _ ⟨hdrifts, rfl⟩
      have hissued : (⟨.outcome s issued.id, w₁, w'⟩ : Pause).issued? s = some issued :=
        (if_pos rfl).trans hpending
      refine safe_takeOutcome fun r w'' hdrifts' hr =>
        hend hrunning _ r w'' ?_ hdrifts' (hr.trans ?_)
      · exact ⟨⟨issued, hissued, hcommand⟩, fun t ht => if_neg ht.symm, hfound, hdrifts, hcwd⟩
      · constructor
        · rintro ⟨a, ha⟩
          exact ⟨issued, a, hissued, ha⟩
        · rintro ⟨call, a, hcall, ha⟩
          obtain rfl := Option.some.inj (hissued.symm.trans hcall)
          exact ⟨a, ha⟩
    cases limit with
    | none => exact hawait none
    | some limit => exact hawait (some (w₁.host.clock + limit.nanos))

/-- A call that is no load passes. -/
theorem passes_call (htag : command.tag ≠ "load-file") (s : Nat) (limit : Option Duration) :
    Passes (call s command limit) := by
  intro w h
  refine safe_call (fun _ => .of_drifts (.refl w)) fun _ x r w' hx hdrifts _ => ?_
  refine ⟨(hx.found.trans hx.left).trans hdrifts, [x], rfl, fun y hy t => ?_⟩
  obtain rfl := mem_singleton.1 hy
  exact hx.isLoad_of_tag htag t

theorem passes_sessionCall (htag : command.tag ≠ "load-file") (s : Nat) (limit : Option Duration) :
    Passes (sessionCall s command limit) := .bind (.session s) fun _ => passes_call htag s _

/-! ## Processes -/

theorem passes_spawn (s : Nat) : Passes (spawn s) := by
  intro w h
  refine safe_session (.get ?_)
  refine .modify_bind h ⟨rfl, keepsOrder_spawn w _ _ _⟩ ?_
  split
  · exact .of_drifts drifts_spawn
  · exact .of_drifts drifts_spawn
  · next c hstarted =>
    exact .modify_bind h ⟨rfl, keepsOrder_modifySession rfl⟩
      (Passed.of_drifts (drifts_started hstarted s))

theorem passes_start (s : Nat) (limit : Duration) : Passes (start s limit) := by
  refine .bind (passes_isRunning s) fun running => ?_
  split
  · exact .done _
  · refine .bind (passes_spawn s) fun _ => ?_
    refine .bind (passes_of_gentle (gentle_readBanner s limit)) fun banner => ?_
    exact passes_of_gentle (gentle_of_drawing (drawing_greet s banner))

/-- A session whose process was stopped has none. -/
theorem safe_stop (s : Nat) (w : World) (h : List Pause) :
    Safe following (stop s) (fun r w' h' => Passed w h w' h' ∧
    ((∃ a, r = .ok a) → w'.isRunning s = false)) w h := by
  have hforget : ∀ w₁ h₁, Passed w h w₁ h₁ →
    Safe following (modify fun w => w.modifyTransport s fun t => { t with
      child := none, version := none } : Action Unit) (fun r w' h' => Passed w h w' h' ∧
      ((∃ a, r = .ok a) → w'.isRunning s = false)) w₁ h₁ := by
    intro w₁ h₁ hpassed
    have hgentle : Gentle s w₁
        (w₁.modifyTransport s fun t => { t with child := none, version := none }) :=
      .transport fun _ => .inr rfl
    refine ⟨h₁, ⟨rfl, keepsOrder_of_gentle hgentle⟩,
      hpassed.trans (.of_drifts (drifts_of_gentle hgentle)), fun _ => ?_⟩
    unfold World.isRunning
    rw [child_modifyTransport_none]
  refine safe_session ?_
  split
  · next c _ =>
    refine .get ?_
    split
    · refine Safe.bind ((passes_of_gentle (gentle_terminate s c) w h).mono
        fun r w₁ h₁ hpassed => ?_)
      cases r with
      | ok _ => exact hforget w₁ h₁ hpassed
      | error e =>
        refine ⟨hpassed, ?_⟩
        rintro ⟨a, ⟨⟩⟩
    · exact hforget w h (.of_drifts (.refl w))
  · exact hforget w h (.of_drifts (.refl w))

theorem passes_discard (s : Nat) : Passes (discard s) :=
  passes_modify (fun w => drifts_discard w s) fun w => keepsOrder_discard w s

end Tools

end IdeMode
