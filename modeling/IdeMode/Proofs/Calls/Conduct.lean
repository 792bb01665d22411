import IdeMode.Proofs.Calls.Account
import IdeMode.Proofs.Client.Gentle
set_option autoImplicit false

/-!
# How programs treat calls

A program does one act at a time to the calls of a session. If it issues a call that it waits for,
it does nothing else to the calls until it has taken the outcome, and it takes the outcome of no
other call. A call whose time ran out is dropped in the same turn in which its outcome is taken.
-/

namespace IdeMode.Client

open Prog World

/-- Where a program stands with the calls of a session. -/
inductive Phase where
  /-- it waits for no call -/
  | free
  /-- it has issued a call and is to wait for its outcome -/
  | asking (id : Nat)
  /-- it has waited for a call and is to take its outcome -/
  | taking (id : Nat)
  /-- it has learned that the time of its call ran out, and is to drop it -/
  | dropping (id : Nat)

/-- The account as the program has it: a call that is to be dropped is no longer pending. -/
def Phase.view (s : Nat) (w : World) : Phase → Account
  | .dropping id => { w.account s with calls := (w.account s).calls.remove id }
  | _ => w.account s

/-- Where a program stands after it has taken an outcome. -/
def Phase.afterTake (id : Nat) : Outcome → Phase
  | .expired => .dropping id
  | _ => .free

/-- The acts that a program may do at once, by where it stands before and after. -/
inductive Permits (a : Account) : Phase → List Act → Phase → Prop where
  | nothing (phase : Phase) : Permits a phase [] phase
  | drop (id : Nat) : Permits a (.dropping id) [] .free
  | issue {call : Call} (hid : call.id = a.calls.nextId) (hcall : call.hasContinuation = true) :
    Permits a .free [.issue call] .free
  | issueAwaited {call : Call} (hid : call.id = a.calls.nextId) (hcall : call.addressee = .waiter) :
    Permits a .free [.issue call] (.asking call.id)
  | refuse {call : Call} (hid : call.id = a.calls.nextId) (hcall : call.hasContinuation = true) :
    Permits a .free [.refuse call] .free
  | reply (id : Option Int) (ok : Bool) (payload : List Value) :
    Permits a .free [.reply id ok payload] .free
  | outage (o : Outage) : Permits a .free [.outage o] .free
  | discard : Permits a .free [.discard] .free
  | take {id : Nat} {outcome : Outcome} (h : outcome = (a.calls.outcomes.get? id).getD .expired) :
    Permits a (.taking id) [.take id outcome] (.afterTake id outcome)

/-- A program that has asked waits for its call and nothing else, and one that has not waits for no
call. Only those that may ask do so. -/
def Phase.MayWait (s : Nat) (asks : Bool) (on : Await) : Phase → Prop
  | .free => ∀ id, on ≠ .outcome s id
  | .asking id => asks = true ∧ on = .outcome s id
  | _ => False

/-- Where a program stands when its wait is over. -/
def Phase.woken : Phase → Phase
  | .asking id => .taking id
  | phase => phase

/-- A program does acts to the calls of a session. -/
structure Does (s : Nat) (w : World) (phase : Phase) (acts : List Act) (w' : World)
    (phase' : Phase) : Prop where
  informs : Informs s w w'
  permits : Permits (phase.view s w) phase acts phase'
  view_eq : phase'.view s w' = acts.foldl Account.after (phase.view s w)

/-- What programs keep to with the calls of a session that exists. -/
def conduct (s : Nat) (asks : Bool) : Discipline World Await Phase where
  Step w phase w' phase' := ∃ acts, Does s w phase acts w' phase'
  Pause on _ phase := phase.MayWait s asks on
  Wake _ _ _ phase w' phase' := s < w'.sessions.length ∧ phase' = phase.woken

/-- The program keeps to the rules from wherever it starts, and owes nothing at its end. -/
def Tame (s : Nat) (asks : Bool) {α : Type} (p : Action α) : Prop :=
  ∀ w, s < w.sessions.length →
    Safe (conduct s asks) p (fun _ w' phase => s < w'.sessions.length ∧ phase = .free) w .free

variable {s : Nat} {asks : Bool} {α β : Type}

/-! ## Building blocks -/

theorem tame_done (r : Result α) : Tame s asks (.done r) := fun _ hs => ⟨hs, rfl⟩

protected theorem Tame.pure (a : α) : Tame s asks (pure a : Action α) := tame_done (.ok a)

protected theorem Tame.throw (f : Fault) : Tame s asks (throw f : Action α) := tame_done (.error f)

protected theorem Tame.get : Tame s asks (get : Action World) := fun _ hs => ⟨hs, rfl⟩

variable {t : Nat} {id : Nat} {w : World} {p : Action α} {f : α → Action β}

theorem Tame.bind (hp : Tame s asks p) (hf : ∀ a, Tame s asks (f a)) : Tame s asks (p >>= f) := by
  intro w hs
  refine Safe.bind ((hp w hs).mono ?_)
  rintro r w' phase ⟨hs', rfl⟩
  cases r with
  | ok a => exact hf a w' hs'
  | error e => exact ⟨hs', rfl⟩

protected theorem Tame.map (f : α → β) (hp : Tame s asks p) : Tame s asks (f <$> p) :=
  .bind hp fun a => .pure (f a)

theorem tame_attempt (hp : Tame s asks p) : Tame s asks p.attempt :=
  fun w hs => Safe.attempt (hp w hs)

variable {w' : World}

/-- A replacement of the world that does nothing to the calls. -/
theorem does_quiet (phase : Phase) (h : Quiet s w w') : Does s w phase [] w' phase := by
  refine ⟨h.informs, .nothing phase, ?_⟩
  cases phase with
  | free => exact h.account_eq
  | asking id => exact h.account_eq
  | taking id => exact h.account_eq
  | dropping id => simp only [Phase.view, h.account_eq, List.foldl_nil]

theorem step_quiet (phase : Phase) (h : Quiet s w w') : (conduct s asks).Step w phase w' phase :=
  ⟨[], does_quiet phase h⟩

protected theorem Tame.modify {f : World → World}
    (hf : ∀ w, s < w.sessions.length → Quiet s w (f w)) :
    Tame s asks (modify f : Action PUnit) := by
  intro w hs
  have hquiet := hf w hs
  exact ⟨.free, step_quiet .free hquiet, Nat.lt_of_lt_of_le hs hquiet.length_le, rfl⟩

/-- A program that looks at the world, replaces it quietly and goes on. -/
theorem tame_exchange {f : World → World} {next : World → Action α}
    (hf : ∀ w, s < w.sessions.length → Quiet s w (f w)) (hnext : ∀ w, Tame s asks (next w)) :
    Tame s asks (get >>= fun w => set (f w) >>= fun _ => next w) := by
  intro w hs
  have hquiet := hf w hs
  exact ⟨.free, step_quiet .free hquiet, hnext w _ (Nat.lt_of_lt_of_le hs hquiet.length_le)⟩

theorem tame_await {on : Await} {deadline : Option Int} (h : ∀ id, on ≠ .outcome s id) :
    Tame s asks (Prog.await on deadline : Action Signal) := by
  intro w hs
  refine ⟨h, ?_⟩
  rintro signal w' phase ⟨hs', rfl⟩
  exact ⟨hs', rfl⟩

theorem tame_mapM_option (hf : ∀ a, Tame s asks (f a)) (o : Option α) : Tame s asks (o.mapM f) := by
  cases o with
  | none => exact .pure none
  | some a => exact .bind (hf a) fun b => .pure (some b)

protected theorem Tame.session (t : Nat) : Tame s asks (session t) :=
  .bind .get fun w => .pure (w.session t)

theorem tame_isRunning (t : Nat) : Tame s asks (isRunning t) :=
  .bind .get fun w => .pure (w.isRunning t)

theorem tame_deadlineIn (d : Duration) : Tame s asks (deadlineIn d) := .bind .get fun _ => .pure _

protected theorem Tame.modifySession {f : Session → Session}
    (hf : ∀ session, (f session).dispatch.ledger = session.dispatch.ledger) :
    Tame s asks (modifySession t f) :=
  .modify fun _ _ => quiet_modifySession (hf _)

/-! ## Processes -/

theorem Gentle.quiet (h : Gentle t w w') : Quiet s w w' := by
  cases h with
  | stirs h _ => exact h.quiet
  | transport => exact quiet_modifySession rfl

/-- A program is tame if all its steps are free ones, and it waits for no call. -/
theorem Tame.of_obeys {D : Discipline World Await Unit} (h : Obeys D p)
    (hstep : ∀ w w', s < w.sessions.length → D.Step w () w' () →
      (conduct s asks).Step w .free w' .free ∧ s < w'.sessions.length)
    (hpause : ∀ on w, D.Pause on w () → ∀ id, on ≠ .outcome s id)
    (hwake : ∀ on signal w w', D.Wake on signal w () w' ()) : Tame s asks p := by
  intro w hs
  refine (Safe.refine (R := fun w _ phase => s < w.sessions.length ∧ phase = .free) ?_ ?_ ?_ (h w)
    ⟨hs, rfl⟩).mono ?_
  · rintro w _ phase w' _ ⟨hs, rfl⟩ hw
    exact ⟨.free, (hstep w w' hs hw).1, (hstep w w' hs hw).2, rfl⟩
  · rintro on w _ phase ⟨-, rfl⟩ hon
    exact hpause on w hon
  · rintro on signal w _ phase w' phase' ⟨-, rfl⟩ ⟨hs', rfl⟩
    exact ⟨(), hwake on signal w w', hs', rfl⟩
  · rintro r w' phase ⟨-, -, hend⟩
    exact hend

theorem step_of_quiet (hs : s < w.sessions.length) (h : Quiet s w w') :
    (conduct s asks).Step w .free w' .free ∧ s < w'.sessions.length :=
  ⟨step_quiet .free h, Nat.lt_of_lt_of_le hs h.length_le⟩

/-- Programs that only deal with processes have no part in calls. -/
protected theorem Tame.of_gentle (h : Obeys (gentle t) p) : Tame s asks p :=
  .of_obeys h (fun _ _ hs hw => step_of_quiet hs (Gentle.quiet hw)) (fun _ _ hon => hon s)
    fun _ _ _ _ => trivial

theorem tame_spawn (t : Nat) : Tame s asks (spawn t) := by
  refine .bind (.session t) fun session => .bind .get fun w => ?_
  refine .bind (.modify fun w _ => quiet_host w _) fun _ => ?_
  split
  · exact .throw _
  · exact .throw _
  · exact .bind (.modify fun w _ => quiet_modifySession rfl) fun _ => .pure _

theorem tame_start (t : Nat) (limit : Duration) : Tame s asks (start t limit) := by
  refine .bind (tame_isRunning t) fun running => ?_
  split
  · exact .pure _
  · refine .bind (tame_spawn t)
      fun _ => .bind (.of_gentle (gentle_readBanner t limit)) fun banner => ?_
    exact .of_gentle (gentle_of_drawing (drawing_greet t banner))

/-! ## Calls -/

/-- A replacement of the world that is an act. -/
theorem step_act {phase : Phase} {act : Act} (hinforms : Informs s w w')
    (hpermits : Permits (w.account s) .free [act] phase)
    (hw : phase.view s w' = (w.account s).after act) :
    (conduct s asks).Step w .free w' phase := ⟨[act], hinforms, hpermits, hw⟩

theorem does_take (hs : s < w.sessions.length) :
    Does s w (.taking id) [.take id (((w.session s).dispatch.outcomes.get? id).getD .expired)]
      (w.modifyDispatch s fun d => { d with outcomes := d.outcomes.erase id })
      (.afterTake id (((w.session s).dispatch.outcomes.get? id).getD .expired)) := by
  generalize houtcome : ((w.session s).dispatch.outcomes.get? id).getD .expired = outcome
  have haccount := account_modifySession (f := fun session =>
    { session with
      dispatch := { session.dispatch with outcomes := session.dispatch.outcomes.erase id } }) hs
  refine ⟨informs_modifyDispatch hs rfl fun id' hid => ?_, .take houtcome.symm, ?_⟩
  · rw [Table.get?_erase, hid, ite_self]
  · cases outcome with
    | answered r => exact haccount
    | failed f => exact haccount
    | expired => exact congrArg (fun a : Account => { a with calls := a.calls.remove id }) haccount

theorem does_drop (hs : s < w.sessions.length) :
    Does s w (.dropping id) [] (w.modifyDispatch s fun d => d.remove id) .free :=
  ⟨informs_modifyDispatch hs rfl fun _ hid => hid, .drop id, account_modifySession hs⟩

theorem safe_takeOutcome (hs : s < w.sessions.length) :
    Safe (conduct s asks) (takeOutcome s id) (fun r w' phase =>
        s < w'.sessions.length ∧ ∃ outcome, r = .ok outcome ∧ phase = .afterTake id outcome)
      w (.taking id) := by
  have hdoes := @does_take s id w hs
  exact ⟨_, ⟨_, hdoes⟩, Nat.lt_of_lt_of_le hs hdoes.informs.length_le, _, rfl, rfl⟩

theorem safe_conclude {limit : Option Duration} {tag : String} (outcome : Outcome)
    (hs : s < w.sessions.length) : Safe (conduct s asks) (conclude s id limit tag outcome)
      (fun _ w' phase => s < w'.sessions.length ∧ phase = .free) w (.afterTake id outcome) := by
  cases outcome with
  | answered r => exact ⟨hs, rfl⟩
  | failed f => exact ⟨hs, rfl⟩
  | expired =>
    have hdoes := @does_drop s id w hs
    exact ⟨.free, ⟨_, hdoes⟩, Nat.lt_of_lt_of_le hs hdoes.informs.length_le, rfl⟩

theorem safe_awaitOutcome (limit : Option Duration) (w : World) :
    Safe (conduct s true) (awaitOutcome s id limit) (fun r w' phase =>
        s < w'.sessions.length ∧ ∃ outcome, r = .ok outcome ∧ phase = .afterTake id outcome)
      w (.asking id) := by
  have hwait : ∀ deadline : Option Int, Safe (conduct s true) (do
      let _ ← Prog.await (.outcome s id) deadline
      takeOutcome s id : Action Outcome) (fun r w' phase =>
        s < w'.sessions.length ∧ ∃ outcome, r = .ok outcome ∧ phase = .afterTake id outcome)
      w (.asking id) := by
    intro deadline
    refine ⟨⟨rfl, rfl⟩, ?_⟩
    rintro signal w' phase ⟨hs', rfl⟩
    exact safe_takeOutcome hs'
  cases limit with
  | none => exact hwait none
  | some d => exact hwait (some (w.host.clock + d.nanos))

/-- Waiting for a call of another session. -/
theorem tame_awaitOutcome_of_ne (h : t ≠ s) (id : Nat) (limit : Option Duration) :
    Tame s asks (awaitOutcome t id limit) := by
  refine .bind (tame_mapM_option tame_deadlineIn limit) fun deadline => ?_
  refine .bind (tame_await ?_) fun _ => .bind (.session t) fun session => ?_
  · intro id' heq
    cases heq
    exact h rfl
  · exact .bind (.modify fun w _ => quiet_modifySession_of_ne h _) fun _ => .pure _

theorem tame_submit_of_ne (h : t ≠ s) (command : Command) (addressee : Addressee) :
    Tame s asks (submit t command addressee) := by
  intro w hs
  have hquiet := quiet_issue_of_ne h w command addressee
  exact safe_modifyGet .free (step_quiet .free hquiet) ⟨Nat.lt_of_lt_of_le hs hquiet.length_le, rfl⟩

theorem tame_submit {command : Command} {addressee : Addressee}
    (h : ∀ id, (Call.mk id command addressee).hasContinuation = true) :
    Tame s asks (submit s command addressee) := by
  intro w hs
  obtain ⟨hissued, haccount, hinforms⟩ := account_issue hs command addressee
  refine safe_modifyGet .free (step_act hinforms (.issue (congrArg Call.id hissued) ?_) haccount)
    ⟨Nat.lt_of_lt_of_le hs hinforms.length_le, rfl⟩
  rw [hissued]
  exact h _

/-- A call that is waited for, from its issue on. -/
theorem safe_submit_awaited {command : Command} {limit : Option Duration}
    (hs : s < w.sessions.length) : Safe (conduct s true) (do
      let issued ← submit s command .waiter
      conclude s issued.id limit command.tag (← awaitOutcome s issued.id limit) : Action Response)
      (fun _ w' phase => s < w'.sessions.length ∧ phase = .free) w .free := by
  obtain ⟨hissued, haccount, hinforms⟩ := account_issue hs command .waiter
  refine Safe.bind (safe_modifyGet (.asking (w.issue s command .waiter).1.id) ?_ ?_)
  · exact step_act hinforms
      (.issueAwaited (congrArg Call.id hissued) (congrArg Call.addressee hissued)) haccount
  · refine Safe.bind ((safe_awaitOutcome limit _).mono ?_)
    rintro r w' phase ⟨hs', outcome, rfl, rfl⟩
    exact safe_conclude outcome hs'

theorem tame_call (t : Nat) (command : Command) (limit : Option Duration) :
    Tame s true (call t command limit) := by
  refine .bind (tame_isRunning t) fun running => ?_
  split
  · by_cases hts : t = s
    · subst hts
      exact fun w hs => safe_submit_awaited hs
    · refine .bind (tame_submit_of_ne hts command .waiter) fun issued => ?_
      refine .bind (tame_awaitOutcome_of_ne hts _ limit) fun outcome => ?_
      cases outcome with
      | answered r => exact .pure r
      | failed f => exact .throw f
      | expired =>
        exact .bind (.modify fun w _ => quiet_modifySession_of_ne hts _) fun _ => .throw _
  · exact tame_done (.error (.unavailable .notRunning))

theorem tame_post (t : Nat) (command : Command) {addressee : Addressee} (h : addressee ≠ .waiter) :
    Tame s asks (post t command addressee) := by
  have hcontinuation : ∀ id, (Call.mk id command addressee).hasContinuation = true := fun id =>
    (Account.hasContinuation_iff _).2 h
  refine .bind (tame_isRunning t) fun running => ?_
  split
  · refine .bind ?_ fun issued => .pure _
    by_cases hts : t = s
    · subst hts
      exact tame_submit hcontinuation
    · exact tame_submit_of_ne hts command addressee
  · by_cases hts : t = s
    · subst hts
      intro w hs
      have hrefused : ((w.modifyDispatch t fun _ =>
          ((w.session t).dispatch.refuse command addressee).2).deliverAll t
          [(⟨(w.session t).dispatch.nextId, command, addressee⟩,
            .failed (.unavailable .notRunning))]).account t =
            (w.account t).after (.refuse ⟨(w.session t).dispatch.nextId, command, addressee⟩) ∧ _ :=
        account_settles hs rfl rfl rfl rfl
      refine ⟨.free, ?_, Nat.lt_of_lt_of_le hs hrefused.2.length_le, rfl⟩
      exact step_act hrefused.2 (.refuse rfl (hcontinuation _)) hrefused.1
    · refine .bind (.session t) fun session => ?_
      refine .bind (.modify fun w _ => ?_) fun _ => .pure _
      exact quiet_settles_of_ne hts w _ [(_, _)]

theorem tame_discard (t : Nat) : Tame s asks (discard t) := by
  by_cases hts : t = s
  · subst hts
    intro w hs
    obtain ⟨haccount, hinforms⟩ := account_discard hs
    exact ⟨.free, step_act hinforms .discard haccount,
      Nat.lt_of_lt_of_le hs hinforms.length_le, rfl⟩
  · exact .modify fun w _ => quiet_discard_of_ne hts w

section Notice

variable {session noted : Session} {cwd : Path} {m : Message}

/-- A notice touches the warnings, the output and the prompt only. -/
theorem exists_of_notice (h : session.notice cwd m = .ok noted) :
    ∃ warnings output prompt, noted =
      { session with warnings := warnings, output := output, prompt := prompt } := by
  unfold Session.notice at h
  split at h
  · split at h
    · unfold Session.addWarning at h
      split at h
      · cases h
        exact ⟨_, _, _, rfl⟩
      · cases h
    · cases h
      exact ⟨_, _, _, rfl⟩
  all_goals
    cases h
    exact ⟨_, _, _, rfl⟩

theorem dispatch_notice (h : session.notice cwd m = .ok noted) :
    noted.dispatch = session.dispatch := by
  obtain ⟨_, _, _, rfl⟩ := exists_of_notice h
  rfl

theorem ledger_notice (h : session.notice cwd m = .ok noted) :
    noted.dispatch.ledger = session.dispatch.ledger := congrArg Dispatch.ledger (dispatch_notice h)

end Notice

/-- What a loop does is free: it settles calls, or has no part in them. -/
theorem step_of_serves (hs : s < w.sessions.length) (h : Serves t w w') :
    (conduct s asks).Step w .free w' .free ∧ s < w'.sessions.length := by
  cases h with
  | writes h =>
    cases h with
    | gentle h => exact step_of_quiet hs h.quiet
    | pick =>
      refine step_of_quiet hs (quiet_modifySession ?_)
      unfold Dispatch.takeOutbox
      split <;> rfl
    | transmit c payload => exact step_of_quiet hs (quiet_transmit w t c payload)
    | outage o =>
      by_cases hts : t = s
      · subst hts
        obtain ⟨haccount, hinforms⟩ := account_settlePending hs o
        exact ⟨step_act hinforms (.outage o) haccount, Nat.lt_of_lt_of_le hs hinforms.length_le⟩
      · exact step_of_quiet hs (quiet_settles_of_ne hts w _ _)
  | note h => exact step_of_quiet hs (quiet_modifySession (ledger_notice h))
  | report m => exact step_of_quiet hs (quiet_report w _)
  | reply id ok payload =>
    by_cases hts : t = s
    · subst hts
      obtain ⟨haccount, hinforms⟩ := account_reply hs id ok payload
      exact ⟨step_act hinforms (.reply id ok payload) haccount,
        Nat.lt_of_lt_of_le hs hinforms.length_le⟩
    · exact step_of_quiet hs (quiet_settles_of_ne hts w _ _)

theorem Tame.of_serving (h : Obeys (serving t) p) : Tame s asks p :=
  .of_obeys h (fun _ _ hs hw => step_of_serves hs hw) (fun _ _ hon => hon s) fun _ _ _ _ => trivial

theorem tame_serve (service : Service) : Tame s asks (serve service) := by
  cases service with
  | reader t => exact .of_serving serving_readRound
  | writer t => exact .of_serving (serving_of_writing writing_writeRound)

end IdeMode.Client
