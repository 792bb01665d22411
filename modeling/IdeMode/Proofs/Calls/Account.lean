import IdeMode.Machine
import IdeMode.Proofs.World.Parts
set_option autoImplicit false

/-!
# The account of a session's calls

What a world shows of the calls of a session: its dispatcher, without the loops that serve it and
the tasks that wait, and the continuations that are queued. An act is something that happens to the
calls, and every operation of the client that touches them does so by acts; all else is quiet.
-/

namespace IdeMode

open List

/-- The calls of a dispatcher, without its loops, its outbox and the tasks that wait. -/
def Dispatch.calls (d : Dispatch) : Dispatch :=
  { nextId := d.nextId, pending := d.pending, stats := d.stats, outcomes := d.outcomes }

/-- The calls of a dispatcher with the tasks that wait for them. -/
def Dispatch.ledger (d : Dispatch) : Dispatch × Table Nat Nat := (d.calls, d.waiting)

/-- The continuation of a session that an entry of the queue runs. -/
def Wake.continuation? (s : Nat) : Wake → Option (Call × Outcome)
  | .settle t call outcome => if t = s then some (call, outcome) else none
  | _ => none

/-- What a world shows of the calls of a session. -/
structure Account where
  calls : Dispatch := {}
  /-- the continuations that are queued, the next one first -/
  due : List (Call × Outcome) := []

def World.account (w : World) (s : Nat) : Account :=
  ⟨(w.session s).dispatch.calls, w.ready.filterMap (Wake.continuation? s)⟩

/-- Something that happens to the calls of a session. -/
inductive Act where
  /-- a move of the machine begins -/
  | pass
  | issue (call : Call)
  /-- a call without a running process is turned down -/
  | refuse (call : Call)
  /-- a reply is routed -/
  | reply (id : Option Int) (ok : Bool) (payload : List Value)
  | outage (o : Outage)
  | discard
  /-- the time of a call that is waited for runs out -/
  | expire (id : Nat)
  /-- a waiter is told the outcome of its call -/
  | take (id : Nat) (outcome : Outcome)
  /-- the continuation of a call runs -/
  | resume (call : Call) (outcome : Outcome)

namespace Account

theorem hasContinuation_eq_false_iff (call : Call) :
    call.hasContinuation = false ↔ call.addressee = .waiter := by
  unfold Call.hasContinuation
  cases call.addressee <;> simp

theorem hasContinuation_iff (call : Call) :
    call.hasContinuation = true ↔ call.addressee ≠ .waiter := by
  rw [Ne, ← hasContinuation_eq_false_iff, Bool.not_eq_false]

/-- An outcome is told: a waiter that has one keeps it, and a continuation is queued. -/
def deliver (a : Account) (call : Call) (outcome : Outcome) : Account :=
  match call.addressee with
  | .waiter =>
    if (a.calls.outcomes.get? call.id).isSome then a
    else { a with calls := { a.calls with outcomes := a.calls.outcomes.set call.id outcome } }
  | _ => { a with due := a.due ++ [(call, outcome)] }

def deliverAll (a : Account) (settled : List (Call × Outcome)) : Account :=
  settled.foldl (fun a p => a.deliver p.1 p.2) a

/-- The calls that an act settles, with their outcomes. -/
def settledBy (a : Account) : Act → List (Call × Outcome)
  | .refuse call => [(call, .failed (.unavailable .notRunning))]
  | .reply id ok payload => (a.calls.settleReply id ok payload).1.toList
  | .outage o => (a.calls.settlePending o).1
  | .discard => a.calls.discard.1
  | _ => []

/-- The account after an act, before the outcomes that it settles are told. -/
def change (a : Account) : Act → Account
  | .issue call => { a with calls := (a.calls.issue call.command call.addressee).2.calls }
  | .refuse call => { a with calls := (a.calls.refuse call.command call.addressee).2 }
  | .reply id ok payload => { a with calls := (a.calls.settleReply id ok payload).2 }
  | .outage o => { a with calls := (a.calls.settlePending o).2 }
  | .discard => { a with calls := a.calls.discard.2 }
  | .expire id => { a with calls := { a.calls with outcomes := a.calls.outcomes.set id .expired } }
  | .take id outcome =>
    let left := { a.calls with outcomes := a.calls.outcomes.erase id }
    { a with calls := match outcome with
      | .expired => left.remove id
      | _ => left }
  | .resume _ _ => { a with due := a.due.tail }
  | _ => a

/-- The account after an act. -/
def after (a : Account) (act : Act) : Account := (a.change act).deliverAll (a.settledBy act)

end Account

namespace World

/-! ## Quiet changes -/

/-- Nothing happens to the calls of a session, nor to the tasks that wait for them. -/
structure Quiet (s : Nat) (w w' : World) : Prop extends Grows w w' where
  account_eq : w'.account s = w.account s
  waiting_eq : (w'.session s).dispatch.waiting = (w.session s).dispatch.waiting

variable {s t : Nat} {w w' : World}

theorem Quiet.refl (w : World) : Quiet s w w := ⟨.refl w, rfl, rfl⟩

theorem Quiet.trans {w₁ w₂ w₃ : World} (h : Quiet s w₁ w₂) (h' : Quiet s w₂ w₃) : Quiet s w₁ w₃ :=
  ⟨h.toGrows.trans h'.toGrows, h'.account_eq.trans h.account_eq, h'.waiting_eq.trans h.waiting_eq⟩

theorem composes_quiet : Composes (Quiet s) := ⟨.refl, .trans⟩

theorem filterMap_continuation?_resumes (s : Nat) (told : List Nat) :
    (told.map fun task => Wake.resume task .woken).filterMap (Wake.continuation? s) = [] := by
  induction told with
  | nil => rfl
  | cons task told ih => exact ih

/-- Processes have no part in the account. -/
theorem Stirs.quiet (h : Stirs w w') : Quiet s w w' := by
  obtain ⟨told, hready⟩ := h.ready_eq
  refine ⟨h.grows, ?_, ?_⟩
  · unfold account session
    rw [h.sessions_eq, hready, filterMap_append, filterMap_continuation?_resumes, append_nil]
  · unfold session
    rw [h.sessions_eq]

/-- A world in which nothing but what has no part in the account differs. -/
theorem quiet_of_parts (hsessions : w'.sessions = w.sessions) (hnext : w.nextTask ≤ w'.nextTask)
    (hready : w'.ready = w.ready) : Quiet s w w' := by
  refine ⟨grows_of_ready (Nat.le_of_eq (congrArg List.length hsessions).symm) hnext hready, ?_, ?_⟩
  · unfold account session
    rw [hsessions, hready]
  · unfold session
    rw [hsessions]

theorem quiet_host (w : World) (host : Host) : Quiet s w { w with host := host } :=
  quiet_of_parts rfl (Nat.le_refl _) rfl

theorem quiet_modifyChild (w : World) (c : Nat) (f : Host.Child → Host.Child) :
    Quiet s w (w.modifyChild c f) :=
  quiet_host w _

theorem quiet_modifySession {f : Session → Session}
    (hf : (f (w.session t)).dispatch.ledger = (w.session t).dispatch.ledger) :
    Quiet s w (w.modifySession t f) := by
  have hledger := session_modifySession_feature (fun session => session.dispatch.ledger) hf s
  refine ⟨grows_modifySession w t f, ?_, congrArg Prod.snd hledger⟩
  unfold account
  rw [show ((w.modifySession t f).session s).dispatch.calls = (w.session s).dispatch.calls from
    congrArg Prod.fst hledger]
  rfl

theorem quiet_modifySession_of_ne (h : t ≠ s) (f : Session → Session) :
    Quiet s w (w.modifySession t f) := by
  refine ⟨grows_modifySession w t f, ?_, ?_⟩
  · unfold account
    rw [session_modifySession_of_ne h]
    rfl
  · rw [session_modifySession_of_ne h]

theorem quiet_enqueue {e : Wake} (hserve : ∀ task service, e ≠ .serve task service)
    (h : e.continuation? s = none) : Quiet s w (w.enqueue e) := by
  refine ⟨grows_enqueue hserve, ?_, rfl⟩
  show Account.mk _ ((w.ready ++ [e]).filterMap _) = _
  rw [filterMap_append, filterMap_cons_none h, filterMap_nil, append_nil]
  rfl

theorem quiet_report (w : World) (e : Event) : Quiet s w (w.report e) :=
  quiet_of_parts rfl (Nat.le_refl _) rfl

theorem quiet_startService (w : World) (service : Service) :
    Quiet s w (w.startService service).2 := by
  refine ⟨grows_startService w service, ?_, rfl⟩
  show Account.mk _ ((w.ready ++ [Wake.serve w.nextTask service]).filterMap _) = _
  rw [filterMap_append, filterMap_cons_none rfl, filterMap_nil, append_nil]
  rfl

theorem quiet_modifyDispatch {f : Dispatch → Dispatch} (hf : ∀ d, (f d).ledger = d.ledger) :
    Quiet s w (w.modifyDispatch t f) := quiet_modifySession (hf _)

theorem quiet_ensureServices (w : World) (t : Nat) : Quiet s w (w.ensureServices t) :=
  composes_quiet.ensureServices (fun w service _ => quiet_startService w service)
    (fun _ _ _ => quiet_modifyDispatch fun _ => rfl) w

theorem dispatch_noteChange (session : Session) (p : Path) :
    (session.noteChange p).dispatch = session.dispatch := by
  unfold Session.noteChange
  split <;> rfl

theorem dispatch_adopt (session : Session) (d : Nat) (b : Buffer) :
    (session.adopt d b).dispatch = session.dispatch := by
  unfold Session.adopt
  split
  · split
    · exact dispatch_noteChange _ _
    · rfl
  · rfl

theorem dispatch_recordLoad (session : Session) (d generation : Nat) :
    (session.recordLoad d generation).dispatch = session.dispatch := by
  unfold Session.recordLoad
  split <;> rfl

theorem quiet_rereadDocument (w : World) (t d : Nat) : Quiet s w (w.rereadDocument t d) := by
  unfold rereadDocument
  split
  · exact quiet_modifySession (congrArg Dispatch.ledger (dispatch_adopt _ _ _))
  · exact .refl w

theorem quiet_rereadNamed (w : World) (t : Nat) (name : String) :
    Quiet s w (w.rereadNamed t name) := by
  unfold rereadNamed
  split
  · exact quiet_rereadDocument w t _
  · exact .refl w

theorem quiet_transmit (w : World) (t c : Nat) (payload : String) :
    Quiet s w (w.transmit t c payload) :=
  composes_quiet.transmit (fun w _ _ => quiet_host w _) (fun w _ _ => quiet_host w _)
    (fun w => quiet_rereadNamed w t) (fun w r id => (stirs_reaction w c r id).quiet) w payload

theorem quiet_loadFault (w : World) (t : Nat) (p : Path) (f : Fault) :
    Quiet s w (w.loadFault t p f).2 := by
  unfold loadFault
  split
  · exact quiet_of_parts rfl (Nat.le_refl _) rfl
  · exact .refl w

theorem quiet_settle (w : World) (t : Nat) (addressee : Addressee) (outcome : Outcome) :
    Quiet s w (w.settle t addressee outcome) := by
  cases addressee with
  | waiter => exact .refl w
  | continuation label =>
    cases outcome with
    | answered r => exact quiet_report w _
    | failed f => exact quiet_report w _
    | expired => exact .refl w
  | load label d generation =>
    cases outcome with
    | answered r =>
      have hcalls := congrArg Dispatch.ledger (dispatch_recordLoad (w.session t) d generation)
      refine Quiet.trans ?_ (quiet_report _ _)
      exact quiet_modifySession hcalls
    | failed f => exact (quiet_loadFault w t _ f).trans (quiet_report _ _)
    | expired => exact .refl w

theorem quiet_addSession (hs : s < w.sessions.length) (session : Session) :
    Quiet s w (w.addSession session).2 := by
  have hsession : (w.addSession session).2.session s = w.session s := by
    unfold addSession World.session
    rw [List.getElem?_append_left hs]
  refine ⟨grows_of_ready ?_ (Nat.le_refl _) rfl, ?_, ?_⟩
  · show _ ≤ (w.sessions ++ [session]).length
    rw [length_append]
    omega
  · unfold account
    rw [hsession]
    rfl
  · rw [hsession]

/-! ## Other sessions -/

theorem quiet_settles_of_ne (h : t ≠ s) (w : World) (d : Dispatch)
    (settled : List (Call × Outcome)) :
    Quiet s w ((w.modifyDispatch t fun _ => d).deliverAll t settled) := by
  have hdispatch : ∀ w f, Quiet s w (w.modifyDispatch t f) :=
    fun _ _ => quiet_modifySession_of_ne h _
  refine (hdispatch w fun _ => d).trans ?_
  refine composes_quiet.deliverAll (fun w _ _ => hdispatch w _)
    (fun w task => (stirs_wake w task).quiet) ?_ _
  exact fun _ _ _ _ => quiet_enqueue (by rintro _ _ ⟨⟩) (if_neg h)

theorem quiet_issue_of_ne (h : t ≠ s) (w : World) (command : Command) (addressee : Addressee) :
    Quiet s w (w.issue t command addressee).2 :=
  composes_quiet.issue (quiet_ensureServices w t) (fun _ _ => quiet_modifySession_of_ne h _)
    fun w task => (stirs_wake w task).quiet

theorem quiet_discard_of_ne (h : t ≠ s) (w : World) : Quiet s w (w.discard t) := by
  exact (quiet_settles_of_ne h w _ _).trans (stirs_foldl stirs_wake _ _).quiet

/-! ## Those who wait -/

/-- A task waits for the outcome of a call, which is not yet known. -/
def Waits (w : World) (s id task : Nat) : Prop :=
  (w.session s).dispatch.waiting.get? id = some task ∧
    (w.session s).dispatch.outcomes.get? id = none

/-- Whoever waits for a call of a session still does, or is told to go on. -/
structure Informs (s : Nat) (w w' : World) : Prop extends Grows w w' where
  told : ∀ id task, w.Waits s id task → w'.Waits s id task ∨ .resume task .woken ∈ w'.ready

theorem Informs.refl (w : World) : Informs s w w := ⟨.refl w, fun _ _ h => .inl h⟩

theorem Informs.trans {w₁ w₂ w₃ : World} (h : Informs s w₁ w₂) (h' : Informs s w₂ w₃) :
    Informs s w₁ w₃ := by
  refine ⟨h.toGrows.trans h'.toGrows, fun id task hwaits => ?_⟩
  obtain hwaits | htold := h.told id task hwaits
  · exact h'.told id task hwaits
  · exact .inr (h'.mem_ready htold)

theorem Quiet.informs (h : Quiet s w w') : Informs s w w' := by
  have houtcomes : (w'.session s).dispatch.outcomes = (w.session s).dispatch.outcomes :=
    congrArg (fun a : Account => a.calls.outcomes) h.account_eq
  refine ⟨h.toGrows, fun id task hwaits => .inl ?_⟩
  unfold Waits
  rw [h.waiting_eq, houtcomes]
  exact hwaits

theorem informs_modifyDispatch (hs : s < w.sessions.length) {f : Dispatch → Dispatch}
    (hwaiting : (f (w.session s).dispatch).waiting = (w.session s).dispatch.waiting)
    (houtcomes : ∀ id, (w.session s).dispatch.outcomes.get? id = none →
      (f (w.session s).dispatch).outcomes.get? id = none) : Informs s w (w.modifyDispatch s f) := by
  refine ⟨grows_modifySession w s _, fun id task hwaits => .inl ?_⟩
  unfold Waits modifyDispatch
  rw [session_modifySession_self hs]
  exact ⟨hwaiting.symm ▸ hwaits.1, houtcomes id hwaits.2⟩

theorem informs_deliver (hs : s < w.sessions.length) (call : Call) (outcome : Outcome) :
    Informs s w (w.deliver s call outcome) := by
  unfold deliver
  split
  · dsimp only
    split
    · exact .refl w
    · have hmodify : ∀ id task, w.Waits s id task → id ≠ call.id →
          (w.modifyDispatch s fun d => { d with
            outcomes := d.outcomes.set call.id outcome
            waiting := d.waiting.erase call.id }).Waits s id task := by
        intro id task hwaits hid
        unfold Waits modifyDispatch
        rw [session_modifySession_self hs]
        simpa [hid.symm, Waits] using hwaits
      split
      · next task hwaiting =>
        refine ⟨(grows_modifySession w s _).trans (stirs_wake _ task).grows,
          fun id task' hwaits => ?_⟩
        by_cases hid : id = call.id
        · subst hid
          obtain rfl := Option.some.inj (hwaiting.symm.trans hwaits.1)
          exact .inr mem_concat_self
        · exact .inl (hmodify id task' hwaits hid)
      · next hnone =>
        refine ⟨grows_modifySession w s _, fun id task' hwaits => ?_⟩
        by_cases hid : id = call.id
        · subst hid
          rw [Waits, hnone] at hwaits
          cases hwaits.1
        · exact .inl (hmodify id task' hwaits hid)
  · exact ⟨grows_enqueue (by rintro _ _ ⟨⟩), fun _ _ hwaits => .inl hwaits⟩

/-! ## Acts -/

theorem account_modifySession {f : Session → Session} (hs : s < w.sessions.length) :
    (w.modifySession s f).account s =
      { w.account s with calls := (f (w.session s)).dispatch.calls } := by
  unfold account
  rw [session_modifySession_self hs]
  rfl

theorem account_deliver (hs : s < w.sessions.length) (call : Call) (outcome : Outcome) :
    (w.deliver s call outcome).account s = (w.account s).deliver call outcome := by
  unfold deliver Account.deliver
  cases call.addressee with
  | waiter =>
    dsimp only
    split
    · next h =>
      rw [if_pos (show ((w.account s).calls.outcomes.get? call.id).isSome = true from h)]
    · next h =>
      rw [if_neg (show ¬ ((w.account s).calls.outcomes.get? call.id).isSome = true from h)]
      have hset := account_modifySession (w := w) (f := fun session => { session with dispatch :=
        { session.dispatch with
          outcomes := session.dispatch.outcomes.set call.id outcome
          waiting := session.dispatch.waiting.erase call.id } }) hs
      split
      · exact (stirs_wake _ _).quiet.account_eq.trans hset
      · exact hset
  | _ =>
    show Account.mk _ ((w.ready ++ [Wake.settle s call outcome]).filterMap _) = _
    rw [filterMap_append]
    simp [Wake.continuation?, account]

theorem account_deliverAll (hs : s < w.sessions.length) (settled : List (Call × Outcome)) :
    (w.deliverAll s settled).account s = (w.account s).deliverAll settled ∧
      Informs s w (w.deliverAll s settled) := by
  induction settled generalizing w with
  | nil => exact ⟨rfl, .refl w⟩
  | cons p settled ih =>
    have hinforms := informs_deliver hs p.1 p.2
    obtain ⟨haccount, hinforms'⟩ :=
      ih (w := w.deliver s p.1 p.2) (Nat.lt_of_lt_of_le hs hinforms.length_le)
    rw [account_deliver hs] at haccount
    exact ⟨haccount, hinforms.trans hinforms'⟩

/-- An operation that settles calls: the dispatcher changes, and the outcomes are told. -/
theorem account_settles (hs : s < w.sessions.length) {d : Dispatch}
    {settled : List (Call × Outcome)} {act : Act}
    (hchange : { w.account s with calls := d.calls } = (w.account s).change act)
    (hsettled : settled = (w.account s).settledBy act)
    (hwaiting : d.waiting = (w.session s).dispatch.waiting)
    (houtcomes : d.outcomes = (w.session s).dispatch.outcomes) :
    ((w.modifyDispatch s fun _ => d).deliverAll s settled).account s = (w.account s).after act ∧
      Informs s w ((w.modifyDispatch s fun _ => d).deliverAll s settled) := by
  have hmodify : Informs s w (w.modifyDispatch s fun _ => d) :=
    informs_modifyDispatch hs hwaiting fun id hid => houtcomes.symm ▸ hid
  obtain ⟨haccount, hdeliver⟩ :=
    account_deliverAll (Nat.lt_of_lt_of_le hs hmodify.length_le) settled
  refine ⟨?_, hmodify.trans hdeliver⟩
  have hmodify : (w.modifyDispatch s fun _ => d).account s =
      { w.account s with calls := d.calls } :=
    account_modifySession hs
  rw [haccount, hmodify, hchange, hsettled]
  rfl

theorem account_issue (hs : s < w.sessions.length) (command : Command) (addressee : Addressee) :
    (w.issue s command addressee).1 = ⟨(w.account s).calls.nextId, command, addressee⟩ ∧
      (w.issue s command addressee).2.account s =
        (w.account s).after (.issue (w.issue s command addressee).1) ∧
        Informs s w (w.issue s command addressee).2 := by
  have hquiet := quiet_ensureServices (s := s) w s
  have hs' := Nat.lt_of_lt_of_le hs hquiet.length_le
  have hcalls : ((w.ensureServices s).session s).dispatch.calls = (w.account s).calls :=
    congrArg Account.calls hquiet.account_eq
  have hid : ((w.ensureServices s).session s).dispatch.calls.nextId = (w.account s).calls.nextId :=
    congrArg Dispatch.nextId hcalls
  generalize hd : ((w.ensureServices s).session s).dispatch.issue command addressee = issued
  have hissued : issued.1 = ⟨(w.account s).calls.nextId, command, addressee⟩ := by
    rw [← hd, ← hid]
    rfl
  have haccount :
    ((w.ensureServices s).modifyDispatch s fun _ => { issued.2 with writerIdle := false }).account
      s = (w.account s).after (.issue issued.1) := by
    refine (account_modifySession hs').trans ?_
    rw [hquiet.account_eq, ← hd]
    show Account.mk _ _ = Account.mk ((w.account s).calls.issue command addressee).2.calls _
    rw [← hcalls]
    rfl
  have hinforms : Informs s w
      ((w.ensureServices s).modifyDispatch s fun _ => { issued.2 with writerIdle := false }) := by
    refine hquiet.informs.trans (informs_modifyDispatch hs' ?_ fun id hid => ?_)
    · rw [← hd]
      rfl
    · rw [← hd]
      exact hid
  have hissue := issue_eq w s command addressee
  rw [hd] at hissue
  rw [hissue.1]
  obtain heq | ⟨task, heq⟩ := hissue.2
  · rw [heq]
    exact ⟨hissued, haccount, hinforms⟩
  · have hwake :=
      (stirs_wake ((w.ensureServices s).modifyDispatch s
        fun _ => { issued.2 with writerIdle := false }) task).quiet (s := s)
    rw [heq]
    exact ⟨hissued, hwake.account_eq.trans haccount, hinforms.trans hwake.informs⟩

theorem settleReply_calls (d : Dispatch) (id : Option Int) (ok : Bool) (payload : List Value) :
    (d.settleReply id ok payload).1 = (d.calls.settleReply id ok payload).1 ∧
      (d.settleReply id ok payload).2.calls = (d.calls.settleReply id ok payload).2 ∧
      (d.settleReply id ok payload).2.waiting = d.waiting ∧
      (d.settleReply id ok payload).2.outcomes = d.outcomes := by
  have hfind : d.calls.find? id = d.find? id := rfl
  unfold Dispatch.settleReply
  rw [hfind]
  cases d.find? id with
  | none => exact ⟨rfl, rfl, rfl, rfl⟩
  | some call => exact ⟨rfl, rfl, rfl, rfl⟩

theorem account_reply (hs : s < w.sessions.length) (id : Option Int) (ok : Bool)
    (payload : List Value) :
    (w.settleReply s id ok payload).account s = (w.account s).after (.reply id ok payload) ∧
      Informs s w (w.settleReply s id ok payload) := by
  obtain ⟨hsettled, hcalls, hwaiting, houtcomes⟩ :=
    settleReply_calls (w.session s).dispatch id ok payload
  refine account_settles hs ?_ ?_ hwaiting houtcomes
  · exact congrArg (fun calls => { w.account s with calls := calls }) hcalls
  · exact congrArg Option.toList hsettled

theorem account_settlePending (hs : s < w.sessions.length) (outage : Outage) :
    (w.settlePending s outage).account s = (w.account s).after (.outage outage) ∧
      Informs s w (w.settlePending s outage) :=
  account_settles hs rfl rfl rfl rfl

theorem account_discard (hs : s < w.sessions.length) :
    (w.discard s).account s = (w.account s).after .discard ∧ Informs s w (w.discard s) := by
  have hsettles : ((w.modifyDispatch s fun _ => (w.session s).dispatch.discard.2).deliverAll s
      (w.session s).dispatch.discard.1).account s = (w.account s).after .discard ∧ _ :=
    account_settles hs rfl rfl rfl rfl
  unfold discard
  dsimp only
  generalize (w.modifyDispatch s fun _ => (w.session s).dispatch.discard.2).deliverAll s
    (w.session s).dispatch.discard.1 = settled at hsettles ⊢
  have hwake := (stirs_foldl stirs_wake settled ((w.session s).dispatch.reader.toList ++
    (w.session s).dispatch.writer.toList)).quiet (s := s)
  exact ⟨hwake.account_eq.trans hsettles.1, hsettles.2.trans hwake.informs⟩

end World

end IdeMode
