import IdeMode.Proofs.Calls.Programs
set_option autoImplicit false

/-!
# Who reads for pending calls

A pending call is told its outcome by the reader of its session, or by whoever ends the calls of the
session all at once. So what happens in a session has to keep two things: while calls are pending
there is a reader, and a reader that waits for output goes on listening or is queued to go on.

Everything but the reader itself keeps this by every single replacement of the world. A round of the
reader keeps it too; what it leaves behind when it does not come back is said by its end.
-/

namespace IdeMode

open List

variable {f : Session → Session}

namespace World

/-- Where calls are pending there is a reader. -/
def Attended (w : World) (s : Nat) : Prop :=
  (w.session s).dispatch.pending = [] ∨ (w.session s).dispatch.reader.isSome = true

/-- A new reader has begun: it has a number of its own, and its first round is queued. -/
structure Recruits (s : Nat) (w w' : World) (task : Nat) : Prop where
  new : w.nextTask ≤ task
  lt : task < w'.nextTask
  queued : .serve task (.reader s) ∈ w'.ready
  own :
    ∀ service, .serve task service ∈ w'.ready → .serve task service ∈ w.ready ∨ service = .reader s

/-- A replacement of the world that keeps the calls of a session attended: a reader stays, or is
dismissed, or is a new one; and listeners are told what comes for them. -/
structure Heeds (s : Nat) (w w' : World) : Prop extends Grows w w' where
  alerts : Alerts w w'
  serves : ServesOnly s w w'
  attended : w.Attended s → w'.Attended s
  reader : (w'.session s).dispatch.reader = (w.session s).dispatch.reader ∨
    (w'.session s).dispatch.reader = none ∨
      ∃ task, (w'.session s).dispatch.reader = some task ∧ Recruits s w w' task

variable {s : Nat} {w w' : World}

/-- Loops that enter the queue have new numbers. -/
theorem Grows.serve_of_lt (h : Grows w w') {task : Nat} {service : Service}
    (htask : task < w.nextTask) (hmem : .serve task service ∈ w'.ready) :
    .serve task service ∈ w.ready := by
  obtain ⟨more, hready, hserve⟩ := h.ready_eq
  rw [hready] at hmem
  exact (mem_append.1 hmem).resolve_right
    fun hmem => Nat.not_lt.2 (hserve task service hmem).1 htask

theorem Grows.serve_of_le (h : Grows w w') {task : Nat} {service : Service}
    (htask : w'.nextTask ≤ task) (hmem : .serve task service ∈ w'.ready) :
    .serve task service ∈ w.ready := by
  obtain ⟨more, hready, hserve⟩ := h.ready_eq
  rw [hready] at hmem
  exact (mem_append.1 hmem).resolve_right
    fun hmem => Nat.not_lt.2 htask (hserve task service hmem).2

theorem Heeds.trans {w₁ w₂ w₃ : World} (h : Heeds s w₁ w₂)
    (h' : Heeds s w₂ w₃) : Heeds s w₁ w₃ := by
  refine ⟨h.toGrows.trans h'.toGrows, h.alerts.trans h'.alerts, h.serves.trans h'.serves,
    fun hattended => h'.attended (h.attended hattended), ?_⟩
  obtain hsame | hnone | ⟨task, htask, hnew⟩ := h'.reader
  · rw [hsame]
    refine h.reader.imp_right (Or.imp_right ?_)
    rintro ⟨task, htask, hnew⟩
    exact ⟨task, htask, hnew.new, Nat.lt_of_lt_of_le hnew.lt h'.nextTask_le,
      h'.mem_ready hnew.queued,
      fun service hmem => hnew.own service (h'.toGrows.serve_of_lt hnew.lt hmem)⟩
  · exact .inr (.inl hnone)
  · refine .inr (.inr ⟨task, htask, Nat.le_trans h.nextTask_le hnew.new, hnew.lt, hnew.queued,
      fun service hmem => ?_⟩)
    exact (hnew.own service hmem).imp_left (h.toGrows.serve_of_le hnew.new)

/-- The dispatcher stays as it is. -/
protected theorem Heeds.of_dispatch (hgrows : Grows w w') (halerts : Alerts w w')
    (hserves : ServesOnly s w w') (hdispatch : (w'.session s).dispatch = (w.session s).dispatch) :
    Heeds s w w' := by
  refine ⟨hgrows, halerts, hserves, ?_, .inl (congrArg Dispatch.reader hdispatch)⟩
  unfold Attended
  rw [hdispatch]
  exact id

theorem Heeds.refl (w : World) : Heeds s w w := .of_dispatch (.refl w) (.refl w) (.of_ready rfl) rfl

theorem Stirs.heeds (h : Stirs w w') (halerts : Alerts w w') : Heeds s w w' := by
  refine .of_dispatch h.grows halerts h.servesOnly ?_
  unfold session
  rw [h.sessions_eq]

theorem composes_heeds : Composes (Heeds s) := ⟨.refl, .trans⟩

theorem heeds_enqueue {e : Wake} (h : ∀ task service, e ≠ .serve task service) (w : World) :
    Heeds s w (w.enqueue e) := by
  refine .of_dispatch (grows_enqueue h) (alerts_enqueue w e) (fun task service hmem => ?_) rfl
  exact .inl ((mem_append.1 hmem).resolve_right
    fun hmem => h task service (mem_singleton.1 hmem).symm)

theorem heeds_wake (w : World) (task : Nat) : Heeds s w (w.wake task) := heeds_enqueue (by nofun) w

protected theorem Heeds.report (w : World) (e : Event) : Heeds s w (w.report e) :=
  .of_dispatch (grows_of_ready (Nat.le_refl _) (Nat.le_refl _) rfl)
    (alerts_of_children rfl fun _ he => he) (.of_ready rfl) rfl

/-- The host changes, but no process does. -/
theorem heeds_host (w : World) {host : Host} (h : host.children = w.host.children) :
    Heeds s w { w with host := host } :=
  .of_dispatch (grows_of_ready (Nat.le_refl _) (Nat.le_refl _) rfl)
    (alerts_of_children h fun _ he => he) (.of_ready rfl) rfl

/-- A change of the session keeps its reader or dismisses it, and leaves no calls pending without
one. -/
theorem heeds_modifySession
    (hreader : (f (w.session s)).dispatch.reader = (w.session s).dispatch.reader ∨
      (f (w.session s)).dispatch.reader = none)
    (hattended : w.Attended s → (f (w.session s)).dispatch.pending = [] ∨
      (f (w.session s)).dispatch.reader.isSome = true) : Heeds s w (w.modifySession s f) := by
  by_cases hs : s < w.sessions.length
  · have hself := session_modifySession_self hs f
    refine ⟨grows_modifySession w s f, alerts_of_children rfl fun _ he => he, .of_ready rfl, ?_, ?_⟩
    · unfold Attended
      rw [hself]
      exact hattended
    · rw [hself]
      exact hreader.imp_right .inl
  · have hsame : w.modifySession s f = w := by
      unfold modifySession
      rw [modify_eq_self (Nat.le_of_not_lt hs)]
    rw [hsame]
    exact .refl w

theorem heeds_modifySession_of_eq {t : Nat}
    (h : (f (w.session t)).dispatch = (w.session t).dispatch) : Heeds s w (w.modifySession t f) :=
  .of_dispatch (grows_modifySession w t f) (alerts_of_children rfl fun _ he => he) (.of_ready rfl)
    (session_modifySession_feature Session.dispatch h s)

/-- Calls are taken off the pending ones, if anything. -/
protected theorem Heeds.modifyDispatch {f : Dispatch → Dispatch}
    (hreader : (f (w.session s).dispatch).reader = (w.session s).dispatch.reader)
    (hpending : (w.session s).dispatch.pending = [] → (f (w.session s).dispatch).pending = []) :
    Heeds s w (w.modifyDispatch s f) := by
  refine heeds_modifySession (.inl hreader) fun hattended => hattended.imp hpending fun hsome => ?_
  exact (congrArg Option.isSome hreader).trans hsome

theorem heeds_modifyTransport (w : World) (f : Transport → Transport) :
    Heeds s w (w.modifyTransport s f) :=
  heeds_modifySession_of_eq rfl

theorem heeds_deliver (w : World) (call : Call) (outcome : Outcome) :
    Heeds s w (w.deliver s call outcome) :=
  composes_heeds.deliver (.modifyDispatch rfl id) heeds_wake fun _ => heeds_enqueue (by nofun) w

theorem heeds_deliverAll (w : World) (settled : List (Call × Outcome)) :
    Heeds s w (w.deliverAll s settled) :=
  composes_heeds.foldl (fun w p => heeds_deliver w p.1 p.2) w settled

theorem heeds_settlePending (w : World) (outage : Outage) :
    Heeds s w (w.settlePending s outage) := by
  exact (Heeds.modifyDispatch rfl fun _ => rfl).trans (heeds_deliverAll _ _)

theorem heeds_discard (w : World) : Heeds s w (w.discard s) := by
  refine (Heeds.trans ?_ (heeds_deliverAll _ _)).trans (composes_heeds.foldl heeds_wake _ _)
  exact heeds_modifySession (.inr rfl) fun _ => .inl rfl

theorem heeds_startWriter (w : World) : Heeds s w (w.startService (.writer s)).2 := by
  refine .of_dispatch (grows_startService w _) (alerts_of_children rfl fun _ he => ?_)
    (servesOnly_startService (.inr rfl) w) rfl
  exact mem_append_left _ he

theorem heeds_ensureWriter (w : World) : Heeds s w (w.ensureWriter s) := by
  unfold ensureWriter
  split
  · exact .refl w
  · exact (heeds_startWriter w).trans (.modifyDispatch rfl id)

theorem heeds_ensureReader (hs : s < w.sessions.length) : Heeds s w (w.ensureReader s) ∧
      ((w.ensureReader s).session s).dispatch.reader.isSome = true := by
  unfold ensureReader
  split
  · exact ⟨.refl w, ‹_›⟩
  · have hself : (((w.startService (.reader s)).2.modifyDispatch s fun d =>
        { d with reader := some (w.startService (.reader s)).1 }).session s).dispatch.reader =
        some w.nextTask := by
      unfold modifyDispatch
      rw [session_modifySession_self (w := (w.startService (.reader s)).2) hs]
      rfl
    refine ⟨⟨(grows_startService w _).trans (grows_modifySession _ s _), ?_,
      servesOnly_startService (.inl rfl) w, ?_, ?_⟩, ?_⟩
    · exact alerts_of_children rfl fun _ he => mem_append_left _ he
    · exact fun _ => .inr (congrArg Option.isSome hself)
    · refine .inr (.inr ⟨w.nextTask, hself, Nat.le_refl _, Nat.lt_succ_self _, ?_,
        fun service hmem => ?_⟩)
      · exact mem_concat_self
      · refine (mem_append.1 hmem).imp_right fun hmem => ?_
        cases mem_singleton.1 hmem
        rfl
    · exact congrArg Option.isSome hself

/-- A call is issued to a reader. -/
theorem heeds_issue (hs : s < w.sessions.length) (command : Command) (addressee : Addressee) :
    Heeds s w (w.issue s command addressee).2 := by
  have hwriter : Heeds s w (w.ensureWriter s) := heeds_ensureWriter w
  obtain ⟨hreader, hsome⟩ := heeds_ensureReader (Nat.lt_of_lt_of_le hs hwriter.length_le)
  have hservices : Heeds s w (w.ensureServices s) := hwriter.trans hreader
  refine composes_heeds.issue hservices ?_ heeds_wake
  rintro d rfl
  exact heeds_modifySession (.inl rfl) fun _ => .inr hsome

theorem heeds_spawn (w : World) (command : List String) (directory : String)
    (environment : List (String × String)) :
    Heeds s w { w with host := (w.host.spawn command directory environment).2 } :=
  .of_dispatch (grows_of_ready (Nat.le_refl _) (Nat.le_refl _) rfl)
    (alerts_spawn w command directory environment) (.of_ready rfl) rfl

theorem heeds_rereadNamed (w : World) (name : String) : Heeds s w (w.rereadNamed s name) := by
  unfold rereadNamed rereadDocument
  split
  · split
    · exact heeds_modifySession_of_eq (dispatch_adopt _ _ _)
    · exact .refl w
  · exact .refl w

theorem heeds_transmit (w : World) (c : Nat) (payload : String) :
    Heeds s w (w.transmit s c payload) := by
  refine composes_heeds.transmit (fun w _ _ => heeds_host w rfl) (fun w _ _ => heeds_host w rfl)
    heeds_rereadNamed ?_ w payload
  exact fun w r id => (stirs_reaction w c r id).heeds (alerts_reaction w c r id)

/-- Telling outcomes takes no call off the pending ones, and adds none. -/
theorem pending_deliverAll (w : World) (settled : List (Call × Outcome)) :
    ((w.deliverAll s settled).session s).dispatch.pending = (w.session s).dispatch.pending := by
  refine (composes_feature fun w => (w.session s).dispatch.pending).deliverAll ?_ (fun _ _ => rfl)
    (fun _ _ _ _ => rfl) w
  exact fun w _ _ => session_modifySession_feature (fun session => session.dispatch.pending) rfl s

theorem pending_settlePending (w : World) (outage : Outage) :
    ((w.settlePending s outage).session s).dispatch.pending = [] := by
  unfold settlePending
  rw [pending_deliverAll]
  by_cases hs : s < w.sessions.length
  · unfold modifyDispatch
    rw [session_modifySession_self hs]
    rfl
  · unfold modifyDispatch modifySession session
    rw [modify_eq_self (Nat.le_of_not_lt hs), List.getElem?_eq_none (Nat.le_of_not_lt hs)]
    rfl

end World

namespace Client

open Prog World

variable {s : Nat} {α : Type} {w : World}

theorem Gentle.heeds {w' : World} (h : Gentle s w w') : Heeds s w w' := by
  cases h with
  | stirs h halerts => exact h.heeds halerts
  | transport _ => exact heeds_modifyTransport w _

/-! ## What anyone but the reader does -/

/-- What programs keep to that leave the calls of a session attended. -/
def heeding (s : Nat) : Discipline World Await Unit where
  Step w _ w' _ := s < w.sessions.length → Heeds s w w'
  Pause _ _ _ := True
  Wake _ _ _ _ _ _ := True

theorem heeding_of_gentle {p : Action α} (h : Obeys (gentle s) p) : Obeys (heeding s) p := by
  exact h.refine (fun _ _ hw _ => hw.heeds) (fun _ _ _ => trivial) fun _ _ _ _ _ => trivial

theorem heeding_map {β : Type} {p : Action α} (f : α → β) (h : Obeys (heeding s) p) :
    Obeys (heeding s) (f <$> p) :=
  .bind h fun _ => .done _

theorem heeding_modifySession (hf : ∀ session, (f session).dispatch = session.dispatch) :
    Obeys (heeding s) (modifySession s f) := .modify fun _ _ => heeds_modifySession_of_eq (hf _)

theorem heeding_isRunning : Obeys (heeding s) (isRunning s) := .bind .get fun _ => .done _

/-- The loop that writes keeps to it. -/
theorem heeding_of_writing {p : Action α} (h : Obeys (writing s) p) : Obeys (heeding s) p := by
  have hstep : ∀ w w', Writes s w w' → Heeds s w w' := by
    intro w w' hwrites
    cases hwrites with
    | gentle h => exact h.heeds
    | pick =>
      refine .modifyDispatch ?_ ?_
      all_goals
        unfold Dispatch.takeOutbox
        split
      · rfl
      · rfl
      · exact id
      · exact id
    | transmit c payload => exact heeds_transmit w c payload
    | outage o => exact heeds_settlePending w o
  exact h.refine (fun w w' hw _ => hstep w w' hw) (fun _ _ _ => trivial) fun _ _ _ _ _ => trivial

/-- Starts and calls keep to it. -/
theorem heeding_of_dealing {P : Command → Prop} {p : Action α} (h : Obeys (dealing s P) p) :
    Obeys (heeding s) p := by
  have hstep : ∀ w w', Deals s P w w' → s < w.sessions.length → Heeds s w w' := by
    intro w w' hdeals hs
    cases hdeals with
    | gentle h => exact h.heeds
    | spawn _ _ _ => exact heeds_spawn w _ _ _
    | attach _ => exact heeds_modifyTransport w _
    | issue _ _ => exact heeds_issue hs _ .waiter
    | take _ => exact .modifyDispatch rfl id
    | drop _ => exact .modifyDispatch rfl fun hd => by rw [Dispatch.remove, hd, filter_nil]
  exact h.refine hstep (fun _ _ _ => trivial) fun _ _ _ _ _ => trivial

theorem heeding_start (limit : Duration) : Obeys (heeding s) (start s limit) :=
  heeding_of_dealing (dealing_start (P := fun _ => True) s limit)

theorem heeding_call (command : Command) (limit : Option Duration) :
    Obeys (heeding s) (call s command limit) :=
  heeding_of_dealing (dealing_call (P := fun _ => True) s trivial limit)

theorem heeding_ensureRunning : Obeys (heeding s) (ensureRunning s) := by
  refine .bind heeding_isRunning fun running => ?_
  split
  · exact .done _
  · exact .bind (heeding_modifySession fun _ => rfl) fun _ =>
      .bind (heeding_start startLimit) fun _ => .done _

theorem heeding_discard : Obeys (heeding s) (discard s) := .modify fun w _ => heeds_discard w

theorem heeding_close : Obeys (heeding s) (close s) :=
  .bind heeding_discard fun _ => .bind (heeding_of_gentle (gentle_stop s)) fun _ =>
    heeding_modifySession fun _ => rfl

theorem heeding_post (command : Command) (addressee : Addressee) :
    Obeys (heeding s) (post s command addressee) := by
  intro w
  refine safe_isRunning ?_
  split
  · exact ⟨(), fun hs => heeds_issue hs command addressee, trivial⟩
  · refine safe_session (.modify_bind () (fun _ => ?_) trivial)
    exact (Heeds.modifyDispatch rfl id).trans (heeds_deliver _ _ _)

/-! ## What the reader does -/

/-- No call of the session is pending. -/
def Clear (s : Nat) (w : World) : Prop := (w.session s).dispatch.pending = []

/-- What the reader keeps to. It waits for output that is not there, or for the exit of the process;
it counts on no call being pending when the process has exited. -/
def reading (s : Nat) : Discipline World Await Unit where
  Step w _ w' _ := s < w.sessions.length → Heeds s w w'
  Pause on w _ :=
    match on with
    | .output c count => ∃ child, w.host.child? c = some child ∧ child.satisfies count = false
    | .exit _ => True
    | _ => False
  Wake on _ _ _ w' _ := ∀ c, on = .exit c → Clear s w'

/-- A round of the reader is over. If it is the last one, no call is pending unless it ended with a
fault. -/
def RoundEnds (s : Nat) (r : Result Round) (w : World) (_ : Unit) : Prop :=
  r = .ok .again ∨ (∃ fault, r = .error fault) ∨ Clear s w

theorem reading_process : Obeys (reading s) (process s) := by
  refine .bind (obeys_session s) fun session => ?_
  split
  · exact .done _
  · exact .done _

theorem reading_takeOutput (c count : Nat) : Obeys (reading s) (takeOutput c count) := by
  refine .bind .get fun w => ?_
  split
  · exact .done _
  · split
    · exact .done _
    · refine .bind (.modify fun w _ => Gentle.heeds (gentle_modifyChild w c ?_)) fun _ => .done _
      exact fun child => ⟨rfl, rfl, rfl, rfl, length_drop ▸ Nat.sub_le ..⟩
    · refine .bind (.modify fun w _ => Gentle.heeds (gentle_modifyChild w c ?_)) fun _ => .done _
      exact fun child => ⟨rfl, rfl, rfl, rfl, Nat.zero_le _⟩

/-- Nothing is taken from a process that has not sent enough. -/
theorem safe_takeOutput_missing {c count : Nat}
    {Q : Result (Option (List UInt8)) → World → Unit → Prop}
    (htaken : ∀ r w', (∀ bytes, r = .ok bytes → bytes.isSome = true) → Q r w' ())
    (hmissing : ∀ child, w.host.child? c = some child → child.satisfies count = false →
      Q (.ok none) w ()) : Safe (reading s) (takeOutput c count) Q w () := by
  refine .get ?_
  cases hchild : w.host.child? c with
  | none => exact htaken _ w nofun
  | some child =>
    dsimp only
    unfold available
    have htake : ∀ f : Host.Child → Host.Child, (∀ child, (f child).status = child.status ∧
        (f child).readers = child.readers ∧ (f child).listener = child.listener ∧
          (f child).ended = child.ended ∧
        (f child).output.length ≤ child.output.length) → s < w.sessions.length →
          Heeds s w (w.modifyChild c f) :=
      fun f hf _ => Gentle.heeds (gentle_modifyChild w c hf)
    by_cases hcount : count ≤ child.output.length
    · rw [if_pos hcount]
      refine .modify_bind () (htake _ fun child => ?_) (htaken _ _ ?_)
      · exact ⟨rfl, rfl, rfl, rfl, length_drop ▸ Nat.sub_le ..⟩
      · rintro bytes ⟨⟩
        rfl
    · rw [if_neg hcount]
      cases hended : child.ended with
      | true =>
        exact .modify_bind () (htake _ fun child => ⟨rfl, rfl, rfl, rfl, Nat.zero_le _⟩)
          (htaken _ _ nofun)
      | false =>
        refine hmissing child hchild ?_
        unfold Host.Child.satisfies
        rw [hended, decide_eq_false hcount]
        rfl

theorem reading_readExactly (c count : Nat) (deadline : Option Int) :
    Obeys (reading s) (readExactly c count deadline) := by
  intro w
  refine Safe.bind (safe_takeOutput_missing ?_ ?_)
  · intro r w' hr
    cases r with
    | error e => trivial
    | ok bytes =>
      obtain ⟨bytes, rfl⟩ := Option.isSome_iff_exists.1 (hr _ rfl)
      trivial
  · intro child hchild hcount
    refine .get ?_
    split
    · trivial
    · refine ⟨⟨child, hchild, hcount⟩, fun signal w' _ _ => ?_⟩
      cases signal with
      | expired => trivial
      | woken => exact Obeys.bind (reading_takeOutput c count) (fun _ => Obeys.done _) w'

theorem reading_receiveMessage (deadline : Option Int) :
    Obeys (reading s) (receiveMessage s deadline) :=
  obeys_receiveMessage s reading_process fun c n => reading_readExactly c n deadline

theorem settleReply_keeps (d : Dispatch) (id : Option Int) (ok : Bool) (payload : List Value) :
    (d.settleReply id ok payload).2.reader = d.reader ∧
      (d.pending = [] → (d.settleReply id ok payload).2.pending = []) := by
  unfold Dispatch.settleReply
  split
  · exact ⟨rfl, fun hpending => hpending⟩
  · refine ⟨rfl, fun hpending => ?_⟩
    show d.pending.filter _ = []
    rw [hpending, filter_nil]

theorem reading_takeIn (m : Message) : Obeys (reading s) (takeIn s m) := by
  have hnote : Obeys (reading s) (takeNote s m) := by
    intro w
    refine safe_session (.get (.ofResult_bind (fun noted hnoted => ?_) fun _ _ => trivial))
    refine .modify_bind () (fun _ => heeds_modifySession_of_eq (dispatch_notice hnoted)) ?_
    split
    · exact ⟨(), fun _ => .report _ _, trivial⟩
    · trivial
  unfold takeIn
  split
  · next id ok payload =>
    intro w
    refine ⟨(), fun _ => ?_, trivial⟩
    obtain ⟨hreader, hpending⟩ := settleReply_keeps (w.session s).dispatch id ok payload
    exact (Heeds.modifyDispatch hreader hpending).trans (heeds_deliverAll _ _)
  · exact hnote

theorem clear_of_gentle {w' : World} (h : Gentle s w w') (hclear : Clear s w) : Clear s w' := by
  cases h with
  | stirs h _ =>
    unfold Clear World.session
    rw [h.sessions_eq]
    exact hclear
  | transport _ =>
    exact (session_modifySession_feature (fun session => session.dispatch.pending) rfl s).trans
      hclear

/-- The reader stops the process after it has told every call. -/
theorem safe_stop_of_clear (hclear : Clear s w) :
    Safe (reading s) (stop s) (fun _ w' _ => Clear s w') w () := by
  have hforget : ∀ w : World,
    Clear s w → Safe (reading s) (modify fun w => w.modifyTransport s fun t => { t with
      child := none, version := none } : Action Unit) (fun _ w' _ => Clear s w') w () := by
    intro w hclear
    have hgentle : Gentle s w
        (w.modifyTransport s fun t => { t with child := none, version := none }) :=
      .transport fun _ => .inr rfl
    exact ⟨(), fun _ => hgentle.heeds, clear_of_gentle hgentle hclear⟩
  have hkill : ∀ w : World,
      Clear s w → Safe (reading s) (killProcess s) (fun _ w' _ => Clear s w') w () := by
    intro w hclear
    refine Safe.bind (safe_session ?_)
    split
    · next c _ =>
      have hgentle : Gentle s w (w.kill c).2 := .stirs (stirs_kill w c) (alerts_kill w c)
      exact ⟨(), fun _ => hgentle.heeds, clear_of_gentle hgentle hclear⟩
    · exact hclear
  have hsignal : ∀ c, Safe (reading s) (signal c true) (fun _ w' _ => Clear s w') w () := by
    intro c
    have hgentle : Gentle s w (w.signal c true).2 :=
      .stirs (stirs_signal w c true) (alerts_signal w c true)
    refine ⟨(), fun _ => hgentle.heeds, ?_⟩
    have hclear' := clear_of_gentle hgentle hclear
    split <;> exact hclear'
  have hterminate : ∀ c, Safe (reading s) (terminate s c) (fun _ w' _ => Clear s w') w () := by
    intro c
    refine Safe.bind ((hsignal c).mono fun r w' _ hclear' => ?_)
    cases r with
    | error _ => exact hclear'
    | ok _ =>
      refine .get ?_
      split
      · refine ⟨trivial, fun signal w'' _ hwake => ?_⟩
        cases signal with
        | woken => exact hwake c rfl
        | expired => exact hkill w'' (hwake c rfl)
      · exact hclear'
  refine safe_session ?_
  split
  · refine .get ?_
    split
    · refine Safe.bind ((hterminate _).mono fun r w' _ hclear' => ?_)
      cases r with
      | ok _ => exact hforget w' hclear'
      | error _ => exact hclear'
    · exact hforget w hclear
  · exact hforget w hclear

theorem reading_readRound (w : World) : Safe (reading s) (readRound s) (RoundEnds s) w () := by
  refine Safe.bind (Safe.attempt ((reading_receiveMessage none w).mono fun r w' _ _ => ?_))
  cases r with
  | ok m =>
    refine Safe.bind ((reading_takeIn m w').mono fun r w'' _ _ => ?_)
    cases r with
    | ok _ => exact .inl rfl
    | error fault => exact .inr (.inl ⟨fault, rfl⟩)
  | error fault =>
    dsimp only
    split
    · next h => cases h
    · next outage _ =>
      exact .modify_bind () (fun _ => heeds_settlePending w' outage)
        (.inr (.inr (pending_settlePending w' _)))
    · split
      · exact .inl rfl
      · refine .modify_bind () (fun _ => heeds_settlePending w' .lostSync) ?_
        refine Safe.bind ((safe_stop_of_clear (pending_settlePending w' _)).mono
          fun r w'' _ hclear => ?_)
        cases r with
        | ok _ => exact .inr (.inr hclear)
        | error _ => exact .inr (.inr hclear)

end Client

end IdeMode
