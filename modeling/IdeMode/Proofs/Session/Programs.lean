import IdeMode.Proofs.Calls.Programs
import IdeMode.Proofs.Session.Keeping
set_option autoImplicit false

/-!
# Every program keeps the log

The loops and the operations of a session keep its log: what they do to the session is noted, and a
note is only made where it fits.
-/

namespace IdeMode.Client

open Prog World Account Session List

variable {s : Nat} {origin : Option SessionRequest} {request : SessionRequest}
  {ℓ ℓ' : List Note} {w : World}

variable {d : Nat} {command : Command} {phase : Phase} {purpose : Purpose} {α : Type}
  {P : World → List Note → Prop} {name : String}

/-- What a session has can be looked up in its log. -/
theorem recount_of_tied {κ : Type} (feature : Session → κ) (h : Tied s ℓ w phase)
    (hfeature : ∀ session : Session, feature session.memory = feature session) :
    feature (recount ℓ) = feature (w.session s) := by
  rw [← h.memory_eq, hfeature]

theorem documents_eq (h : Tied s ℓ w phase) : (recount ℓ).documents = (w.session s).documents :=
  recount_of_tied Session.documents h fun _ => rfl

/-! ## Processes -/

/-- A session without a running process has none, or one that has exited. -/
theorem gone_of_not_running (htied : Tied s ℓ w .free) (hrunning : w.isRunning s = false) {c : Nat}
    (hc : (w.session s).transport.child = some c) : w.host.Gone c := by
  have hrecounted : (recount ℓ).transport.child = some c := by
    rw [← htied.memory_eq]
    exact hc
  refine ⟨htied.started c (spawn_mem_of_child hrecounted), ?_⟩
  unfold World.isRunning at hrunning
  rw [hc] at hrunning
  exact hrunning

/-- A process is started right after everything about the last one was forgotten. -/
theorem meets_spawn : Meets s (some request)
    (fun w ℓ => (∃ before, ℓ = before ++ [.forget]) ∧ w.isRunning s = false)
    (spawn s) fun c _ ℓ => ∃ before, ℓ = before ++ [.forget, .spawn c] := by
  rintro w ℓ htied hunbound ⟨⟨before, rfl⟩, hrunning⟩
  refine safe_session (.get ?_)
  obtain ⟨hsent, hlasts, hstarted⟩ :=
    w.host.spawn_keeps [(w.session s).transport.executable, modeOption]
    (w.session s).transport.directory (w.session s).transport.environment
  have hgone : ∀ c, (w.session s).transport.child = some c → _ :=
    fun c hc => hlasts.gone (gone_of_not_running htied hrunning hc)
  refine safe_still htied ⟨quiet_host w _, alike_host hsent hlasts⟩ fun htied => ?_
  split
  · exact safe_throw hunbound
  · exact safe_throw hunbound
  · next c hc =>
    refine safe_modify htied (works_spawn htied hunbound ⟨before, rfl⟩ (hstarted c hc) hgone)
      fun htied => ?_
    exact safe_pure (unbound_snoc trivial) ⟨before, append_assoc ..⟩

theorem meets_start (limit : Duration) :
    Meets s (some request) (fun _ ℓ => ∃ before, ℓ = before ++ [.forget])
    (start s limit) fun _ _ _ => True := by
  intro w ℓ htied hunbound hforgotten
  refine safe_isRunning ?_
  split
  · exact safe_pure hunbound trivial
  · next hrunning =>
    refine meets_spawn.andThen htied hunbound ⟨hforgotten, Bool.eq_false_iff.2 hrunning⟩
      fun c w ℓ htied hunbound _ _ => ?_
    refine (meets_of_gentle (gentle_readBanner s limit)).andThen htied hunbound trivial ?_
    intro banner w ℓ htied hunbound _ _
    exact meets_of_gentle (gentle_of_drawing (drawing_greet s banner)) w ℓ htied hunbound trivial

theorem meets_ensureRunning :
    Meets s (some request) (fun _ _ => True) (ensureRunning s) fun _ _ _ => True := by
  intro w ℓ htied hunbound _
  refine safe_isRunning ?_
  split
  · exact safe_pure hunbound trivial
  · refine safe_note (x := .forget) htied (hunbound _) trivial ⟨nofun, rfl⟩ rfl trivial rfl rfl
      fun htied => ?_
    refine (meets_start startLimit).andThen htied (unbound_snoc trivial) ⟨ℓ, rfl⟩ ?_
    intro message w ℓ htied hunbound _ _
    exact safe_pure hunbound trivial

/-! ## Reading -/

theorem memory_notice {session noted : Session} {cwd : Path} {m : Message}
    (h : session.notice cwd m = .ok noted) : noted.memory = session.memory := by
  obtain ⟨_, _, _, rfl⟩ := exists_of_notice h
  rfl

theorem meets_takeNote (m : Message) :
    Meets s origin (fun _ _ => True) (takeNote s m) fun _ _ _ => True := by
  intro w ℓ htied hunbound _
  refine safe_session (.get (safe_ofResult hunbound fun noted hnoted => ?_))
  refine safe_still htied (still_modifySession (ledger_notice hnoted) (memory_notice hnoted))
    fun htied => ?_
  split
  · exact safe_modify_end ((still_report _ _).works htied.valid .free)
      ((append_nil ℓ).symm ▸ hunbound) trivial
  · exact safe_pure hunbound trivial

/-- A reply is the last thing that happens in a move. -/
theorem safe_takeIn (m : Message) (htied : Tied s ℓ w .free) (hunbound : Unbound ℓ) :
    Safe (keeping s origin) (takeIn s m) Rests w (ℓ, .free) := by
  cases m with
  | reply id ok payload =>
    have hworks : Works s origin ℓ w .free _ _ .free := works_reply htied hunbound id ok payload
    exact ⟨(_, .free), ⟨_, rfl, hworks⟩, rfl, follows_snoc rfl⟩
  | banner version => exact (meets_takeNote _).rests htied hunbound trivial
  | output id ok payload => exact (meets_takeNote _).rests htied hunbound trivial
  | notice kind id payload => exact (meets_takeNote _).rests htied hunbound trivial

theorem meets_settlePending (outage : Outage) :
    Meets s origin (fun _ _ => True) (modify fun w => w.settlePending s outage : Action Unit)
      fun _ _ _ => True := by
  intro w ℓ htied hunbound _
  have hworks : Works s origin ℓ w .free _ _ .free := works_outage htied outage (hunbound _)
  have hunbound : Unbound (ℓ ++ [.act (.outage outage)]) := unbound_snoc trivial
  exact safe_modify_end hworks hunbound trivial

theorem safe_readRound (htied : Tied s ℓ w .free) (hunbound : Unbound ℓ) :
    Safe (keeping s origin) (readRound s) Rests w (ℓ, .free) := by
  have hfault : ∀ (e : Fault) (w' : World) (ℓ' : List Note), Unbound ℓ' →
      Rests (.error e : Result Round) w' (ℓ', Phase.free) := fun _ _ _ hunbound => ⟨rfl, hunbound _⟩
  refine (meets_of_gentle (.attempt (gentle_receiveMessage s none))).bind htied hunbound
    trivial ?_ hfault
  intro received w ℓ htied hunbound _ _
  split
  · exact safe_map_rests (fun _ => Round.again) (safe_takeIn _ htied hunbound)
  · refine (meets_settlePending _).bind htied hunbound trivial
      (fun _ w ℓ _ hunbound _ _ => ?_) hfault
    exact ⟨rfl, hunbound _⟩
  · split
    · exact ⟨rfl, hunbound _⟩
    · refine (meets_settlePending _).bind htied hunbound trivial
        (fun _ w ℓ htied hunbound _ _ => ?_) hfault
      refine (meets_of_gentle (gentle_stop s)).bind htied hunbound trivial
        (fun _ w ℓ _ hunbound _ _ => ?_) hfault
      exact ⟨rfl, hunbound _⟩

/-! ## Writing -/

/-- What the writer finds: nothing, or a call that it takes up. -/
def TakesUp (r : Result (Option Call)) (_ : World) (g : List Note × Phase) : Prop :=
  g.2 = .free ∧ (Unbound g.1 ∧ r = .ok none ∨
    ∃ call before, r = .ok (some call) ∧ g.1 = before ++ [.pick call])

theorem safe_takeOutbox (htied : Tied s ℓ w .free) (hbegun : Begun ℓ) : Safe (keeping s origin) (do
    let (next, d) := (← session s).dispatch.takeOutbox
    modify fun w => w.modifyDispatch s fun _ => d
    return next : Action (Option Call)) TakesUp w (ℓ, .free) := by
  refine safe_session ?_
  unfold Dispatch.takeOutbox
  cases houtbox : (w.session s).dispatch.outbox with
  | nil =>
    have hstill : Still s w (w.modifyDispatch s fun _ => (w.session s).dispatch) :=
      still_modifySession rfl rfl
    exact safe_still htied hstill fun _ => ⟨rfl, .inl ⟨hbegun.unbound, rfl⟩⟩
  | cons call rest =>
    exact safe_modify htied (works_pick htied hbegun houtbox)
      fun _ => ⟨rfl, .inr ⟨call, ℓ, rfl, rfl⟩⟩

theorem safe_nextOutgoing (htied : Tied s ℓ w .free) (hbegun : Begun ℓ) :
    Safe (keeping s origin) (nextOutgoing s) TakesUp w (ℓ, .free) := by
  refine safe_session ?_
  split
  · refine ⟨⟨by rintro _ ⟨⟩, hbegun.unbound⟩, ?_⟩
    rintro signal w' ⟨ℓ', phase'⟩ ⟨hphase, -, htied', hbegun'⟩
    obtain rfl : phase' = .free := hphase
    exact safe_takeOutbox htied' hbegun'
  · exact safe_takeOutbox htied hbegun

theorem pending_iff {call : Call} (htied : Tied s ℓ w .free) :
    Pending ℓ call ↔ (w.session s).dispatch.isPending call.id = true := by
  unfold Pending
  rw [← htied.account_eq]
  rfl

/-- How an attempt to write a call that was taken up can end: any note may come next, or the process
is gone. -/
def Sends (ℓ : List Note) (r : Result Unit) (_ : World) (g : List Note × Phase) : Prop :=
  g.2 = .free ∧ (Unbound g.1 ∨ (∃ outage, r = .error (.unavailable outage)) ∧ g.1 = ℓ)

theorem safe_sendMessage {call : Call} {text : String} (htied : Tied s (ℓ ++ [.pick call]) w .free)
    (hpending : Pending (ℓ ++ [.pick call]) call)
    (htext : (call.command.request call.id).encode = .ok text) :
    Safe (keeping s origin) (sendMessage s text) (Sends (ℓ ++ [.pick call])) w
      (ℓ ++ [.pick call], .free) := by
  refine safe_session ?_
  split
  · exact ⟨rfl, .inr ⟨⟨_, rfl⟩, rfl⟩⟩
  · next c hchild =>
    refine .get ?_
    split
    · next hrunning =>
      obtain ⟨notes, hnotes, hworks⟩ := works_transmit htied hchild hrunning hpending htext
      refine safe_modify htied hworks fun htied => .get ?_
      have hunbound : Unbound (ℓ ++ [.pick call] ++ ([.write c call] ++ notes)) := by
        rw [← append_assoc]
        exact (Writing.rereads (.inl ⟨_, c, call, rfl⟩) hnotes).unbound
      split
      · exact ⟨rfl, .inl hunbound⟩
      · refine safe_still htied
          ⟨quiet_modifyChild _ _ _, .of_stirs (stirs_modifyChild _ _ fun _ h => h)⟩ fun _ => ?_
        split <;> exact ⟨rfl, .inl hunbound⟩
    · exact ⟨rfl, .inr ⟨⟨_, rfl⟩, rfl⟩⟩

theorem meets_writeRound :
    Meets s origin (fun _ ℓ => Begun ℓ) (writeRound s) fun _ _ _ => True := by
  intro w ℓ htied _ hbegun
  refine Safe.bind ((Safe.tied (safe_nextOutgoing htied hbegun) htied).mono ?_)
  rintro r w ⟨ℓ, phase⟩ ⟨⟨hphase, ⟨hunbound, rfl⟩ | ⟨call, before, rfl, hpicked⟩⟩, htied, -⟩
  · obtain rfl : phase = .free := hphase
    exact safe_pure hunbound trivial
  · obtain rfl : phase = .free := hphase
    obtain rfl : ℓ = before ++ [.pick call] := hpicked
    refine safe_session ?_
    split
    · next hover =>
      refine safe_pure (unbound_snoc fun hhand => ?_) trivial
      have hpending := (pending_iff htied).1 hhand.2.1
      rw [hpending] at hover
      cases hover
    · next hpending =>
      have hpending : Pending (before ++ [.pick call]) call := by
        refine (pending_iff htied).2 ?_
        revert hpending
        cases (w.session s).dispatch.isPending call.id <;> simp
      split
      · next v hencode =>
        refine safe_throw (unbound_snoc fun hhand => ?_)
        obtain ⟨text, htext⟩ := hhand.2.2
        rw [htext] at hencode
        cases hencode
      · next text htext =>
        refine Safe.bind
          ((Safe.tied (Safe.attempt (Q := fun r w g => ∃ sent, r = .ok sent ∧ Sends _ sent w g)
          ((safe_sendMessage htied hpending htext).mono fun r w g h => ⟨r, rfl, h⟩)) htied).mono ?_)
        rintro _ w ⟨ℓ, phase⟩ ⟨⟨sent, rfl, hphase, hends⟩, htied, -⟩
        obtain rfl : phase = .free := hphase
        dsimp only
        split
        · obtain hunbound | ⟨⟨outage, hout⟩, -⟩ := hends
          · exact safe_pure hunbound trivial
          · cases hout
        · next outage =>
          have hfollows : (Note.act (.outage outage)).Follows ℓ := by
            obtain hunbound | ⟨-, rfl⟩ := hends
            · exact hunbound _
            · exact follows_snoc fun _ => .inr ⟨outage, rfl⟩
          exact safe_modify htied (works_outage htied outage hfollows)
            fun _ => safe_pure (unbound_snoc trivial) trivial
        · next fault hfault =>
          obtain hunbound | ⟨⟨outage, hout⟩, -⟩ := hends
          · exact safe_throw hunbound
          · cases hout
            exact absurd rfl (hfault outage)

theorem safe_serve {service : Service} (h : service = .reader s ∨ service = .writer s)
    (htied : Tied s ℓ w .free) (hbegun : Begun ℓ) :
    Safe (keeping s origin) (serve service) Rests w (ℓ, .free) := by
  obtain rfl | rfl := h
  · exact safe_readRound htied hbegun.unbound
  · exact meets_writeRound.rests htied hbegun.unbound hbegun

/-! ## Calls -/

/-- A call whose answer need not be recorded at once. -/
theorem meets_call (hsuits : ∀ w ℓ, P w ℓ → ∀ id, purpose.Suits ℓ request ⟨id, command, .waiter⟩)
    (hmove : ∀ p, purpose ≠ .move p) (hload : ∀ d generation, purpose ≠ .load d generation)
    (limit : Option Duration) :
    Meets s (some request) P (call s command limit) fun _ _ ℓ => Returned purpose ℓ := by
  intro w ℓ htied hunbound hP
  refine (safe_call htied hunbound (hsuits w ℓ hP)).mono ?_
  rintro r w' g ⟨hphase, hends⟩
  cases r with
  | ok answer =>
    refine ⟨hphase, unbound_of_returned hends hmove hload, ?_⟩
    rintro _ ⟨⟩
    exact hends
  | error e => exact ⟨hphase, hends, nofun⟩

theorem meets_sessionCall (hsuits :
    ∀ w ℓ, P w ℓ → ∀ id, purpose.Suits ℓ request ⟨id, command, .waiter⟩)
    (hmove : ∀ p, purpose ≠ .move p) (hload : ∀ d generation, purpose ≠ .load d generation)
    (limit : Option Duration) :
    Meets s (some request) P (sessionCall s command limit) fun _ _ ℓ => Returned purpose ℓ :=
  fun w ℓ htied hunbound hP => safe_session (meets_call hsuits hmove hload _ w ℓ htied hunbound hP)

theorem suits_plain (h : request.sends? = some command ∨ command.tag = Command.completionTag)
    (ℓ : List Note) (id : Nat) : Purpose.plain.Suits ℓ request ⟨id, command, .waiter⟩ :=
      ⟨h, fun _ _ _ => nofun⟩

/-- A call that is made as it was asked for. -/
theorem meets_plainCall (h : request.sends? = some command) (limit : Option Duration) :
    Meets s (some request) (fun _ _ => True) (call s command limit) fun _ _ _ => True :=
  (meets_call (fun _ ℓ _ id => suits_plain (.inl h) ℓ id) (fun _ => nofun) (fun _ _ => nofun)
    limit).weaken (fun _ _ h => h) fun _ _ _ _ => trivial

theorem meets_plainSessionCall (h :
    request.sends? = some command ∨ command.tag = Command.completionTag) (limit : Option Duration) :
    Meets s (some request) (fun _ _ => True) (sessionCall s command limit) fun _ _ _ => True :=
  (meets_sessionCall (fun _ ℓ _ id => suits_plain h ℓ id) (fun _ => nofun) (fun _ _ => nofun)
    limit).weaken (fun _ _ h => h) fun _ _ _ _ => trivial

/-- What a call with a continuation leaves in the log. -/
def Posts (request : SessionRequest) (purpose : Purpose) (addressee : Addressee)
    (ℓ : List Note) {α : Type} (_ : Result α) (_ : World) (g : List Note × Phase) : Prop :=
  g.2 = .free ∧ ∃ call x, g.1 = ℓ ++ [x] ∧ call.addressee = addressee ∧
    (x = .issue request call purpose ∨ x = .act (.refuse call))

theorem safe_post {addressee : Addressee} (h : addressee ≠ .waiter) (htied : Tied s ℓ w .free)
    (hunbound : Unbound ℓ) (hsuits : ∀ id, purpose.Suits ℓ request ⟨id, command, addressee⟩) :
    Safe (keeping s (some request)) (post s command addressee)
      (Posts request purpose addressee ℓ) w (ℓ, .free) := by
  refine safe_isRunning ?_
  split
  · have hissued := (account_issue htied.present command addressee).1
    have hcontinuation : (w.issue s command addressee).1.hasContinuation = true := by
      rw [hissued]
      exact (Account.hasContinuation_iff _).2 h
    have hworks :=
      works_issue htied hunbound hsuits
        (.issue (congrArg Call.id hissued) hcontinuation) fun _ => rfl
    exact ⟨(_, _), ⟨_, rfl, hworks⟩, rfl, _, _, rfl, congrArg Call.addressee hissued, .inl rfl⟩
  · exact safe_session (safe_modify htied (works_refuse h htied hunbound) fun _ =>
      ⟨rfl, _, _, rfl, rfl, .inr rfl⟩)

theorem Posts.follows {r : Result α} {addressee : Addressee} {g : List Note × Phase}
    (h : Posts request purpose addressee ℓ r w g) (index : Nat) (request' : SessionRequest)
    (r' : Result Answer) : (Note.done index request' r').Follows g.1 := by
  obtain ⟨-, call, x, hlog, -, rfl | rfl⟩ := h
  · exact hlog ▸ follows_snoc fun _ => ⟨index, request', r', rfl⟩
  · exact hlog ▸ follows_snoc fun _ => ⟨index, request', r', rfl⟩

theorem Posts.posted {r : Result α} {label : String} {generation : Nat} {g : List Note × Phase}
    (h : Posts request purpose (.load label d generation) ℓ r w g) : Posted g.1 := by
  obtain ⟨-, call, x, hlog, haddressee, rfl | rfl⟩ := h
  · exact ⟨ℓ, _, call, label, d, generation, hlog, haddressee, .inl ⟨request, purpose, rfl⟩⟩
  · exact ⟨ℓ, _, call, label, d, generation, hlog, haddressee, .inr rfl⟩

/-! ## Loading -/

theorem meets_discard : Meets s (some request) (fun _ _ => True) (discard s) fun _ _ _ => True := by
  intro w ℓ htied hunbound _
  exact safe_modify_end (works_discard htied hunbound) (unbound_snoc trivial) trivial

theorem meets_close : Meets s (some request) (fun _ _ => True) (close s) fun _ _ _ => True := by
  intro w ℓ htied hunbound _
  refine meets_discard.andThen htied hunbound trivial fun _ w ℓ htied hunbound _ _ => ?_
  refine (meets_of_gentle (gentle_stop s)).andThen htied hunbound trivial
    fun _ w ℓ htied hunbound _ _ => ?_
  exact safe_modify_end (works_modifySession (x := .forget) htied (hunbound _) trivial ⟨nofun, rfl⟩
    rfl trivial rfl rfl) (unbound_snoc trivial) trivial

theorem meets_evaluate {expression : String} {limit : Option Duration}
    (h : request.sends? = some ⟨"interpret", [.str expression]⟩) :
    Meets s (some request) (fun _ _ => True) (evaluate s expression limit) fun _ _ _ => True := by
  intro w ℓ htied hunbound _
  refine meets_ensureRunning.andThen htied hunbound trivial fun _ w ℓ htied hunbound _ _ => ?_
  refine safe_still htied (still_modifySession rfl rfl) fun htied => ?_
  exact meets_plainSessionCall (.inl h) limit _ _ htied hunbound trivial

theorem cwd_eq (h : Tied s ℓ w phase) : (recount ℓ).cwd = (w.session s).cwd :=
  recount_of_tied Session.cwd h fun _ => rfl

/-- A move that was answered well is recorded at once. -/
theorem follows_move {p : Path} (h : Returned (.move p) ℓ) : (Note.arrive p).Follows ℓ := by
  obtain ⟨before, call, r, rfl⟩ := h
  exact follows_snoc rfl

theorem follows_load {generation : Nat} (h : Returned (.load d generation) ℓ) :
    (Note.record d generation).Follows ℓ := by
  obtain ⟨before, call, r, rfl⟩ := h
  exact follows_snoc rfl

theorem meets_switchDirectory (p : Path) :
    Meets s (some request) (fun _ _ => True) (switchDirectory s p)
      fun _ _ ℓ => (recount ℓ).cwd = some p := by
  intro w ℓ htied hunbound _
  refine safe_session (safe_isRunning ?_)
  split
  · next hthere => exact safe_pure hunbound ((cwd_eq htied).trans hthere.1)
  · refine meets_ensureRunning.andThen htied hunbound trivial fun _ w ℓ htied hunbound _ _ =>
      safe_session ?_
    split
    · next hthere => exact safe_pure hunbound ((cwd_eq htied).trans hthere)
    · have hsuits : ∀ id, (Purpose.move p).Suits ℓ request ⟨id, moveCommand p, .waiter⟩ :=
        fun id => ⟨rfl, rfl⟩
      refine Safe.bind (safe_session ((Safe.tied (safe_call htied hunbound hsuits) htied).mono ?_))
      rintro r w ⟨ℓ, phase⟩ ⟨⟨hphase, hends⟩, htied, -⟩
      obtain rfl : phase = .free := hphase
      cases r with
      | error e => exact ⟨rfl, hends, nofun⟩
      | ok answer =>
        refine safe_note (x := .arrive p) htied (follows_move hends) hends trivial rfl trivial rfl
          rfl fun htied => ?_
        refine safe_pure (unbound_snoc trivial) ?_
        rw [recount_snoc]
        rfl

/-- A document was opened. -/
def Known (d : Nat) (ℓ : List Note) : Prop := ∃ doc, (recount ℓ).documents[d]? = some doc

theorem Known.later (h : Known d ℓ) (hgrown : ℓ <+: ℓ') (hvalid : Valid ℓ') : Known d ℓ' := by
  obtain ⟨doc, hdoc⟩ := h
  obtain ⟨doc', hdoc', -⟩ := Keeps.recount hgrown hvalid d doc hdoc
  exact ⟨doc', hdoc'⟩

theorem buffer_recount (h : Tied s ℓ w phase) (d : Nat) :
    (recount ℓ).buffer d = (w.session s).buffer d :=
  recount_of_tied (fun session => session.buffer d) h fun _ => rfl

theorem meets_beginLoad (d : Nat) :
    Meets s (some request) (fun _ ℓ => Known d ℓ) (beginLoad s d) fun begun _ ℓ =>
    ∀ id addressee, (addressee = .waiter ∨ ∃ label, addressee = .load label d begun.2) →
      (Purpose.load d begun.2).Suits ℓ request ⟨id, begun.1, addressee⟩ := by
  intro w ℓ htied hunbound hknown
  refine safe_note (x := .watch d) htied (hunbound _) trivial ⟨nofun, rfl⟩ rfl trivial rfl rfl
    fun htied => safe_pathOf ?_
  have hwatched : ∃ doc, (recount (ℓ ++ [.watch d])).documents[d]? = some doc ∧
      doc.watched = true := by
    obtain ⟨doc, hdoc⟩ := hknown
    refine ⟨{ doc with watched := true }, ?_, rfl⟩
    rw [recount_snoc]
    show ((recount ℓ).documents.modify d fun doc => { doc with watched := true })[d]? = _
    rw [List.getElem?_modify, hdoc]
    simp
  rw [← buffer_recount htied d]
  generalize hℓ : ℓ ++ [.watch d] = ℓ₁ at htied hwatched
  have hunbound : Unbound ℓ₁ := hℓ ▸ unbound_snoc trivial
  refine safe_still htied (still_modifySession rfl rfl) fun htied => ?_
  refine (meets_switchDirectory _).andThen htied hunbound trivial
    fun _ w ℓ htied hunbound hgrown hcwd => ?_
  refine safe_note (x := .clear) htied (hunbound _) trivial ⟨nofun, rfl⟩ rfl trivial rfl rfl
    fun htied => safe_session ?_
  refine safe_pure (unbound_snoc trivial) fun id addressee haddressee => ?_
  obtain ⟨doc, hdoc, hdocWatched⟩ := hwatched
  obtain ⟨doc', hdoc', -, hpath, hkept⟩ :=
    Keeps.recount (hgrown.trans (prefix_append ..)) htied.valid d doc hdoc
  rw [buffer_eq hdoc] at hcwd haddressee ⊢
  refine ⟨doc', hdoc', hkept hdocWatched, ?_, ?_, ?_, ?_, haddressee⟩
  · rw [hpath]
    rfl
  · rw [recount_snoc]
    rfl
  · rw [hpath, recount_snoc]
    exact hcwd
  · rw [hpath]
    exact recount_of_tied (fun session => session.generation doc.buffer.path) htied fun _ => rfl

theorem meets_load (d : Nat) : Meets s (some request) (fun _ ℓ => Known d ℓ) (load s d)
    fun _ _ ℓ => Known d ℓ ∧ ∃ before generation, ℓ = before ++ [.record d generation] := by
  intro w ℓ htied hunbound hknown
  refine (meets_beginLoad d).andThen htied hunbound hknown
    fun begun w ℓ htied hunbound hgrown hsuits => ?_
  have hknown := hknown.later hgrown htied.valid
  refine safe_session (Safe.bind
    ((Safe.tied (Safe.attempt (Q := fun r w g => ∃ answer, r = .ok answer ∧ g.2 = .free ∧
    CallEnds (.load d begun.2) answer g.1) ?_) htied).mono ?_))
  · exact (safe_call htied hunbound fun id => hsuits id .waiter (.inl rfl)).mono
      fun r w g h => ⟨r, rfl, h⟩
  · rintro _ w ⟨ℓ, phase⟩ ⟨⟨answer, rfl, hphase, hends⟩, htied, hgrown⟩
    obtain rfl : phase = .free := hphase
    cases answer with
    | ok answer =>
      refine safe_note (x := .record d begun.2) htied (follows_load hends) (.inl hends) trivial
        rfl trivial (congrArg Dispatch.ledger (dispatch_recordLoad _ d _)) rfl fun htied => ?_
      refine safe_pure (unbound_snoc trivial) ⟨?_, ℓ, _, rfl⟩
      exact hknown.later (hgrown.trans (prefix_append ..)) htied.valid
    | error f =>
      have hstill : Still s w (w.loadFault s ((w.session s).buffer d).path f).2 := by
        refine ⟨quiet_loadFault w s _ f, ?_⟩
        unfold loadFault
        split
        · exact ⟨rfl, rfl, .of_ready rfl, .refl _⟩
        · exact .refl w
      refine ⟨(ℓ, .free), ⟨[], (append_nil ℓ).symm, hstill.works htied.valid .free⟩,
        rfl, hends, nofun⟩

theorem isStale_eq (h : Tied s ℓ w phase) (p : Path) :
    (recount ℓ).isStale p = (w.session s).isStale p :=
  recount_of_tied (fun session => session.isStale p) h fun _ => rfl

theorem upToDate_of_not_stale (htied : Tied s ℓ w .free) (hknown : Known d ℓ)
    (hstale : (!(w.session s).isStale ((w.session s).buffer d).path) = true) :
    UpToDate d false ℓ := by
  obtain ⟨doc, hdoc⟩ := hknown
  refine ⟨doc, hdoc, ?_⟩
  rw [isStale_eq htied, ← buffer_eq hdoc, buffer_recount htied]
  exact (Bool.not_eq_true' _).mp hstale

theorem meets_ensureLoaded (d : Nat) :
    Meets s (some request) (fun _ ℓ => Known d ℓ) (ensureLoaded s d)
      fun loaded _ ℓ => UpToDate d loaded ℓ := by
  intro w ℓ htied hunbound hknown
  refine safe_session (safe_pathOf ?_)
  split
  · next hstale => exact safe_pure hunbound (upToDate_of_not_stale htied hknown hstale)
  · refine (meets_load d).andThen htied hunbound hknown fun _ w ℓ htied hunbound _ hloaded => ?_
    obtain ⟨⟨doc, hdoc⟩, hrecorded⟩ := hloaded
    exact safe_pure hunbound ⟨doc, hdoc, hrecorded⟩

theorem ready_of_upToDate {loaded : Bool} (h : UpToDate d loaded ℓ) : Ready d ℓ := by
  obtain ⟨doc, hdoc, hloaded⟩ := h
  cases loaded with
  | true => exact ⟨doc, hdoc, .inr (.inl hloaded)⟩
  | false => exact ⟨doc, hdoc, .inl hloaded⟩

/-- How an operation ends that asks for a load with a continuation. -/
def PostEnds (d : Nat) (r : Result (Option Nat)) (_ : World) (g : List Note × Phase) : Prop :=
  g.2 = .free ∧ (∀ index request r', (Note.done index request r').Follows g.1) ∧
    ∀ id, r = .ok id → UpToDate d false g.1 ∨ Posted g.1

theorem safe_postLoad {label : String} (htied : Tied s ℓ w .free) (hunbound : Unbound ℓ)
    (hknown : Known d ℓ) :
    Safe (keeping s (some request)) (postLoad s d label) (PostEnds d) w (ℓ, .free) := by
  refine safe_session (safe_pathOf ?_)
  split
  · next hstale =>
    refine safe_still htied ⟨quiet_enqueue nofun rfl, alike_enqueue nofun⟩ fun _ => ?_
    exact ⟨rfl, fun _ _ _ => hunbound _,
      fun _ _ => .inl (upToDate_of_not_stale htied hknown hstale)⟩
  · refine (meets_beginLoad d).bind htied hunbound hknown
      (fun begun w ℓ htied hunbound _ hsuits => ?_)
      fun _ _ _ hunbound => ⟨rfl, fun _ _ _ => hunbound _, nofun⟩
    have haddressed : ∀ id, (Purpose.load d begun.2).Suits ℓ request
        ⟨id, begun.1, .load label d begun.2⟩ :=
      fun id => hsuits id _ (.inr ⟨label, rfl⟩)
    refine Safe.bind ((safe_post (by nofun) htied hunbound haddressed).mono ?_)
    intro r w g hposts
    cases r with
    | ok issued => exact ⟨hposts.1, hposts.follows, fun _ _ => .inr hposts.posted⟩
    | error e => exact ⟨hposts.1, hposts.follows, nofun⟩

/-! ## Documents -/

theorem findDocument?_addDocument {session : Session} (h : session.findDocument? name = none)
    (b : Buffer) :
    (session.addDocument name b).2.findDocument? name = some session.documents.length := by
  unfold findDocument? at h
  unfold addDocument findDocument?
  rw [List.findIdx?_append, h]
  simp

theorem findDocument?_eq (h : Tied s ℓ w phase) (name : String) :
    (recount ℓ).findDocument? name = (w.session s).findDocument? name :=
  recount_of_tied (fun session => session.findDocument? name) h fun _ => rfl

theorem meets_openDocument (name : String) :
    Meets s (some request) (fun _ _ => True) (openDocument s name)
    fun d _ ℓ => (recount ℓ).findDocument? name = some d := by
  intro w ℓ htied hunbound _
  refine safe_session ?_
  split
  · next d hfound => exact safe_pure hunbound ((findDocument?_eq htied name).trans hfound)
  · next hnone =>
    refine .get ?_
    split
    · refine safe_ofResult hunbound fun b _ => safe_session ?_
      refine safe_note (x := .opened name b) htied (hunbound _) trivial ⟨nofun, rfl⟩ rfl trivial rfl
        rfl fun htied' => ?_
      refine safe_pure (unbound_snoc trivial) ?_
      rw [recount_snoc]
      rw [← documents_eq htied]
      exact findDocument?_addDocument ((findDocument?_eq htied name).trans hnone) b
    · exact safe_throw hunbound

theorem Known.of_find (h : (recount ℓ).findDocument? name = some d) : Known d ℓ := by
  obtain ⟨doc, hdoc, -⟩ := document_of_find h
  exact ⟨doc, hdoc⟩

/-- Goes on after a document was replaced. -/
theorem safe_adopt {b : Buffer} {next : PUnit → Action α}
    {E : Result α → World → List Note × Phase → Prop}
    (htied : Tied s ℓ w .free) (hunbound : Unbound ℓ) (hb : b.Succeeds ((w.session s).buffer d))
    (hnext : ∀ w', Tied s (ℓ ++ [.adopt d b]) w' .free → Unbound (ℓ ++ [.adopt d b]) →
      Safe (keeping s (some request)) (next ⟨⟩) E w' (ℓ ++ [.adopt d b], .free)) :
    Safe (keeping s (some request)) ((modifySession s fun session => session.adopt d b) >>= next)
      E w (ℓ, .free) := by
  refine safe_note (x := .adopt d b) htied (hunbound _) ?_ ⟨nofun, rfl⟩ rfl trivial
    (congrArg Dispatch.ledger (dispatch_adopt _ d b)) rfl
    fun htied => hnext _ htied (unbound_snoc trivial)
  show b.Succeeds ((recount ℓ).buffer d)
  rw [buffer_recount htied]
  exact hb

theorem meets_reread (d : Nat) :
    Meets s (some request) (fun _ _ => True) (reread s d) fun _ _ _ => True := by
  intro w ℓ htied hunbound _
  refine safe_session (.get (safe_ofResult hunbound fun read hread => ?_))
  exact safe_adopt htied hunbound (succeeds_reread hread)
    fun _ _ hunbound => safe_pure hunbound trivial

theorem meets_commit {b : Buffer} {disk : Disk} : Meets s (some request)
    (fun w _ => b.Succeeds ((w.session s).buffer d)) (commit s d b disk) fun _ _ _ => True := by
  intro w ℓ htied hunbound hb
  refine safe_still htied ⟨quiet_host w _, alike_host rfl (Host.lasts_of_children rfl)⟩
    fun htied => ?_
  exact safe_adopt htied hunbound hb fun _ _ hunbound => safe_pure hunbound trivial

theorem meets_replace (d : Nat) (start finish : Int) (text : List Char) :
    Meets s (some request) (fun _ _ => True) (replace s d start finish text) fun _ _ _ => True := by
  intro w ℓ htied hunbound _
  refine safe_session (.get (safe_ofResult hunbound fun replaced hreplaced => ?_))
  exact meets_commit w ℓ htied hunbound (succeeds_replace hreplaced)

/-! ## Editing -/

/-- The document whose text the request relies on. -/
def Concerns (request : SessionRequest) (d : Nat) (ℓ : List Note) : Prop :=
  ∃ name, request.scope? = some name ∧ (recount ℓ).findDocument? name = some d

theorem Concerns.later (h : Concerns request d ℓ) (hgrown : ℓ <+: ℓ') (hvalid : Valid ℓ') :
    Concerns request d ℓ' := by
  obtain ⟨name, hscope, hfound⟩ := h
  exact ⟨name, hscope, (Keeps.recount hgrown hvalid).findDocument? hfound⟩

theorem Concerns.known (h : Concerns request d ℓ) : Known d ℓ := by
  obtain ⟨name, -, hfound⟩ := h
  exact .of_find hfound

theorem meets_applyEdit (d : Nat) (e : Editor) (start finish : Int) (text : String) :
    Meets s (some request) (fun _ _ => True) (applyEdit s d e start finish text)
      fun _ _ _ => True := by
  intro w ℓ htied hunbound _
  refine safe_session (.get (safe_ofResult hunbound fun edited hedited => ?_))
  refine meets_commit.andThen htied hunbound (succeeds_insert hedited)
    fun _ w ℓ htied hunbound _ _ => ?_
  exact safe_pure hunbound trivial

/-- A question about a document that may be relied on. -/
theorem meets_question (hscoped : command.tag ∈ Command.scopedTags) :
    Meets s (some request) (fun _ ℓ => Concerns request d ℓ ∧ Ready d ℓ)
      (sessionCall s command none) fun _ _ ℓ => Returned (.ask d) ℓ := by
  have hsuits : ∀ (_ : World) ℓ, Concerns request d ℓ ∧ Ready d ℓ → ∀ id,
      (Purpose.ask d).Suits ℓ request ⟨id, command, .waiter⟩ :=
      fun _ _ h _ => ⟨hscoped, rfl, h.1, h.2⟩
  exact meets_sessionCall hsuits (fun _ => nofun) (fun _ _ => nofun) none

theorem Known.ready (h : Known d ℓ) (hreturned : Returned (.ask d) ℓ) : Ready d ℓ := by
  obtain ⟨doc, hdoc⟩ := h
  exact ⟨doc, hdoc, .inr (.inr hreturned)⟩

/-- What a command relies on at a document: the request is about it, and it may be asked about if
the flag says so. -/
def Relies (request : SessionRequest) (d : Nat) (ready : Bool) (ℓ : List Note) : Prop :=
  Concerns request d ℓ ∧ (ready = true → Ready d ℓ)

/-- What a request is about does not change. -/
theorem meets_concerning {p : Action α} {Q : α → World → List Note → Prop}
    (h : Meets s (some request) P p Q) :
    Meets s (some request) (fun w ℓ => P w ℓ ∧ Concerns request d ℓ) p
      fun a w ℓ => Q a w ℓ ∧ Concerns request d ℓ := by
  intro w ℓ htied hunbound hP
  refine (Safe.tied (h w ℓ htied hunbound hP.1) htied).mono ?_
  rintro r w' ⟨ℓ', phase⟩ ⟨⟨hphase, hunbound', hend⟩, htied', hgrown⟩
  exact ⟨hphase, hunbound', fun a ha => ⟨hend a ha, hP.2.later hgrown htied'.valid⟩⟩

/-- Commands at a document ask about it only where they may. -/
theorem meets_of_handles {b b' : Bool} {p : Action α} (h : Handles s d b b' p) :
    Meets s (some request) (fun _ ℓ => Relies request d b ℓ) p
      fun _ _ ℓ => Relies request d b' ℓ := by
  induction h with
  | done r =>
    intro w ℓ _ hunbound hrelies
    cases r with
    | ok a => exact safe_pure hunbound hrelies
    | error f => exact safe_throw hunbound
  | fault f => exact fun _ _ _ hunbound _ => safe_throw hunbound
  | bind hp hf ihp ihf =>
    intro w ℓ htied hunbound hrelies
    exact ihp.andThen htied hunbound hrelies fun a w ℓ htied hunbound _ hrelies =>
      ihf a w ℓ htied hunbound hrelies
  | relax hp ih => exact ih.weaken (fun _ _ h => h) fun _ _ _ h => ⟨h.1, nofun⟩
  | look => exact fun _ _ _ hunbound hrelies => ⟨rfl, hunbound, fun _ _ => hrelies⟩
  | ask htag =>
    refine (meets_concerning (meets_question htag)).weaken (fun _ _ h => ⟨⟨h.1, h.2 rfl⟩, h.1⟩)
      fun _ _ _ h => ?_
    exact ⟨h.2, fun _ => h.2.known.ready h.1⟩
  | suggest htag =>
    exact (meets_concerning (meets_plainSessionCall (.inr htag) none)).weaken
        (fun _ _ h => ⟨trivial, h.1⟩) fun _ _ _ h =>
      ⟨h.2, nofun⟩
  | ensureLoaded =>
    exact (meets_concerning (meets_ensureLoaded d)).weaken
        (fun _ _ h => ⟨h.1.known, h.1⟩) fun _ _ _ h =>
      ⟨h.2, fun _ => ready_of_upToDate h.1⟩
  | load =>
    refine (meets_concerning (meets_load d)).weaken (fun _ _ h => ⟨h.1.known, h.1⟩) ?_
    rintro _ w ℓ ⟨⟨⟨doc, hdoc⟩, hrecorded⟩, hconcerns⟩
    have hdated : UpToDate d true ℓ := ⟨doc, hdoc, hrecorded⟩
    exact ⟨hconcerns, fun _ => ready_of_upToDate hdated⟩
  | edit e start finish text =>
    exact (meets_concerning (meets_applyEdit d e start finish text)).weaken
        (fun _ _ h => ⟨trivial, h.1⟩) fun _ _ _ h =>
      ⟨h.2, nofun⟩

theorem meets_complete (d : Nat) (line column : Int) :
    Meets s (some request) (fun _ _ => True) (complete s d line column) fun _ _ _ => True := by
  intro w ℓ htied hunbound _
  refine safe_session (safe_isRunning ?_)
  split
  · exact safe_pure hunbound trivial
  · refine safe_ofResult hunbound fun target _ => ?_
    dsimp only
    split
    · exact safe_pure hunbound trivial
    · refine (meets_plainSessionCall (.inr rfl) none).andThen htied hunbound trivial
        fun r w ℓ _ hunbound _ _ => ?_
      split
      · exact safe_pure hunbound trivial
      · exact safe_pure hunbound trivial

/-! ## Requests -/

/-- Goes on after a document is watched. -/
theorem safe_watch {p : Action Answer} {Q : Answer → World → List Note → Prop}
    (hp : Meets s (some request) P p Q) (htied : Tied s ℓ w .free) (hunbound : Unbound ℓ)
    (hP : ∀ w', Tied s (ℓ ++ [.watch d]) w' .free → P w' (ℓ ++ [.watch d]))
    (hwarrants : ∀ ℓ a, Warrants ℓ request (.ok a)) :
    Safe (keeping s (some request)) (do
      modifySession s fun session => session.watch d
      p) (Closes request) w (ℓ, .free) :=
  safe_note (x := .watch d) htied (hunbound _) trivial ⟨nofun, rfl⟩ rfl trivial rfl rfl fun htied =>
    hp.closes htied (unbound_snoc trivial) (hP _ htied) fun a _ ℓ _ => hwarrants ℓ a

theorem safe_documentRequest {request : DocumentRequest} (hgenuine : request ≠ .noteLoaded)
    (htied : Tied s ℓ w .free) (hunbound : Unbound ℓ)
    (hfound : (recount ℓ).findDocument? name = some d) :
    Safe (keeping s (some (.document name request))) (request.action s d)
      (Closes (.document name request)) w (ℓ, .free) := by
  have hknown : Known d ℓ := .of_find hfound
  have hlater : ∀ {ℓ'}, ℓ <+: ℓ' → Valid ℓ' → (recount ℓ').findDocument? name = some d :=
    fun hgrown hvalid => (Keeps.recount hgrown hvalid).findDocument? hfound
  cases request with
  | ensureLoaded =>
    refine (meets_ensureLoaded d).bind htied hunbound hknown
      (fun loaded w ℓ' htied hunbound hgrown hloaded => ?_)
      fun _ _ _ hunbound => closes_error hunbound
    exact ⟨rfl, fun _ => hunbound _, d, hlater hgrown htied.valid, hloaded⟩
  | load => exact ((meets_load d).map _).closes htied hunbound hknown fun _ _ _ _ => trivial
  | postLoad label =>
    refine Safe.bind ((Safe.tied (safe_postLoad htied hunbound hknown) htied).mono ?_)
    rintro r w ⟨ℓ', phase⟩ ⟨⟨hphase, hfollows, hends⟩, htied, hgrown⟩
    obtain rfl : phase = .free := hphase
    cases r with
    | ok id =>
      refine safe_still htied (still_report w _)
        fun _ => ⟨rfl, fun _ => hfollows _ _ _, d, ?_, hends id rfl⟩
      exact hlater hgrown htied.valid
    | error e => exact ⟨rfl, fun _ => hfollows _ _ _, warrants_error _ _ e⟩
  | watch =>
    have hunbound' : Unbound (ℓ ++ [.watch d]) := unbound_snoc trivial
    exact safe_note (x := .watch d) htied (hunbound _) trivial ⟨nofun, rfl⟩ rfl
        trivial rfl rfl fun _ =>
      ⟨rfl, fun _ => hunbound' _, trivial⟩
  | noteChange =>
    refine safe_pathOf (safe_note (x := .change ((w.session s).buffer d).path) htied (hunbound _)
      trivial ⟨nofun, rfl⟩ rfl trivial (congrArg Dispatch.ledger (dispatch_noteChange _ _))
      rfl fun _ => ?_)
    have hunbound' : Unbound (ℓ ++ [.change ((w.session s).buffer d).path]) := unbound_snoc trivial
    exact ⟨rfl, fun _ => hunbound' _, trivial⟩
  | noteLoaded => exact absurd rfl hgenuine
  | query => exact ⟨rfl, fun _ => hunbound _, trivial⟩
  | replace start finish text =>
    exact ((meets_replace d start finish _).map _).closes htied hunbound trivial
      fun _ _ _ _ => trivial
  | reread => exact ((meets_reread d).map _).closes htied hunbound trivial fun _ _ _ _ => trivial
  | typeOf line column target =>
    exact safe_watch ((meets_of_handles (.typeOf line column target)).map _) htied hunbound
      (fun w' htied => ⟨⟨name, rfl, hlater (prefix_append ..) htied.valid⟩, nofun⟩)
      fun _ _ => trivial
  | edit command line column snippets =>
    exact safe_watch ((meets_of_handles (.perform _ line column command)).map _) htied hunbound
      (fun w' htied => ⟨⟨name, rfl, hlater (prefix_append ..) htied.valid⟩, nofun⟩)
      fun _ _ => trivial
  | complete line column =>
    exact safe_watch ((meets_complete d line column).map _) htied hunbound (fun _ _ => trivial)
      fun _ _ => trivial

theorem meets_resolve (name : String) :
    Meets s origin (fun _ _ => True) (resolve name) fun _ _ _ => True := by
  intro w ℓ htied hunbound _
  unfold resolve
  split
  · exact .get (safe_pure hunbound trivial)
  · exact safe_throw hunbound

theorem meets_resolveAll (file : Option String) :
    Meets s origin (fun _ _ => True) (file.mapM resolve) fun _ _ _ => True := by
  cases file with
  | none => exact fun w ℓ _ hunbound _ => safe_pure hunbound trivial
  | some name => exact (meets_resolve name).map _

/-- Every operation that may be asked of a session keeps its log. -/
theorem safe_sessionRequest (hgenuine : request.Genuine) (htied : Tied s ℓ w .free)
    (hunbound : Unbound ℓ) :
    Safe (keeping s (some request)) (request.action s) (Closes request) w (ℓ, .free) := by
  have hrest : ∀ {w' : World} {ℓ' : List Note} (a : Answer),
    Warrants ℓ' request (.ok a) → Unbound ℓ' →
      Safe (keeping s (some request)) (pure a : Action Answer) (Closes request) w' (ℓ', .free) :=
    fun _ hwarrants hunbound => ⟨rfl, fun _ => hunbound _, hwarrants⟩
  have hfault : ∀ (e : Fault) (w' : World) (ℓ' : List Note),
      Unbound ℓ' → Closes request (.error e) w' (ℓ', Phase.free) :=
    fun _ _ _ hunbound => closes_error hunbound
  cases request with
  | ensure =>
    refine meets_ensureRunning.bind htied hunbound trivial
      (fun message w ℓ _ hunbound _ _ => ?_) hfault
    split
    · exact hrest _ trivial hunbound
    · exact hrest _ trivial hunbound
  | close => exact (meets_close.map _).closes htied hunbound trivial fun _ _ _ _ => trivial
  | call command limit =>
    exact ((meets_plainSessionCall (.inl rfl) limit).map _).closes htied hunbound trivial
      fun _ _ _ _ => trivial
  | rawCall command limit =>
    exact ((meets_plainCall rfl limit).map _).closes htied hunbound trivial fun _ _ _ _ => trivial
  | post label command =>
    have hsuits : ∀ id, Purpose.plain.Suits ℓ (.post label command)
        ⟨id, command, .continuation label⟩ :=
      fun id => ⟨.inl rfl, fun _ _ _ => nofun⟩
    refine Safe.bind ((Safe.tied (safe_post (by nofun) htied hunbound hsuits) htied).mono ?_)
    rintro r w ⟨ℓ, phase⟩ ⟨hposts, htied, -⟩
    obtain rfl : phase = .free := hposts.1
    cases r with
    | ok issued =>
      exact safe_still htied (still_report w _)
        fun _ => ⟨rfl, fun _ => hposts.follows _ _ _, trivial⟩
    | error e => exact ⟨rfl, fun _ => hposts.follows _ _ _, trivial⟩
  | discard => exact (meets_discard.map _).closes htied hunbound trivial fun _ _ _ _ => trivial
  | switch directory =>
    refine (meets_resolve directory).bind htied hunbound trivial
      (fun p w ℓ htied hunbound _ _ => ?_) hfault
    exact ((meets_switchDirectory p).map _).closes htied hunbound trivial fun _ _ _ _ => trivial
  | evaluate expression limit =>
    exact ((meets_evaluate rfl).map _).closes htied hunbound trivial fun _ _ _ _ => trivial
  | output => exact hrest _ trivial hunbound
  | listen =>
    exact safe_still htied (still_modifySession rfl rfl)
      fun _ => ⟨rfl, fun _ => hunbound _, trivial⟩
  | warnings file =>
    refine (meets_resolveAll file).bind htied hunbound trivial
      (fun p w ℓ _ hunbound _ _ => ?_) hfault
    exact safe_session (hrest _ trivial hunbound)
  | resetWarnings file =>
    refine (meets_resolveAll file).bind htied hunbound trivial
      (fun p w ℓ htied hunbound _ _ => ?_) hfault
    refine safe_still htied ?_ fun _ => hrest _ trivial hunbound
    cases p with
    | none => exact still_modifySession rfl rfl
    | some p => exact still_modifySession rfl rfl
  | addWarning value directory =>
    unfold SessionRequest.action
    dsimp only
    split
    · exact hfault _ _ _ hunbound
    · next warning _ =>
      refine (meets_resolve _).bind htied hunbound trivial
        (fun base w ℓ htied hunbound _ _ => safe_session ?_) hfault
      cases hadded : (w.session s).addWarning base warning with
      | error e => exact hfault _ _ _ hunbound
      | ok added =>
        have hfeatures : added.dispatch.ledger = (w.session s).dispatch.ledger ∧
            added.memory = (w.session s).memory := by
          unfold Session.addWarning at hadded
          split at hadded
          · cases hadded
            exact ⟨rfl, rfl⟩
          · cases hadded
        exact safe_still htied (still_modifySession hfeatures.1 hfeatures.2)
          fun _ => hrest _ trivial hunbound
  | stats => exact hrest _ trivial hunbound
  | document name request =>
    refine (meets_openDocument name).bind htied hunbound trivial
      (fun d w ℓ htied hunbound _ hfound => ?_) hfault
    exact safe_documentRequest (fun heq => hgenuine name (heq ▸ rfl)) htied hunbound hfound

end IdeMode.Client
