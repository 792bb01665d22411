import IdeMode.Proofs.Client.Plain
import IdeMode.Proofs.Startup.Stages
set_option autoImplicit false

/-!
# Every operation keeps to the stages

Whatever is asked of a session, except to close it: up to the end of its first call the operation
does nothing but start a process if there is none, read its banner, and issue the call.
-/

namespace IdeMode.Startup

open Client Prog World

variable {s : Nat} {b : Banner} {α : Type} {w : World} {g : Stage}

/-! ## Starting and calling -/

theorem enters_ensureRunning : Enters s b (ensureRunning s) := by
  intro w g hgood
  apply safe_isRunning
  split
  · exact .inl hgood
  · next hrunning =>
    have hstopped : w.isRunning s = false := Bool.eq_false_iff.2 hrunning
    obtain ⟨hs, hrest, hstage⟩ := id hgood
    cases g with
    | idle =>
      have haside : Aside s w (w.modifySession s
          fun session => { session with loaded := none, cwd := none }) :=
        .modifySession rfl rfl
      obtain ⟨hs', hrest', hexpects⟩ := hgood.aside haside
      have hstopped' := haside.isRunning_eq.trans hstopped
      have hstep : Advances s b w .idle _ .idle := .aside trivial haside
      apply Safe.modify_bind .idle hstep
      apply Safe.bind
      apply (safe_start hs' hrest' hstopped'
        (hexpects.resolve_left (by rw [hstopped']; nofun))).mono
      rintro r w' g' (⟨message, c, rfl, rfl, hfeeds⟩ | ⟨f, rfl, rfl⟩)
      · exact .inl ⟨hfeeds.present, hfeeds.atRest, hfeeds.isRunning⟩
      · rfl
    | greeted => exact absurd hstage hrunning
    | _ => exact hstage.elim

theorem addressee_issue (w : World) (command : Command) (addressee : Addressee) :
    (w.issue s command addressee).1.addressee = addressee :=
  congrArg Call.addressee (issue_eq w s command addressee).1

/-- What becomes of a call: it is refused, it is over, or it has failed with an outage. -/
def Calls {α : Type} (w : World) (g : Stage) (r : Result α) (w' : World) (g' : Stage) : Prop :=
  (w' = w ∧ g' = g ∧ r = .error (.unavailable .notRunning)) ∨ g' = .beyond ∨
    ∃ o, g' = .failed (.unavailable o) ∧ r = .error (.unavailable o)

/-- An outcome is taken. -/
theorem aside_takeOutcome (w : World) (id : Nat) :
    Aside s w (w.modifyDispatch s fun d => { d with outcomes := d.outcomes.erase id }) := by
  refine .modifyDispatch (fun hrest => { hrest with outcomes_eq := ?_ }) rfl
  rw [hrest.outcomes_eq]
  rfl

/-- Once a call is issued, its outcome is waited for. -/
theorem safe_outcome (call : Call) (haddressee : call.addressee = .waiter) (limit : Option Duration)
    (tag : String) (w₀ : World) (g₀ : Stage) : Safe (opening s b) (awaitOutcome s call.id limit >>=
      fun outcome => conclude s call.id limit tag outcome) (Calls w₀ g₀) w (.calling call) := by
  have hawait : ∀ deadline, Safe (opening s b) (do
      let _ ← Prog.await (.outcome s call.id) deadline
      let outcome ← takeOutcome s call.id
      conclude s call.id limit tag outcome : Action Response) (Calls w₀ g₀) w (.calling call) := by
    intro deadline
    refine ⟨⟨rfl, haddressee⟩, fun signal w' g' hwake => ?_⟩
    rcases hwake with rfl | ⟨o, rfl, houtcome⟩
    · exact safe_beyond (fun r w => .inr (.inl rfl)) w'
    · show Safe (opening s b)
        (takeOutcome s call.id >>= fun outcome => conclude s call.id limit tag outcome) _ w' _
      apply Safe.bind
      apply safe_session
      rw [houtcome]
      exact ⟨_, .fail (aside_takeOutcome w' call.id), .inr (.inr ⟨o, rfl, rfl⟩)⟩
  cases limit with
  | none => exact hawait none
  | some limit => exact hawait (some (w.host.clock + limit.nanos))

theorem safe_call (command : Command) (limit : Option Duration) (hgood : Good s b w g) :
    Safe (opening s b) (call s command limit) (Calls w g) w g := by
  apply safe_isRunning
  cases hrunning : w.isRunning s with
  | false => exact .inl ⟨rfl, rfl, rfl⟩
  | true =>
    have hstep : Advances s b w g (w.issue s command .waiter).2
        (.calling (w.issue s command .waiter).1) :=
      .issue hgood.free hrunning
    exact ⟨_, hstep, safe_outcome _ (addressee_issue w command .waiter) limit command.tag w g⟩

theorem enters_call (command : Command) (limit : Option Duration) :
    Enters s b (call s command limit) := by
  intro w g hgood
  apply (safe_call command limit hgood).mono
  rintro r w' g' (⟨rfl, rfl, rfl⟩ | rfl | ⟨o, rfl, rfl⟩)
  · exact hgood.left _
  · exact left_beyond r w'
  · rfl

theorem enters_sessionCall (command : Command) (limit : Option Duration) :
    Enters s b (sessionCall s command limit) :=
  .bind .session fun _ => enters_call command _

/-! ## Plain work -/

/-- A failed load leaves only diagnostics behind. -/
theorem aside_loadFault (w : World) (t : Nat) (p : Path) (f : Fault) :
    Aside s w (w.loadFault t p f).2 := by
  unfold loadFault
  split
  · exact ⟨rfl, rfl, ⟨[], by simp [announceDiagnostics]⟩, ⟨w.host.disk, rfl⟩, rfl, id, rfl⟩
  · exact .refl w

variable (d : Nat)

theorem enters_load (hbegin : Enters s b (beginLoad s d)) : Enters s b (load s d) := by
  refine .bind hbegin fun begun => .bind .session fun session => ?_
  intro w g hgood
  apply Safe.bind
  apply Safe.attempt
  apply (safe_call begun.1 session.loadLimit hgood).mono
  rintro r w' g' (⟨rfl, rfl, rfl⟩ | rfl | ⟨o, rfl, rfl⟩)
  · have haside := aside_loadFault (s := s) w' s ((w'.session s).buffer d).path
      (.unavailable .notRunning)
    exact safe_aside hgood haside fun hgood' => hgood'.left _
  · exact safe_beyond (fun r w => left_beyond r w) w'
  · exact ⟨_, .fail (.refl w'), rfl⟩

/-- Plain work keeps to the stages, since a start or a call that fails is the end of it. -/
protected theorem Enters.of_plain {p : Action α} (h : Plain s p) : Enters s b p := by
  induction h with
  | done r => exact .done r
  | bind hp hf ihp ihf => exact .bind ihp ihf
  | get => exact .get
  | note hf =>
    exact enters_modifySession
        (fun session => congrArg (fun engine => engine.transport) (hf session)) fun session =>
      congrArg (fun engine => engine.dispatch) (hf session)
  | @revise _ f _ hf hnext ih =>
    intro w g hgood
    have haside : Aside s w (w.modifySession s fun _ => f (w.session s)) :=
      .modifySession (congrArg (fun engine => engine.transport) (hf _))
        (congrArg (fun engine => engine.dispatch) (hf _))
    exact safe_aside hgood haside (ih _ _ _)
  | write disk => exact enters_modify fun w => .placeDisk w disk
  | start => exact enters_ensureRunning
  | call command hlimit => exact enters_sessionCall command _
  | loading hbegin ih => exact enters_load _ ih

/-! ## Requests -/

/-- An operation has ended, perhaps after it issued a call for which it does not wait. -/
def Over (s : Nat) (b : Banner) {α : Type} (r : Result α) (w : World) (g : Stage) : Prop :=
  Left s b r w g ∨ ∃ call, g = .calling call ∧ call.addressee ≠ .waiter

theorem safe_over_map {β : Type} {p : Action α} (f : α → β)
    (h : Safe (opening s b) p (Over s b) w g) : Safe (opening s b) (f <$> p) (Over s b) w g := by
  apply Safe.bind
  apply h.mono
  intro r w' g' hover
  cases r with
  | ok a => exact hover
  | error f => exact hover

/-- No operation ends while it reads a banner. -/
theorem not_over_greeting {r : Result α} {c : Nat} {rest : List UInt8} :
    ¬ Over s b r w (.greeting c rest) := by
  rintro (hleft | ⟨call, hcall, -⟩)
  · cases r with
    | ok a => exact (hleft.elim (fun hgood => hgood.2.2) nofun).elim
    | error f => exact hleft.elim
  · cases hcall

theorem over_beyond (r : Result α) (w : World) : Over s b r w .beyond := .inl (left_beyond r w)

/-- A command that is turned down is only reported to its continuation. -/
theorem aside_refuse (w : World) (command : Command) {addressee : Addressee}
    (haddressee : addressee ≠ .waiter) (f : Fault) : Aside s w
      ((w.modifyDispatch s fun _ => ((w.session s).dispatch.refuse command addressee).2).deliver s
      ((w.session s).dispatch.refuse command addressee).1 (.failed f)) := by
  have hdeliver :
    (w.modifyDispatch s fun _ => ((w.session s).dispatch.refuse command addressee).2).deliver s
      ((w.session s).dispatch.refuse command addressee).1 (.failed f) =
        (w.modifyDispatch s fun _ => ((w.session s).dispatch.refuse command addressee).2).enqueue
          (.settle s ((w.session s).dispatch.refuse command addressee).1 (.failed f)) := by
    cases addressee with
    | waiter => exact absurd rfl haddressee
    | _ => rfl
  rw [hdeliver]
  refine Aside.trans ?_ (.enqueue _ trivial)
  exact .modifyDispatch (fun hrest => { hrest with }) rfl

/-- A command with a continuation is turned down, or it is issued. -/
theorem safe_post (command : Command) {addressee : Addressee} (haddressee : addressee ≠ .waiter)
    (hgood : Good s b w g) :
    Safe (opening s b) (post s command addressee) (fun r w' g' => ∃ issued, r = .ok issued ∧
      (Good s b w' g' ∨ ∃ call, g' = .calling call ∧ call.addressee ≠ .waiter)) w g := by
  apply safe_isRunning
  cases hrunning : w.isRunning s with
  | true =>
    have hstep : Advances s b w g (w.issue s command addressee).2
        (.calling (w.issue s command addressee).1) :=
      .issue hgood.free hrunning
    exact ⟨_, hstep, _, rfl, .inr ⟨_, rfl, (addressee_issue w command addressee).symm ▸ haddressee⟩⟩
  | false =>
    exact safe_aside hgood (aside_refuse w command haddressee _) fun hgood' => ⟨_, rfl, .inl hgood'⟩

/-- What was done is reported. -/
theorem safe_report {e : Event} (a : Answer)
    (h : Good s b w g ∨ ∃ call, g = .calling call ∧ call.addressee ≠ .waiter) :
    Safe (opening s b) (do
      modify fun w => w.report e
      return a : Action Answer) (Over s b) w g := by
  rcases h with hgood | ⟨call, rfl, haddressee⟩
  · exact safe_aside hgood (.report w e) fun hgood' => .inl (hgood'.left _)
  · exact ⟨_, .report, .inr ⟨call, rfl, haddressee⟩⟩

theorem safe_postLoad (label : String) (hgood : Good s b w g) :
    Safe (opening s b) (postLoad s d label) (fun r w' g' => match r with
      | .ok _ =>
        Good s b w' g' ∨ g' = .beyond ∨ ∃ call, g' = .calling call ∧ call.addressee ≠ .waiter
      | .error _ => Left s b r w' g') w g := by
  apply safe_session
  apply safe_pathOf
  split
  · exact safe_aside hgood (.enqueue w trivial) .inl
  · apply Safe.bind
    apply (Enters.of_plain (.beginLoad d) w g hgood).mono
    intro r w' g' hleft
    cases r with
    | ok begun =>
      rcases hleft with hgood' | rfl
      · apply Safe.bind
        have haddressee : Addressee.load label d begun.2 ≠ .waiter := nofun
        apply (safe_post begun.1 haddressee hgood').mono
        rintro r w₁ g₁ ⟨issued, rfl, hend | hend⟩
        · exact .inl hend
        · exact .inr (.inr hend)
      · refine safe_beyond (fun r w => ?_) w'
        cases r with
        | ok id => exact .inr (.inl rfl)
        | error f => trivial
    | error f => exact hleft

theorem Enters.over {p : Action α} (hp : Enters s b p) (hgood : Good s b w g) :
    Safe (opening s b) p (Over s b) w g :=
  (hp w g hgood).mono fun _ _ _ => .inl

/-- Where no call is pending there is nothing to discard. -/
theorem aside_discard (hrest : AtRest (w.session s).dispatch) : Aside s w (w.discard s) := by
  have hdiscard : (w.session s).dispatch.discard = ([], (w.session s).dispatch) := by
    unfold Dispatch.discard
    rw [hrest.pending_eq]
    obtain ⟨hpending, houtbox, hwriter, hidle, hreader, -, -⟩ := hrest
    generalize (w.session s).dispatch = d at *
    cases d
    simp_all
  have hkept : w.discard s = w.modifyDispatch s fun _ => (w.session s).dispatch := by
    unfold World.discard
    dsimp only
    rw [hdiscard, hrest.reader_eq, hrest.writer_eq]
    rfl
  rw [hkept]
  exact .modifySession rfl rfl

theorem safe_documentRequest (request : DocumentRequest) (hgood : Good s b w g) :
    Safe (opening s b) (request.action s d) (Over s b) w g := by
  cases request with
  | postLoad label =>
    apply Safe.bind
    apply (safe_postLoad d label hgood).mono
    intro r w' g' hend
    cases r with
    | ok id =>
      rcases hend with hgood' | rfl | hcalling
      · exact safe_report _ (.inl hgood')
      · exact safe_beyond (fun r w => over_beyond r w) w'
      · exact safe_report _ (.inr hcalling)
    | error f => exact .inl hend
  | _ => exact (Enters.of_plain (.documentRequest d rfl)).over hgood

/-- Every operation on a session but the one that closes it keeps to the stages. -/
theorem safe_sessionRequest {request : SessionRequest} (hrequest : request ≠ .close)
    (hgood : Good s b w g) : Safe (opening s b) (request.action s) (Over s b) w g := by
  cases request with
  | close => exact absurd rfl hrequest
  | call command limit => exact (Enters.map _ (enters_sessionCall command limit)).over hgood
  | rawCall command limit => exact (Enters.map _ (enters_call command limit)).over hgood
  | post label command =>
    have haddressee : Addressee.continuation label ≠ .waiter := by rintro ⟨⟩
    apply Safe.bind
    apply (safe_post command haddressee hgood).mono
    rintro r w' g' ⟨issued, rfl, hend⟩
    exact safe_report _ hend
  | discard => exact safe_aside hgood (aside_discard hgood.2.1) fun hgood' => .inl (hgood'.left _)
  | evaluate expression limit =>
    have hclear : Enters s b (modifySession s fun session => { session with output := [] }) :=
      .of_plain (.note fun _ => rfl)
    refine
      (Enters.map _ (Enters.bind enters_ensureRunning fun _ => Enters.bind hclear fun _ => ?_)).over
        hgood
    exact enters_sessionCall _ limit
  | document name request =>
    apply Safe.bind
    apply (Enters.of_plain (.openDocument name) w g hgood).mono
    intro r w' g' hleft
    cases r with
    | ok d =>
      rcases hleft with hgood' | rfl
      · exact safe_documentRequest d request hgood'
      · exact safe_beyond (fun r w => over_beyond r w) w'
    | error f => exact .inl hleft
  | _ => exact (Enters.of_plain (.sessionRequest rfl)).over hgood

end IdeMode.Startup
