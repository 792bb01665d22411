import IdeMode.Proofs.Prog.Safe
import IdeMode.Proofs.World.Listeners
set_option autoImplicit false

/-!
# Programs that deal with processes

Reading, signalling and stopping touch nothing but processes, and the part of a session that says
which process it has. None of this starts a process or writes to one. To start a process, or to call
it, takes few other steps; what all of these keep is kept by every start and every call.
-/

namespace IdeMode.Client

open Prog World

/-! ## Looking -/

section Looking

variable {s : Nat} {w : World} {α γ : Type} {D : Discipline World Await γ}
  {Q : Result α → World → γ → Prop} {g : γ}

theorem safe_session {f : Session → Action α} (h : Safe D (f (w.session s)) Q w g) :
    Safe D (session s >>= f) Q w g := h

theorem safe_isRunning {f : Bool → Action α} (h : Safe D (f (w.isRunning s)) Q w g) :
    Safe D (isRunning s >>= f) Q w g := h

theorem safe_pathOf {d : Nat} {f : Path → Action α}
    (h : Safe D (f ((w.session s).buffer d).path) Q w g) : Safe D (pathOf s d >>= f) Q w g := h

end Looking

theorem obeys_session {D : Discipline World Await Unit} (s : Nat) : Obeys D (session s) :=
  .bind .get fun _ => .done _

/-! ## Reading -/

/-- Output is taken from a process, or the session learns the version of its compiler. -/
inductive Draws (s : Nat) (w : World) : World → Prop where
  | take {c : Nat} {f : Host.Child → Host.Child}
    (h : ∀ child, (f child).status = child.status ∧ (f child).readers = child.readers ∧
      (f child).listener = child.listener ∧ (f child).ended = child.ended ∧
      (f child).output.length ≤ child.output.length) : Draws s w (w.modifyChild c f)
  | version {version : Option (Value × Value)} :
    Draws s w (w.modifyTransport s fun t => { t with version := version })

/-- What programs keep to that read from the process of a session. -/
def drawing (s : Nat) : Discipline World Await Unit where
  Step w _ w' _ := Draws s w w'
  Pause on _ _ := ∃ c count, on = .output c count
  Wake _ _ _ _ _ _ := True

variable {s : Nat}

theorem drawing_takeOutput (c count : Nat) : Obeys (drawing s) (takeOutput c count) := by
  refine .bind .get fun w => ?_
  split
  · exact .done _
  · split
    · exact .done _
    · refine .bind (.modify fun _ => .take ?_) fun _ => .done _
      exact fun child => ⟨rfl, rfl, rfl, rfl, List.length_drop ▸ Nat.sub_le ..⟩
    · refine .bind (.modify fun _ => .take ?_) fun _ => .done _
      exact fun child => ⟨rfl, rfl, rfl, rfl, Nat.zero_le _⟩

theorem drawing_readExactly (c count : Nat) (deadline : Option Int) :
    Obeys (drawing s) (readExactly c count deadline) := by
  refine .bind (drawing_takeOutput c count) fun taken => ?_
  split
  · exact .done _
  · refine .bind .get fun w => ?_
    split
    · exact .done _
    · refine .bind (.await fun _ => ⟨_, _, rfl⟩) fun signal => ?_
      split
      · exact .done _
      · exact .bind (drawing_takeOutput c count) fun _ => .done _

variable (t : Nat)

theorem drawing_process : Obeys (drawing t) (process t) := by
  refine .bind (obeys_session t) fun session => ?_
  split
  · exact .done _
  · exact .done _

/-- Reading a message keeps to what reading bytes keeps to. -/
theorem obeys_receiveMessage {D : Discipline World Await Unit} {deadline : Option Int}
    (hprocess : Obeys D (process t)) (hexactly : ∀ c n, Obeys D (readExactly c n deadline)) :
    Obeys D (receiveMessage t deadline) := by
  have htext : ∀ bound missing pending read,
      Obeys D (readText t deadline bound missing pending read) := by
    intro bound
    induction bound with
    | zero => exact fun _ _ _ => .done _
    | succ bound ih =>
      intro missing pending read
      unfold readText
      split
      · exact .done _
      · exact .bind hprocess fun c => .bind (hexactly c _) fun bytes => ih _ _ _
  refine .bind (.bind (obeys_session t) fun session => ?_) fun text => .done _
  split
  · exact .done _
  · refine .bind (hexactly _ _) fun header => ?_
    split
    · exact .done _
    · exact htext _ _ _ _

theorem drawing_receiveMessage (deadline : Option Int) :
    Obeys (drawing t) (receiveMessage t deadline) :=
  obeys_receiveMessage t (drawing_process t) fun c n => drawing_readExactly c n deadline

theorem obeys_deadlineIn {D : Discipline World Await Unit} (d : Duration) :
    Obeys D (deadlineIn d) :=
  .bind .get fun _ => .done _

theorem drawing_readBanner (limit : Duration) : Obeys (drawing t) (readBanner t limit) := by
  unfold readBanner
  split
  · exact .done _
  · exact .bind (obeys_deadlineIn limit) fun deadline => drawing_receiveMessage t _

/-- What is done with a process that has just been started. -/
theorem drawing_greet (banner : Message) : Obeys (drawing t) (greet t banner) := by
  unfold greet
  split
  · exact .bind (.modify fun _ => .version) fun _ => .bind (drawing_process t) fun c =>
      .bind .get fun w => .done _
  · exact .bind (drawing_process t) fun c => .bind .get fun w => .done _

/-! ## Processes -/

/-- Processes change and their listeners hear of it, or what a session knows of its process; it may
forget its process, but not find another. -/
inductive Gentle (s : Nat) (w : World) : World → Prop where
  | stirs {w' : World} (h : Stirs w w') (h' : Alerts w w') : Gentle s w w'
  | transport {f : Transport → Transport} (h : ∀ t, (f t).child = t.child ∨ (f t).child = none) :
    Gentle s w (w.modifyTransport s f)

/-- What programs keep to that deal with the process of a session; they wait for no call. -/
def gentle (s : Nat) : Discipline World Await Unit where
  Step w _ w' _ := Gentle s w w'
  Pause on _ _ := ∀ t id, on ≠ .outcome t id
  Wake _ _ _ _ _ _ := True

/-- Output is taken from a process. -/
theorem gentle_modifyChild (w : World) (c : Nat) {f : Host.Child → Host.Child}
    (hf : ∀ child, (f child).status = child.status ∧ (f child).readers = child.readers ∧
      (f child).listener = child.listener ∧ (f child).ended = child.ended ∧
      (f child).output.length ≤ child.output.length) : Gentle s w (w.modifyChild c f) := by
  refine .stirs (stirs_modifyChild w c fun child hrunning => ?_) (alerts_modifyChild w c ?_ ?_ ?_)
  · rw [Host.Child.isRunning, ← (hf child).1]
    exact hrunning
  · exact fun child => (hf child).2.1
  · exact fun child => ⟨(hf child).2.2.1, (hf child).2.2.2.2, (hf child).2.2.2.1⟩
  · exact fun child => (hf child).1

theorem gentle_of_drawing {α : Type} {p : Action α} (h : Obeys (drawing s) p) :
    Obeys (gentle s) p := by
  refine h.refine (fun w w' hw => ?_) (fun on w hon t id => ?_) fun _ _ _ _ _ => trivial
  · cases hw with
    | take hf => exact gentle_modifyChild w _ hf
    | version => exact .transport fun _ => .inl rfl
  · obtain ⟨c, count, rfl⟩ := hon
    nofun

theorem gentle_process : Obeys (gentle t) (process t) := gentle_of_drawing (drawing_process t)

theorem gentle_receiveMessage (deadline : Option Int) :
    Obeys (gentle t) (receiveMessage t deadline) :=
  gentle_of_drawing (drawing_receiveMessage t deadline)

theorem gentle_readBanner (limit : Duration) : Obeys (gentle t) (readBanner t limit) :=
  gentle_of_drawing (drawing_readBanner t limit)

theorem gentle_signal (c : Nat) (terminates : Bool) : Obeys (gentle s) (signal c terminates) := by
  refine obeys_exchange (fun w =>
    .stirs (stirs_signal w c terminates) (alerts_signal w c terminates)) fun w => ?_
  split <;> exact .done _

theorem gentle_interrupt : Obeys (gentle t) (interrupt t) := by
  refine .bind (.bind .get fun _ => .done _) fun running => ?_
  split
  · exact .bind (gentle_process t) fun c => gentle_signal c false
  · exact .done _

theorem gentle_killProcess : Obeys (gentle t) (killProcess t) := by
  exact .bind (gentle_process t) fun c w => ⟨(), .stirs (stirs_kill w c) (alerts_kill w c), trivial⟩

theorem gentle_terminate (t c : Nat) : Obeys (gentle t) (terminate t c) := by
  refine .bind (gentle_signal c true) fun _ => .bind .get fun w => ?_
  split
  · refine .bind (obeys_deadlineIn _) fun deadline => .bind (.await fun _ => nofun) fun signal => ?_
    split
    · exact .done _
    · exact gentle_killProcess t
  · exact .done _

theorem gentle_stop : Obeys (gentle t) (stop t) := by
  have hforget : Obeys (gentle t) (modify fun w => w.modifyTransport t fun t => { t with
      child := none, version := none } : Action Unit) :=
      .modify fun w => .transport fun _ => .inr rfl
  refine .bind (obeys_session t) fun session => ?_
  split
  · refine .bind .get fun w => ?_
    split
    · exact .bind (gentle_terminate t _) fun _ => hforget
    · exact hforget
  · exact hforget

/-! ## Starting and calling -/

/-- What a program does that starts a process for a session, or calls it with one of the commands
`P`. -/
inductive Deals (s : Nat) (P : Command → Prop) (w : World) : World → Prop where
  | gentle {w' : World} (h : Gentle s w w') : Deals s P w w'
  | spawn (command : List String) (directory : String) (environment : List (String × String)) :
    Deals s P w { w with host := (w.host.spawn command directory environment).2 }
  | attach (c : Nat) : Deals s P w (w.modifyTransport s fun t => { t with child := some c })
  | issue (hrunning : w.isRunning s = true) {command : Command} (hcommand : P command) :
    Deals s P w (w.issue s command .waiter).2
  | take (id : Nat) :
    Deals s P w (w.modifyDispatch s fun d => { d with outcomes := d.outcomes.erase id })
  | drop (id : Nat) : Deals s P w (w.modifyDispatch s fun d => d.remove id)

/-- What starts and calls keep to. -/
def dealing (s : Nat) (P : Command → Prop) : Discipline World Await Unit where
  Step w _ w' _ := Deals s P w w'
  Pause _ _ _ := True
  Wake _ _ _ _ _ _ := True

variable {P : Command → Prop} {α : Type} {p : Action α}

theorem dealing_of_gentle (h : Obeys (gentle s) p) : Obeys (dealing s P) p :=
  h.refine (fun _ _ hw => .gentle hw) (fun _ _ _ => trivial) fun _ _ _ _ _ => trivial

theorem dealing_spawn : Obeys (dealing t P) (spawn t) := by
  intro w
  unfold spawn
  -- The new host is made from the world that is found, so the step is taken in that world.
  refine safe_session (.get (.modify_bind () (.spawn ..) ?_))
  split
  · trivial
  · trivial
  · exact .modify_bind () (.attach _) trivial

theorem dealing_start (limit : Duration) : Obeys (dealing t P) (start t limit) := by
  refine .bind (.bind .get fun _ => .done _) fun running => ?_
  split
  · exact .done _
  · refine .bind (dealing_spawn t)
      fun _ => .bind (dealing_of_gentle (gentle_readBanner t limit)) fun banner => ?_
    exact dealing_of_gentle (gentle_of_drawing (drawing_greet t banner))

/-- The rest of a call, after its command was issued. -/
def awaitReply (s id : Nat) (limit : Option Duration) (tag : String) : Action Response := do
  conclude s id limit tag (← awaitOutcome s id limit)

theorem dealing_awaitReply (id : Nat) (limit : Option Duration) (tag : String) :
    Obeys (dealing t P) (awaitReply t id limit tag) := by
  have hdeadline : Obeys (dealing t P) (limit.mapM deadlineIn : Action (Option Int)) := by
    cases limit with
    | none => exact .done _
    | some limit => exact .bind (obeys_deadlineIn limit) fun _ => .done _
  have htake : Obeys (dealing t P) (takeOutcome t id) :=
    .bind (obeys_session t) fun _ => .bind (.modify fun _ => .take id) fun _ => .done _
  refine .bind (.bind hdeadline fun _ => .bind (.await fun _ => trivial) fun _ => htake)
    fun outcome => ?_
  cases outcome with
  | answered r => exact .done _
  | failed f => exact .done _
  | expired => exact .bind (.modify fun _ => .drop id) fun _ => .done _

theorem dealing_call {command : Command} (hcommand : P command) (limit : Option Duration) :
    Obeys (dealing t P) (call t command limit) := by
  intro w
  refine safe_isRunning ?_
  cases hrunning : w.isRunning t with
  | false => trivial
  | true => exact ⟨(), .issue hrunning hcommand, dealing_awaitReply t _ limit command.tag _⟩

/-! ## Serving -/

/-- What a round of the loop that writes does. -/
inductive Writes (s : Nat) (w : World) : World → Prop where
  | gentle {w' : World} (h : Gentle s w w') : Writes s w w'
  | pick : Writes s w (w.modifyDispatch s fun _ => (w.session s).dispatch.takeOutbox.2)
  | transmit (c : Nat) (payload : String) : Writes s w (w.transmit s c payload)
  | outage (o : Outage) : Writes s w (w.settlePending s o)

/-- What a round of either loop does. -/
inductive Serves (s : Nat) (w : World) : World → Prop where
  | writes {w' : World} (h : Writes s w w') : Serves s w w'
  | note {m : Message} {noted : Session} (h : (w.session s).notice w.host.cwd m = .ok noted) :
    Serves s w (w.modifySession s fun _ => noted)
  | report (m : Message) : Serves s w (w.report (.observed m))
  | reply (id : Option Int) (ok : Bool) (payload : List Value) :
    Serves s w (w.settleReply s id ok payload)

/-- What the loop that writes keeps to; it waits for no call. -/
def writing (s : Nat) : Discipline World Await Unit where
  Step w _ w' _ := Writes s w w'
  Pause on _ _ := ∀ t id, on ≠ .outcome t id
  Wake _ _ _ _ _ _ := True

/-- What both loops keep to. -/
def serving (s : Nat) : Discipline World Await Unit where
  Step w _ w' _ := Serves s w w'
  Pause on _ _ := ∀ t id, on ≠ .outcome t id
  Wake _ _ _ _ _ _ := True

theorem writing_of_gentle (h : Obeys (gentle s) p) : Obeys (writing s) p :=
  h.refine (fun _ _ hw => .gentle hw) (fun _ _ hon => hon) fun _ _ _ _ _ => trivial

theorem serving_of_writing (h : Obeys (writing s) p) : Obeys (serving s) p :=
  h.refine (fun _ _ hw => .writes hw) (fun _ _ hon => hon) fun _ _ _ _ _ => trivial

theorem writing_sendMessage (payload : String) : Obeys (writing s) (sendMessage s payload) := by
  refine .bind (obeys_session s) fun session => ?_
  split
  · exact .done _
  · refine .bind .get fun w => ?_
    split
    · refine .bind (.modify fun w => .transmit _ payload) fun _ => .bind .get fun w => ?_
      split
      · exact .done _
      · refine .bind (.modify fun w => .gentle (gentle_modifyChild w _ ?_)) fun _ => ?_
        · exact fun _ => ⟨rfl, rfl, rfl, rfl, Nat.le_refl _⟩
        · split <;> exact .done _
    · exact .done (.error (.unavailable .notRunning))

theorem writing_writeRound : Obeys (writing s) (writeRound s) := by
  have hnext : Obeys (writing s) (nextOutgoing s) := by
    refine .bind (obeys_session s) fun session => ?_
    split
    · exact .bind (.await fun _ _ _ => nofun) fun _ _ => ⟨(), .pick, trivial⟩
    · exact fun _ => ⟨(), .pick, trivial⟩
  refine .bind hnext fun next => ?_
  split
  · exact .done _
  · refine .bind (obeys_session s) fun session => ?_
    split
    · exact .done _
    · split
      · exact .done _
      · refine .bind (.attempt (writing_sendMessage _)) fun sent => ?_
        split
        · exact .done _
        · exact .bind (.modify fun _ => .outage _) fun _ => .done _
        · exact .done _

theorem serving_takeIn (m : Message) : Obeys (serving s) (takeIn s m) := by
  have hnote : Obeys (serving s) (takeNote s m) := by
    intro w
    refine safe_session (.get (.ofResult_bind (fun noted hnoted => ?_) fun _ _ => trivial))
    refine .modify_bind () (.note hnoted) ?_
    split
    · exact ⟨(), .report m, trivial⟩
    · trivial
  cases m with
  | reply id ok payload => exact .modify fun w => .reply id ok payload
  | banner version => exact hnote
  | output id ok payload => exact hnote
  | notice kind id payload => exact hnote

theorem serving_readRound : Obeys (serving s) (readRound s) := by
  have hgentle : ∀ {β : Type} {q : Action β}, Obeys (gentle s) q → Obeys (serving s) q := fun h =>
    serving_of_writing (writing_of_gentle h)
  have houtage : ∀ o, Obeys (serving s) (modify fun w => w.settlePending s o : Action Unit) :=
    fun o => .modify fun _ => .writes (.outage o)
  refine .bind (.attempt (hgentle (gentle_receiveMessage s none))) fun received => ?_
  split
  · exact .bind (serving_takeIn _) fun _ => .done _
  · exact .bind (houtage _) fun _ => .done _
  · split
    · exact .done _
    · exact .bind (houtage _) fun _ => .bind (hgentle (gentle_stop s)) fun _ => .done _

/-- What the rounds of the loops of all sessions keep to, every round keeps to. -/
theorem obeys_serve {D : Discipline World Await Unit}
    (h : ∀ s {p : Action Round}, Obeys (serving s) p → Obeys D p) (service : Service) :
    Obeys D (serve service) := by
  cases service with
  | reader s => exact h s serving_readRound
  | writer s => exact h s (serving_of_writing writing_writeRound)

end IdeMode.Client
