import IdeMode.Proofs.Calls.Tasks
set_option autoImplicit false

/-!
# One outcome for every call

Whatever is asked of the client and whatever happens to it, in any order: each call of a session has
a number of its own and is told at most one outcome. That outcome is the reply that came while the
call was pending, unless the time of the call ran out before whoever waits for it went on: then a
reply counts for nothing, even if it is there.
-/

namespace IdeMode

open Account Client World List

/-! ## Runs -/

/-- What can be asked of the client. -/
inductive Operation where
  | session (s : Nat) (request : SessionRequest)
  | process (s : Nat) (request : ProcessRequest)
  | tool (request : ToolRequest)

def Operation.action : Operation → Action Answer
  | .session s request => request.action s
  | .process s request => request.action s
  | .tool request => request.action

/-- One move of a run: a turn, the beginning of an operation, or something that happens from
outside. -/
inductive Move where
  | turn
  | launch (index : Nat) (operation : Operation)
  | change (c : Change)

namespace Machine

def move (m : Machine) : Move → Machine
  | .turn => m.turn.getD m
  | .launch index operation => m.launch index operation.action
  | .change c => m.undergo c

def follow (m : Machine) (moves : List Move) : Machine := moves.foldl move m

/-- Nothing has begun: the session is there and has made no call. -/
structure Fresh (s : Nat) (m : Machine) : Prop where
  present : s < m.world.sessions.length
  dispatch_eq : (m.world.session s).dispatch = {}
  ready_eq : m.world.ready = []
  tasks_eq : m.tasks = []

variable {s : Nat} {h : List Act} {m : Machine}

theorem tame_operation (operation : Operation) : Tame s true operation.action := by
  cases operation with
  | session t request => exact tame_sessionRequest t request
  | process t request => exact tame_processRequest t request
  | tool request => exact tame_toolRequest request

theorem Fresh.sound (hm : m.Fresh s) : Sound s [] m := by
  have hkept : Kept s [] m.world [] fun _ => False := by
    refine ⟨nofun, .nil, ?_, nofun, nofun, ?_, .nil, nofun⟩
    · rintro id ⟨⟨call, hmem, -⟩, -⟩
      exact absurd hmem not_mem_nil
    · intro task service hmem
      rw [hm.ready_eq] at hmem
      exact absurd hmem not_mem_nil
  have htamed : Tamed s [] := nofun
  refine ⟨⟨hm.present, .nil, ?_, hm.tasks_eq ▸ hkept⟩, hm.tasks_eq ▸ htamed⟩
  unfold World.account
  rw [hm.dispatch_eq, hm.ready_eq]
  rfl

theorem Sound.move (hm : Sound s h m) (move : Move) :
    ∃ acts, Sound s (h ++ .pass :: acts) (m.move move) := by
  have hpass : Sound s (h ++ [.pass]) m := ⟨hm.toBooked.pass, hm.tamed⟩
  have hmove : ∃ acts, Sound s ((h ++ [.pass]) ++ acts) (m.move move) := by
    cases move with
    | turn =>
      unfold Machine.move Machine.turn
      cases hready : m.world.ready with
      | nil => exact ⟨[], (append_nil (h ++ [.pass])).symm ▸ hpass⟩
      | cons e rest => exact hpass.serve hready List.getLast?_concat
    | launch index operation =>
      exact ⟨[], (append_nil (h ++ [.pass])).symm ▸ hpass.launch index (tame_operation operation)⟩
    | change c => exact hpass.undergo c
  obtain ⟨acts, hsound⟩ := hmove
  exact ⟨acts, append_cons h .pass acts ▸ hsound⟩

end Machine

/-- The history of a run from what was done in each of its moves. -/
def history (acts : List (List Act)) : List Act := acts.flatMap fun done => .pass :: done

theorem history_snoc (acts : List (List Act)) (done : List Act) :
    history (acts ++ [done]) = history acts ++ .pass :: done := by
  unfold history
  rw [flatMap_append, flatMap_cons, flatMap_nil, append_nil]

/-- What was done to the calls of a session in each move of a run. -/
structure Chronicle (s : Nat) (m : Machine) (moves : List Move)
    (acts : List (List Act)) : Prop where
  length_eq : acts.length = moves.length
  /-- after every move the dispatcher and the queue show just what was done so far -/
  account_eq : ∀ n ≤ moves.length,
    (m.follow (moves.take n)).world.account s = replay (history (acts.take n))
  oneOutcome : OneOutcome (history acts)
  /-- what a task finds that waits for a call: that its time ran out, or what settled the call -/
  found : ∀ n ≤ moves.length, ∀ t ∈ (m.follow (moves.take n)).tasks,
    ∀ id, t.await = some (.outcome s id) →
      ((m.follow (moves.take n)).world.session s).dispatch.outcomes.get? id =
        verdict (history (acts.take n)) id
  /-- when the queue is empty nothing is left to tell -/
  informed : ∀ n ≤ moves.length, (m.follow (moves.take n)).world.ready = [] →
    Informed (history (acts.take n))

theorem Machine.Sound.found {s : Nat} {h : List Act} {m : Machine} (hm : m.Sound s h) {t : Task}
    (ht : t ∈ m.tasks) {id : Nat} (hid : t.await = some (.outcome s id)) :
    (m.world.session s).dispatch.outcomes.get? id = verdict h id := by
  obtain ⟨-, hwaited, huntaken⟩ := hm.kept.waits t ht id hid
  have houtcomes : (m.world.session s).dispatch.outcomes = (replay h).calls.outcomes :=
    congrArg (fun a : Account => a.calls.outcomes) hm.account_eq
  rw [houtcomes, hm.lawful.outcomes huntaken (.inl hwaited)]

theorem Machine.Sound.informed {s : Nat} {h : List Act} {m : Machine} (hm : m.Sound s h)
    (hready : m.world.ready = []) : Informed h := by
  refine hm.lawful.informed ?_ fun id hid => ?_
  · rw [← hm.account_eq]
    unfold World.account
    rw [hready]
    rfl
  · obtain ⟨t, ht, hawait⟩ := (hm.kept.complete id hid).resolve_left nofun
    obtain hwaits | ⟨signal, hmem⟩ := hm.kept.informed t ht id hawait
    · rw [← hm.account_eq]
      exact hwaits.2
    · rw [hready] at hmem
      exact absurd hmem (not_or.2 ⟨not_mem_nil, not_mem_nil⟩)

/-- Every run has a chronicle. -/
theorem Machine.Fresh.chronicle {s : Nat} {m : Machine} (hm : m.Fresh s) (moves : List Move) :
    ∃ acts, Chronicle s m moves acts ∧ (m.follow moves).Sound s (history acts) := by
  induction moves using List.reverseRecOn with
  | nil =>
    have hsound : m.Sound s (history []) := hm.sound
    refine ⟨[], ⟨rfl, ?_, hsound.lawful.oneOutcome, ?_, ?_⟩, hsound⟩
    all_goals
      intro n hn
      obtain rfl := Nat.le_zero.1 hn
    · exact hsound.account_eq
    · exact fun t ht id hid => hsound.found ht hid
    · exact hsound.informed
  | append_singleton moves move ih =>
    obtain ⟨acts, hchronicle, hsound⟩ := ih
    obtain ⟨done, hmoved⟩ := hsound.move move
    rw [← history_snoc] at hmoved
    have hfollow : m.follow (moves ++ [move]) = (m.follow moves).move move := foldl_append ..
    rw [← hfollow] at hmoved
    have hlength : (acts ++ [done]).length = (moves ++ [move]).length := by
      rw [length_append, length_append, hchronicle.length_eq]
      rfl
    -- a prefix of the longer run is one of the shorter run, or all of it
    have hsplit : ∀ n ≤ (moves ++ [move]).length,
        (n ≤ moves.length ∧ (moves ++ [move]).take n = moves.take n ∧
          (acts ++ [done]).take n = acts.take n) ∨
        (moves ++ [move]).take n = moves ++ [move] ∧ (acts ++ [done]).take n = acts ++ [done] := by
      intro n hn
      by_cases hle : n ≤ moves.length
      · exact .inl ⟨hle, take_append_of_le_length hle,
          take_append_of_le_length (hchronicle.length_eq ▸ hle)⟩
      · rw [length_append, length_singleton] at hn
        have hn' : (moves ++ [move]).length ≤ n := by
          rw [length_append, length_singleton]
          omega
        exact .inr ⟨take_of_length_le hn', take_of_length_le (hlength ▸ hn')⟩
    refine ⟨acts ++ [done], ⟨hlength, ?_, hmoved.lawful.oneOutcome, ?_, ?_⟩, hmoved⟩
    all_goals
      intro n hn
      obtain ⟨hle, htake, hacts⟩ | ⟨htake, hacts⟩ := hsplit n hn
      all_goals rw [htake, hacts]
    · exact hchronicle.account_eq n hle
    · exact hmoved.account_eq
    · exact hchronicle.found n hle
    · exact fun t ht id hid => hmoved.found ht hid
    · exact hchronicle.informed n hle
    · exact hmoved.informed

/-! ## What the acts stand for -/

/-- What a call comes to for the one who waits for it. -/
def Outcome.result (limit : Option Duration) (tag : String) : Outcome → Result Response
  | .answered r => .ok r
  | .failed f => .error f
  | .expired => .error (timeoutFault limit tag)

/-- The operations on calls do to the account what their acts say, and tell whoever asks what they
find. -/
structure Enacts (s : Nat) (w : World) : Prop where
  /-- a call without a running process fails and gets no number -/
  callDown : ∀ command limit, w.isRunning s = false →
    (Client.call s command limit).run w = (.finished (.error (.unavailable .notRunning)), w)
  /-- any other is issued, waits, and comes to the outcome that it finds -/
  call : ∀ command limit, w.isRunning s = true →
      ∃ id deadline next w', id = (w.session s).dispatch.nextId ∧
    (Client.call s command limit).run w = (.waiting (.outcome s id) deadline next, w') ∧
    w'.account s = (w.account s).after (.issue ⟨id, command, .waiter⟩) ∧
    ∀ signal w, ((next signal).run w).1 =
      .finished ((((w.session s).dispatch.outcomes.get? id).getD .expired).result limit command.tag)
  /-- a call with a continuation returns without waiting -/
  post :
    ∀ command addressee, ∃ issued w', issued = ⟨(w.session s).dispatch.nextId, command, addressee⟩ ∧
    (Client.post s command addressee).run w = (.finished (.ok (issued, !w.isRunning s)), w') ∧
    w'.account s = (w.account s).after (if w.isRunning s then .issue issued else .refuse issued)
  reply :
    ∀ id ok payload, ∃ w', (takeIn s (.reply id ok payload)).run w = (.finished (.ok ()), w') ∧
    w'.account s = (w.account s).after (.reply id ok payload)
  /-- a reply to no pending call only counts as stray -/
  stray :
    ∀ id ok payload, (∀ call ∈ (w.session s).dispatch.pending, id ≠ some (Int.ofNat call.id)) →
    (takeIn s (.reply id ok payload)).run w = (.finished (.ok ()),
      w.modifyDispatch s fun d => { d with stats := { d.stats with stray := d.stats.stray + 1 } })
  /-- any other message leaves the calls alone -/
  note : ∀ m, (∀ id ok payload, m ≠ .reply id ok payload) →
      ∃ r w', (takeIn s m).run w = (.finished r, w') ∧ w'.account s = w.account s
  outage : ∀ o, (w.settlePending s o).account s = (w.account s).after (.outage o)
  discard : (w.discard s).account s = (w.account s).after .discard

section Enacting

variable {s : Nat} {w : World}

theorem run_call_of_not_running (hrunning : w.isRunning s = false) (command : Command)
    (limit : Option Duration) :
    (Client.call s command limit).run w = (.finished (.error (.unavailable .notRunning)), w) := by
  show Prog.run (if w.isRunning s = true then _ else _) w = _
  rw [hrunning]
  rfl

theorem run_call_of_running (hrunning : w.isRunning s = true) (command : Command)
    (limit : Option Duration) : ∃ deadline next, (Client.call s command limit).run w =
      (.waiting (.outcome s (w.issue s command .waiter).1.id) deadline next,
        (w.issue s command .waiter).2) ∧
    ∀ signal w', ((next signal).run w').1 = .finished ((((w'.session s).dispatch.outcomes.get?
      (w.issue s command .waiter).1.id).getD .expired).result limit command.tag) := by
  have hconclude : ∀ (id : Nat) (outcome : Outcome) (w : World),
      ((conclude s id limit command.tag outcome).run w).1 =
        .finished (outcome.result limit command.tag) := by
    intro id outcome w
    cases outcome <;> rfl
  show ∃ deadline next, Prog.run (if w.isRunning s = true then _ else _) w = _ ∧ _
  rw [hrunning]
  cases limit with
  | none => exact ⟨_, _, rfl, fun signal w' => hconclude _ _ _⟩
  | some d => exact ⟨_, _, rfl, fun signal w' => hconclude _ _ _⟩

theorem run_post (hs : s < w.sessions.length) (command : Command) (addressee : Addressee) :
    ∃ issued w', issued = ⟨(w.session s).dispatch.nextId, command, addressee⟩ ∧
      (Client.post s command addressee).run w = (.finished (.ok (issued, !w.isRunning s)), w') ∧
      w'.account s = (w.account s).after
        (if w.isRunning s then .issue issued else .refuse issued) := by
  show ∃ issued w', _ ∧ Prog.run (if w.isRunning s = true then _ else _) w = _ ∧ _
  cases w.isRunning s with
  | true =>
    obtain ⟨hissued, haccount, -⟩ := account_issue hs command addressee
    exact ⟨_, _, hissued, rfl, haccount⟩
  | false =>
    have hrefused :
      ((w.modifyDispatch s fun _ => ((w.session s).dispatch.refuse command addressee).2).deliverAll
        s [(⟨(w.session s).dispatch.nextId, command, addressee⟩,
          .failed (.unavailable .notRunning))]).account s =
          (w.account s).after (.refuse ⟨(w.session s).dispatch.nextId, command, addressee⟩) ∧ _ :=
      account_settles hs rfl rfl rfl rfl
    exact ⟨_, _, rfl, rfl, hrefused.1⟩

theorem modifyDispatch_const (w : World) (s : Nat) (f : Dispatch → Dispatch) :
    (w.modifyDispatch s fun _ => f (w.session s).dispatch) = w.modifyDispatch s f := by
  unfold modifyDispatch World.modifySession World.session
  refine congrArg (fun sessions => { w with sessions := sessions }) (ext_getElem? fun i => ?_)
  rw [List.getElem?_modify, List.getElem?_modify]
  by_cases hi : s = i
  · subst hi
    cases w.sessions[s]? <;> simp
  · simp [hi]

theorem run_takeIn_stray {id : Option Int} {ok : Bool} {payload : List Value}
    (hstray : ∀ call ∈ (w.session s).dispatch.pending, id ≠ some (Int.ofNat call.id)) :
    (takeIn s (.reply id ok payload)).run w = (.finished (.ok ()), w.modifyDispatch s fun d =>
        { d with stats := { d.stats with stray := d.stats.stray + 1 } }) := by
  have hfind : (w.session s).dispatch.find? id = none := by
    cases hfound : (w.session s).dispatch.find? id with
    | none => rfl
    | some call =>
      obtain ⟨hpending, hid⟩ := find?_eq_some hfound
      exact absurd hid (hstray call hpending)
  have hsettle : (w.session s).dispatch.settleReply id ok payload =
    (none, { (w.session s).dispatch with
      stats :=
        { (w.session s).dispatch.stats with
          stray := (w.session s).dispatch.stats.stray + 1 } }) := by
    unfold Dispatch.settleReply
    rw [hfind]
  show (Prog.Halt.finished (.ok ()), w.settleReply s id ok payload) = _
  rw [World.settleReply, hsettle]
  exact congrArg _ (modifyDispatch_const w s fun d => { d with
    stats := { d.stats with stray := d.stats.stray + 1 } })

theorem run_takeNote (m : Message) :
    ∃ r w', (takeNote s m).run w = (.finished r, w') ∧ w'.account s = w.account s := by
  show ∃ r w', Prog.run (Prog.ofResult ((w.session s).notice w.host.cwd m) >>= _) w = _ ∧ _
  cases hnoted : (w.session s).notice w.host.cwd m with
  | error e => exact ⟨_, _, rfl, rfl⟩
  | ok noted =>
    have hquiet : Quiet s w (w.modifySession s fun _ => noted) :=
      quiet_modifySession (ledger_notice hnoted)
    split
    · exact ⟨_, _, rfl, (quiet_report _ _).account_eq.trans hquiet.account_eq⟩
    · exact ⟨_, _, rfl, hquiet.account_eq⟩

theorem enacts (hs : s < w.sessions.length) : Enacts s w where
  callDown command limit hrunning := run_call_of_not_running hrunning command limit
  call command limit hrunning := by
    obtain ⟨deadline, next, hrun, hnext⟩ := run_call_of_running hrunning command limit
    obtain ⟨hissued, haccount, -⟩ := account_issue hs command .waiter
    refine ⟨_, deadline, next, _, congrArg Call.id hissued, hrun, ?_, hnext⟩
    rw [haccount, hissued]
  post command addressee := run_post hs command addressee
  reply id ok payload := ⟨_, rfl, (account_reply hs id ok payload).1⟩
  stray id ok payload hstray := run_takeIn_stray hstray
  note m hm := by
    cases m with
    | reply id ok payload => exact absurd rfl (hm id ok payload)
    | banner version => exact run_takeNote _
    | output id ok payload => exact run_takeNote _
    | notice kind id payload => exact run_takeNote _
  outage o := (account_settlePending hs o).1
  discard := (account_discard hs).1

end Enacting

/-- A machine with one session, which has no process. -/
def idleMachine : Machine := { world := { host := { cwd := ⟨[]⟩ }, sessions := [{}] } }

end IdeMode
