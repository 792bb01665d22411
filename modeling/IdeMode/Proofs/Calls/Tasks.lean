import Mathlib.Data.List.Pairwise
import IdeMode.Proofs.Calls.Programs
set_option autoImplicit false

/-!
# Tasks and the history of calls

Every move of a machine extends the history of a session's calls lawfully. What carries this is who
waits: each call that is awaited has exactly one task that waits for it, which is told to go on once
the outcome is known.
-/

namespace IdeMode

open Account Client Prog World List

/-! ## A program that runs -/

/-- A program has issued a call and not yet taken its outcome. -/
def Client.Phase.Owns (phase : Phase) (id : Nat) : Prop := phase = .asking id ∨ phase = .taking id

/-- How things stand while a program runs that found the world as `start`. The calls that `others`
wait for are none of its business. -/
structure Running (s : Nat) (others : Nat → Prop) (start : World) (h : List Act) (w : World)
    (phase : Phase) : Prop where
  lawful : Lawful h
  view_eq : phase.view s w = replay h
  informs : Informs s start w
  awaited : ∀ id, Awaited h id ↔ others id ∨ phase.Owns id
  foreign : ∀ id, phase.Owns id → ¬ others id
  unknown : ∀ id, phase = .asking id → (replay h).calls.outcomes.get? id = none

variable {s : Nat} {h : List Act}

theorem free_not_owns (id : Nat) : ¬ Phase.free.Owns id := by
  rintro (hphase | hphase) <;> cases hphase

theorem afterTake_not_owns (j : Nat) (outcome : Outcome) (id : Nat) :
    ¬ (Phase.afterTake j outcome).Owns id := by
  cases outcome <;> (rintro (hphase | hphase) <;> cases hphase)

/-- An act that leaves those who wait alone. -/
theorem Running.act {others : Nat → Prop} {start w w' : World}
    (hrun : Running s others start h w .free) (hinforms : Informs s w w') (act : Act)
    (hact : act.Possible h) (hw : w'.account s = (replay h).after act)
    (hissue : ∀ call, act = .issue call → call.addressee ≠ .waiter)
    (htake : ∀ j outcome, act ≠ .take j outcome) :
    Running s others start (h ++ [act]) w' .free where
  lawful := hrun.lawful.snoc hact
  view_eq := hw.trans (replay_snoc h act).symm
  informs := hrun.informs.trans hinforms
  awaited id := (awaited_snoc hissue htake).trans (hrun.awaited id)
  foreign := hrun.foreign
  unknown _ hphase := nomatch hphase

theorem Running.does {others : Nat → Prop} {start w w' : World} {phase phase' : Phase}
    {acts : List Act} (hrun : Running s others start h w phase)
    (hdoes : Does s w phase acts w' phase') : Running s others start (h ++ acts) w' phase' := by
  obtain ⟨hinforms, hpermits, hview⟩ := hdoes
  rw [hrun.view_eq] at hpermits hview
  have hwaiter : ∀ {call : Call}, call.hasContinuation = true → ∀ c, Act.issue call = .issue c →
      c.addressee ≠ .waiter := by
    intro call hcall c heq
    cases heq
    exact (hasContinuation_iff call).1 hcall
  cases hpermits with
  | nothing =>
    rw [append_nil]
    exact ⟨hrun.lawful, hview, hrun.informs.trans hinforms, hrun.awaited,
      hrun.foreign, hrun.unknown⟩
  | drop id =>
    rw [append_nil]
    refine ⟨hrun.lawful, hview, hrun.informs.trans hinforms, fun j => ?_, fun j hown => ?_, nofun⟩
    · rw [hrun.awaited j]
      refine or_congr Iff.rfl ⟨?_, fun hown => absurd hown (free_not_owns j)⟩
      rintro (hphase | hphase) <;> cases hphase
    · exact absurd hown (free_not_owns j)
  | @issue call hid hcall => exact hrun.act hinforms (.issue call) hid hview (hwaiter hcall) nofun
  | @refuse call hid hcall => exact hrun.act hinforms (.refuse call) ⟨hid, hcall⟩ hview nofun nofun
  | reply id ok payload => exact hrun.act hinforms (.reply id ok payload) trivial hview nofun nofun
  | outage o => exact hrun.act hinforms (.outage o) trivial hview nofun nofun
  | discard => exact hrun.act hinforms .discard trivial hview nofun nofun
  | @issueAwaited call hid hcall =>
    have hnone : (replay h).calls.outcomes.get? call.id = none :=
      hrun.lawful.outcomes_of_le (Nat.le_of_eq hid.symm)
    refine ⟨hrun.lawful.snoc hid, hview.trans (replay_snoc h _).symm, hrun.informs.trans hinforms,
      fun id => ?_, ?_, ?_⟩
    · rw [hrun.lawful.awaited_issue hid hcall, hrun.awaited id]
      constructor
      · rintro ((hother | hown) | rfl)
        · exact .inl hother
        · exact absurd hown (free_not_owns id)
        · exact .inr (.inl rfl)
      · rintro (hother | (hphase | hphase))
        · exact .inl (.inl hother)
        · exact .inr (Phase.asking.inj hphase).symm
        · cases hphase
    · rintro id (hphase | hphase) hother
      · obtain rfl := Phase.asking.inj hphase
        have hlt := hrun.lawful.waited_lt ((hrun.awaited call.id).2 (.inl hother)).1
        exact absurd hlt (hid ▸ Nat.lt_irrefl _)
      · cases hphase
    · rintro id hphase
      obtain rfl := Phase.asking.inj hphase
      have htake : ∀ outcome, Act.issue call ≠ .take call.id outcome := fun _ heq => nomatch heq
      rw [replay_snoc, outcomes_after htake, hnone]
      rfl
  | @take id outcome houtcome =>
    have hawaited : Awaited h id := (hrun.awaited id).2 (.inr (.inr rfl))
    refine ⟨hrun.lawful.snoc ⟨hawaited, houtcome⟩, hview.trans (replay_snoc h _).symm,
      hrun.informs.trans hinforms, fun j => ?_,
      fun j hown => absurd hown (afterTake_not_owns id outcome j), ?_⟩
    · rw [awaited_take, hrun.awaited j]
      constructor
      · rintro ⟨hother | (hphase | hphase), hne⟩
        · exact .inl hother
        · cases hphase
        · exact absurd (Phase.taking.inj hphase).symm hne
      · rintro (hother | hown)
        · refine ⟨.inl hother, ?_⟩
          rintro rfl
          exact hrun.foreign j (.inr rfl) hother
        · exact absurd hown (afterTake_not_owns id outcome j)
    · intro j hphase
      exact absurd (.inl hphase) (afterTake_not_owns id outcome j)

/-! ## The tasks that wait -/

/-- Operations may wait for calls, loops do not. -/
def Role.asks : Role → Bool
  | .job _ => true
  | .loop _ => false

/-- Where a task stands when it goes on. -/
def Task.phase (s : Nat) (t : Task) : Phase :=
  match t.await with
  | some (.outcome u id) => if u = s then .taking id else .free
  | _ => .free

theorem Task.Same.phase_eq {t u : Task} (h : t.Same u) : t.phase s = u.phase s := by
  unfold Task.phase
  rw [h.await_eq]

theorem Task.phase_of_outcome {t : Task} {id : Nat} (ht : t.await = some (.outcome s id)) :
    t.phase s = .taking id := by
  unfold Task.phase
  rw [ht]
  exact if_pos rfl

theorem Task.phase_of_ne {t : Task} (ht : ∀ id, t.await ≠ some (.outcome s id)) :
    t.phase s = .free := by
  unfold Task.phase
  split
  · next u id heq =>
    refine if_neg ?_
    rintro rfl
    exact ht id heq
  · rfl

theorem Task.owns_phase {t : Task} {id : Nat} :
    (t.phase s).Owns id ↔ t.await = some (.outcome s id) := by
  constructor
  · intro hown
    by_contra hne
    have hfree : ∀ j, t.await = some (.outcome s j) → j ≠ id := by
      rintro j hj rfl
      exact hne hj
    by_cases hawait : ∃ j, t.await = some (.outcome s j)
    · obtain ⟨j, hj⟩ := hawait
      rw [Task.phase_of_outcome hj] at hown
      obtain hphase | hphase := hown
      · cases hphase
      · exact hfree j hj (Phase.taking.inj hphase)
    · rw [Task.phase_of_ne (not_exists.1 hawait)] at hown
      exact free_not_owns id hown
  · intro hid
    rw [Task.phase_of_outcome hid]
    exact .inr rfl

theorem Task.view_phase (t : Task) (w : World) : (t.phase s).view s w = w.account s := by
  unfold Task.phase
  split
  · split <;> rfl
  · rfl

theorem Task.phase_ne_asking (t : Task) (id : Nat) : t.phase s ≠ .asking id := by
  unfold Task.phase
  split
  · split <;> nofun
  · nofun

/-- Some task waits for a call. -/
def Awaits (s : Nat) (tasks : List Task) (id : Nat) : Prop :=
  ∃ t ∈ tasks, t.await = some (.outcome s id)

/-- A task is queued to go on. -/
def World.Rouses (w : World) (task : Nat) : Prop :=
  ∃ signal, .resume task signal ∈ w.ready ∨ .relay task signal ∈ w.ready

theorem World.Grows.rouses {w w' : World} (hgrows : Grows w w') {task : Nat}
    (htask : w.Rouses task) : w'.Rouses task := by
  obtain ⟨signal, hmem⟩ := htask
  exact ⟨signal, hmem.imp hgrows.mem_ready hgrows.mem_ready⟩

/-- The tasks are in order. The calls that are awaited and that no task waits for are those of the
program that runs, its own. -/
structure Kept (s : Nat) (h : List Act) (w : World) (tasks : List Task)
    (own : Nat → Prop) : Prop where
  waits : ∀ t ∈ tasks, ∀ id, t.await = some (.outcome s id) → t.role.asks = true ∧ Awaited h id
  distinct :
    tasks.Pairwise fun t u => ∀ id, t.await = some (.outcome s id) → u.await ≠ some (.outcome s id)
  complete : ∀ id, Awaited h id → own id ∨ Awaits s tasks id
  /-- whoever waits for a call whose outcome is known is queued to go on -/
  informed : ∀ t ∈ tasks, ∀ id, t.await = some (.outcome s id) → w.Waits s id t.id ∨ w.Rouses t.id
  ids : ∀ t ∈ tasks, t.id < w.nextTask
  serves : ∀ task service, .serve task service ∈ w.ready → task < w.nextTask
  /-- an operation has its number for itself -/
  jobs : tasks.Pairwise fun t u => t.role.asks = true ∨ u.role.asks = true → t.id ≠ u.id
  apart : ∀ t ∈ tasks, t.role.asks = true → ∀ service, .serve t.id service ∉ w.ready

/-- The number of a task that runs is not that of another. -/
structure Fits (task : Nat) (role : Role) (w : World) (tasks : List Task) : Prop where
  lt : task < w.nextTask
  ne : ∀ t ∈ tasks, t.role.asks = true ∨ role.asks = true → t.id ≠ task
  apart : role.asks = true → ∀ service, .serve task service ∉ w.ready

theorem Fits.grows {task : Nat} {role : Role} {w w' : World} {tasks : List Task}
    (hfits : Fits task role w tasks) (hgrows : Grows w w') : Fits task role w' tasks := by
  refine ⟨Nat.lt_of_lt_of_le hfits.lt hgrows.nextTask_le, hfits.ne, fun hasks service hmem => ?_⟩
  obtain ⟨more, hready, hserve⟩ := hgrows.ready_eq
  rw [hready] at hmem
  obtain hmem | hmem := mem_append.1 hmem
  · exact hfits.apart hasks service hmem
  · exact absurd hfits.lt (Nat.not_lt.2 (hserve task service hmem).1)

namespace Kept

variable {w w' : World} {tasks : List Task} {own : Nat → Prop}

/-- The world goes on, and whoever waits for a call still does or is roused. -/
theorem grows (hkept : Kept s h w tasks own) (hgrows : Grows w w')
    (hinformed : ∀ t ∈ tasks, ∀ id, t.await = some (.outcome s id) → w.Waits s id t.id →
      w'.Waits s id t.id ∨ w'.Rouses t.id) : Kept s h w' tasks own := by
  obtain ⟨more, hready, hserve⟩ := hgrows.ready_eq
  refine { hkept with informed := ?_, ids := ?_, serves := ?_, apart := ?_ }
  · intro t ht id hid
    obtain hwaits | hroused := hkept.informed t ht id hid
    · exact hinformed t ht id hid hwaits
    · exact .inr (hgrows.rouses hroused)
  · exact fun t ht => Nat.lt_of_lt_of_le (hkept.ids t ht) hgrows.nextTask_le
  · intro task service hmem
    rw [hready] at hmem
    obtain hmem | hmem := mem_append.1 hmem
    · exact Nat.lt_of_lt_of_le (hkept.serves task service hmem) hgrows.nextTask_le
    · exact (hserve task service hmem).2
  · intro t ht hasks service hmem
    rw [hready] at hmem
    obtain hmem | hmem := mem_append.1 hmem
    · exact hkept.apart t ht hasks service hmem
    · exact absurd (hkept.ids t ht) (Nat.not_lt.2 (hserve t.id service hmem).1)

theorem informs (hkept : Kept s h w tasks own) (hinforms : Informs s w w') :
    Kept s h w' tasks own := by
  refine hkept.grows hinforms.toGrows fun t _ id _ hwaits => ?_
  obtain hwaits | hroused := hinforms.told id t.id hwaits
  · exact .inl hwaits
  · exact .inr ⟨.woken, .inl hroused⟩

theorem history {h' : List Act} (hkept : Kept s h w tasks own)
    (hawaited : ∀ id, Awaited h' id ↔ Awaited h id) : Kept s h' w tasks own :=
  { hkept with
    waits :=
      fun t ht id hid => ⟨(hkept.waits t ht id hid).1, (hawaited id).2 (hkept.waits t ht id hid).2⟩
    complete := fun id hid => hkept.complete id ((hawaited id).1 hid) }

theorem running (hkept : Kept s h w tasks own) {h' : List Act} {phase : Phase}
    (hrun : Running s (Awaits s tasks) w h' w' phase) : Kept s h' w' tasks phase.Owns := by
  have hworld := hkept.informs hrun.informs
  exact { hworld with
    waits :=
      fun t ht id hid => ⟨(hkept.waits t ht id hid).1, (hrun.awaited id).2 (.inl ⟨t, ht, hid⟩)⟩
    complete := fun id hid => ((hrun.awaited id).1 hid).symm }

/-- Entries leave the queue; none that rouses one who waits for a call. -/
theorem dequeue (hkept : Kept s h w tasks own) {ready : List Wake}
    (hserve : ∀ task service, .serve task service ∈ ready → .serve task service ∈ w.ready)
    (hrouses : ∀ t ∈ tasks, w.Rouses t.id → World.Rouses { w with ready := ready } t.id) :
    Kept s h { w with ready := ready } tasks own :=
  { hkept with
    informed := fun t ht id hid => (hkept.informed t ht id hid).imp_right (hrouses t ht)
    serves := fun task service hmem => hkept.serves task service (hserve task service hmem)
    apart :=
      fun t ht hasks service hmem => hkept.apart t ht hasks service (hserve t.id service hmem) }

/-- A task begins to wait. If the program that ran has issued a call, that is what it waits for. -/
theorem add (hkept : Kept s h w tasks own) {t : Task} (hfits : Fits t.id t.role w tasks)
    (hown : ∀ id, own id → t.await = some (.outcome s id))
    (hwaits : ∀ id, t.await = some (.outcome s id) → t.role.asks = true ∧ Awaited h id ∧
      ¬ Awaits s tasks id ∧ (w.Waits s id t.id ∨ w.Rouses t.id)) :
    Kept s h w (tasks ++ [t]) fun _ => False := by
  have hmem : ∀ {P : Task → Prop}, (∀ u ∈ tasks, P u) → P t → ∀ u ∈ tasks ++ [t], P u := by
    intro P hold hnew u hu
    obtain hu | hu := mem_append.1 hu
    · exact hold u hu
    · exact mem_singleton.1 hu ▸ hnew
  refine ⟨hmem hkept.waits fun id hid => ⟨(hwaits id hid).1, (hwaits id hid).2.1⟩, ?_, ?_,
    hmem hkept.informed fun id hid => (hwaits id hid).2.2.2, hmem hkept.ids hfits.lt,
    hkept.serves, ?_, hmem hkept.apart hfits.apart⟩
  · refine pairwise_append.2 ⟨hkept.distinct, pairwise_singleton ..,
      fun u hu v hv id hid hid' => ?_⟩
    obtain rfl := mem_singleton.1 hv
    exact (hwaits id hid').2.2.1 ⟨u, hu, hid⟩
  · intro id hid
    obtain hid | ⟨u, hu, hid⟩ := hkept.complete id hid
    · exact .inr ⟨t, mem_concat_self, hown id hid⟩
    · exact .inr ⟨u, mem_append_left _ hu, hid⟩
  · refine pairwise_append.2 ⟨hkept.jobs, pairwise_singleton .., fun u hu v hv hasks => ?_⟩
    obtain rfl := mem_singleton.1 hv
    exact hfits.ne u hu hasks

/-- Two tasks with the same number, one of which is an operation, are the same. -/
theorem eq_of_id (hkept : Kept s h w tasks own) {t u : Task} (ht : t ∈ tasks) (hu : u ∈ tasks)
    (hasks : t.role.asks = true) (hid : t.id = u.id) : t = u := by
  by_contra hne
  have hsymm : Std.Symm fun t u : Task => t.role.asks = true ∨ u.role.asks = true → t.id ≠ u.id :=
    ⟨fun _ _ hne hor => (hne hor.symm).symm⟩
  exact hkept.jobs.forall ht hu hne (.inl hasks) hid

theorem eq_of_await (hkept : Kept s h w tasks own) {t u : Task} (ht : t ∈ tasks)
    (hu : u ∈ tasks) {id : Nat} (hid : t.await = some (.outcome s id))
    (hid' : u.await = some (.outcome s id)) : t = u := by
  by_contra hne
  have hsymm : Std.Symm fun t u : Task =>
    ∀ id, t.await = some (.outcome s id) → u.await ≠ some (.outcome s id) :=
    ⟨fun _ _ hne id hid hid' => hne id hid' hid⟩
  exact hkept.distinct.forall ht hu hne id hid hid'

/-- Tasks are taken away; the calls that they waited for are left to the program that runs. -/
theorem filter (hkept : Kept s h w tasks own) (p : Task → Bool) {own' : Nat → Prop}
    (hown : ∀ id, own id → own' id)
    (hgone : ∀ t ∈ tasks, p t = false → ∀ id, t.await = some (.outcome s id) → own' id) :
    Kept s h w (tasks.filter p) own' := by
  have hmem : ∀ {P : Task → Prop}, (∀ u ∈ tasks, P u) → ∀ u ∈ tasks.filter p, P u :=
    fun hold u hu => hold u (mem_filter.1 hu).1
  refine ⟨hmem hkept.waits, hkept.distinct.filter _, fun id hid => ?_, hmem hkept.informed,
    hmem hkept.ids, hkept.serves, hkept.jobs.filter _, hmem hkept.apart⟩
  obtain hid | ⟨t, ht, hid⟩ := hkept.complete id hid
  · exact .inl (hown id hid)
  · cases hp : p t with
    | true => exact .inr ⟨t, mem_filter.2 ⟨ht, hp⟩, hid⟩
    | false => exact .inl (hgone t ht hp id hid)

/-- Deadlines do not matter. -/
theorem map (hkept : Kept s h w tasks own) {f : Task → Task} (hf : ∀ t, (f t).Same t) :
    Kept s h w (tasks.map f) own := by
  refine ⟨?_, ?_, ?_, ?_, ?_, hkept.serves, ?_, ?_⟩
  · refine forall_mem_map.2 fun t ht => ?_
    rw [(hf t).role_eq, (hf t).await_eq]
    exact hkept.waits t ht
  · refine pairwise_map.2 (hkept.distinct.imp fun {t u} htu => ?_)
    rw [(hf t).await_eq, (hf u).await_eq]
    exact htu
  · intro id hid
    obtain hid | ⟨t, ht, hid⟩ := hkept.complete id hid
    · exact .inl hid
    · exact .inr ⟨f t, mem_map_of_mem ht, (hf t).await_eq.trans hid⟩
  · refine forall_mem_map.2 fun t ht => ?_
    rw [(hf t).id_eq, (hf t).await_eq]
    exact hkept.informed t ht
  · refine forall_mem_map.2 fun t ht => ?_
    rw [(hf t).id_eq]
    exact hkept.ids t ht
  · refine pairwise_map.2 (hkept.jobs.imp fun {t u} htu => ?_)
    rw [(hf t).id_eq, (hf t).role_eq, (hf u).id_eq, (hf u).role_eq]
    exact htu
  · refine forall_mem_map.2 fun t ht => ?_
    rw [(hf t).id_eq, (hf t).role_eq]
    exact hkept.apart t ht

end Kept

/-! ## The machine -/

/-- A machine agrees with a history of the calls of a session. -/
structure Machine.Booked (s : Nat) (h : List Act) (m : Machine) : Prop where
  present : s < m.world.sessions.length
  lawful : Lawful h
  account_eq : m.world.account s = replay h
  kept : Kept s h m.world m.tasks fun _ => False

/-- Whenever a task goes on it keeps to the rules. -/
def Tamed (s : Nat) (tasks : List Task) : Prop :=
  ∀ t ∈ tasks, ∀ signal w, s < w.sessions.length → Safe (conduct s t.role.asks) (t.next signal)
    (fun _ w' phase => s < w'.sessions.length ∧ phase = .free) w (t.phase s)

/-- A machine is in order with a history of the calls of a session. -/
structure Machine.Sound (s : Nat) (h : List Act) (m : Machine) :
    Prop extends Machine.Booked s h m where
  tamed : Tamed s m.tasks

/-- A program of a task is about to run. -/
structure Machine.Starts (s : Nat) (h : List Act) (m : Machine) (task : Nat) (role : Role)
    (phase : Phase) : Prop where
  present : s < m.world.sessions.length
  lawful : Lawful h
  view_eq : phase.view s m.world = replay h
  not_asking : ∀ id, phase ≠ .asking id
  kept : Kept s h m.world m.tasks phase.Owns
  owned : ∀ id, phase.Owns id → Awaited h id ∧ ¬ Awaits s m.tasks id
  fits : Fits task role m.world m.tasks

/-- Entries have left the queue, and nothing else happened but to processes. -/
structure World.Hears (w w' : World) : Prop where
  sessions_eq : w'.sessions = w.sessions
  sent_eq : w'.host.sent = w.host.sent
  mem_ready : ∀ e ∈ w'.ready, e ∈ w.ready
  lasts : w.host.Lasts w'.host

/-- What a task that ends tells whoever asked for its operation. -/
def Ending.told : Result Ending → Result Answer
  | .ok (.answer a) => .ok a
  | .ok (.round _) => .ok .nothing
  | .error f => .error f

namespace Machine

variable {m : Machine}

/-- The end of an operation changes nothing but the list of those that have ended. -/
theorem finish_job (m : Machine) (task index : Nat) (r : Result Ending) :
    finish m task (.job index) r =
      { m with finished := m.finished ++ [(index, Ending.told r)] } := by
  rcases r with f | ending
  · rfl
  · cases ending <;> rfl

/-- A loop goes on with its next round in front of everything else, or it is over. -/
theorem finish_loop (m : Machine) (task : Nat) (service : Service) (r : Result Ending) :
    (r = .ok (.round .again) ∧ finish m task (.loop service) r =
        { m with world := { m.world with ready := .serve task service :: m.world.ready } }) ∨
      (r ≠ .ok (.round .again) ∧
        finish m task (.loop service) r = { m with world := retire m.world service }) := by
  rcases r with f | (a | next)
  · exact .inr ⟨by simp, rfl⟩
  · exact .inr ⟨by simp, rfl⟩
  · cases next with
    | again => exact .inl ⟨rfl, rfl⟩
    | _ => exact .inr ⟨by simp, rfl⟩

theorem quiet_retire (w : World) (service : Service) : Quiet s w (retire w service) := by
  unfold retire
  cases service <;> exact quiet_modifyDispatch fun _ => rfl

variable {task : Nat} {rest : List Wake} {w : World} {role : Role} {t : Task}
  {phase : Phase} {on : Await} {p : Action Ending} {signal : Signal} {e : Wake}

theorem quiet_enroll (hon : ∀ id, on ≠ .outcome s id) (w : World) (task : Nat) :
    Quiet s w (enroll w task on) := by
  unfold enroll
  cases on with
  | outcome u id =>
    refine quiet_modifySession_of_ne ?_ _
    rintro rfl
    exact hon id rfl
  | output c count => exact quiet_modifyChild w c _
  | exit c => exact quiet_modifyChild w c _
  | outbox u => exact quiet_modifyDispatch fun _ => rfl

theorem quiet_giveUp (hon : ∀ id, on ≠ .outcome s id) (w : World) (task : Nat) :
    Quiet s w (giveUp w task on) := by
  unfold giveUp
  cases on with
  | outcome u id =>
    refine quiet_modifySession_of_ne ?_ _
    rintro rfl
    exact hon id rfl
  | output c count => exact quiet_modifyChild w c _
  | exit c => exact quiet_modifyChild w c _
  | outbox u => exact quiet_modifyDispatch fun _ => rfl

theorem account_giveUp (hs : s < w.sessions.length) (task id : Nat) :
    (giveUp w task (.outcome s id)).account s = (w.account s).after (.expire id) :=
      account_modifySession hs

theorem account_enroll (hs : s < w.sessions.length) (task id : Nat) :
    (enroll w task (.outcome s id)).account s = w.account s := account_modifySession hs

theorem waits_giveUp (hs : s < w.sessions.length) (task : Nat) {id id' task' : Nat} (hne : id' ≠ id)
    (hwaits : w.Waits s id' task') : (giveUp w task (.outcome s id)).Waits s id' task' := by
  unfold Waits giveUp modifyDispatch
  rw [session_modifySession_self hs]
  simpa [hne.symm, Waits] using hwaits

theorem waits_enroll (hs : s < w.sessions.length) (task : Nat) {id id' task' : Nat} (hne : id' ≠ id)
    (hwaits : w.Waits s id' task') : (enroll w task (.outcome s id)).Waits s id' task' := by
  unfold Waits enroll modifyDispatch
  rw [session_modifySession_self hs]
  simpa [hne.symm, Waits] using hwaits

theorem waits_enroll_self (hs : s < w.sessions.length) {id : Nat}
    (hnone : (w.account s).calls.outcomes.get? id = none) :
    (enroll w task (.outcome s id)).Waits s id task := by
  unfold Waits enroll modifyDispatch
  rw [session_modifySession_self hs]
  exact ⟨by simp, hnone⟩

/-- Something quiet happens. -/
theorem Booked.quiet (hm : m.Booked s h) (hquiet : Quiet s m.world w) :
    Booked s h { m with world := w } :=
  ⟨Nat.lt_of_lt_of_le hm.present hquiet.length_le, hm.lawful, hquiet.account_eq.trans hm.account_eq,
    hm.kept.informs hquiet.informs⟩

theorem Booked.finish (hm : Booked s h m) (hfits : Fits task role m.world m.tasks)
    (r : Result Ending) : Booked s h (finish m task role r) := by
  cases role with
  | job index =>
    rw [finish_job]
    exact ⟨hm.present, hm.lawful, hm.account_eq, hm.kept⟩
  | loop service =>
    rcases finish_loop m task service r with ⟨-, heq⟩ | ⟨-, heq⟩
    · rw [heq]
      refine ⟨hm.present, hm.lawful, hm.account_eq, ?_⟩
      have hkept := hm.kept
      refine { hkept with informed := ?_, serves := ?_, apart := ?_ }
      · intro t ht id hid
        refine (hkept.informed t ht id hid).imp_right ?_
        rintro ⟨signal, hmem⟩
        exact ⟨signal, hmem.imp (mem_cons_of_mem _) (mem_cons_of_mem _)⟩
      · intro task' service' hmem
        obtain heq | hmem := mem_cons.1 hmem
        · cases heq
          exact hfits.lt
        · exact hkept.serves task' service' hmem
      · intro t ht hasks service' hmem
        obtain heq | hmem := mem_cons.1 hmem
        · exact hfits.ne t ht (.inl hasks) (Wake.serve.inj heq).1
        · exact hkept.apart t ht hasks service' hmem
    · rw [heq]
      exact hm.quiet (quiet_retire _ service)

/-- A program of a task stops to wait. If its deadline has passed, so has the time of its call. -/
theorem Running.suspend {start : World} (hrun : Running s (Awaits s m.tasks) start h m.world phase)
    (hs : s < m.world.sessions.length) (hkept : Kept s h m.world m.tasks phase.Owns)
    (hfits : Fits task role m.world m.tasks) (hon : phase.MayWait s role.asks on)
    (deadline : Option Int) (next : Signal → Action Ending) :
    ∃ acts, (∀ act ∈ acts, ∃ id, act = .expire id) ∧
      Booked s (h ++ acts) (suspend m ⟨task, role, none, deadline, next⟩ on) := by
  unfold Machine.suspend
  dsimp only
  generalize deadline.any (· ≤ m.world.host.clock) = late
  generalize ht : (⟨task, role, some on, if late then none else deadline, next⟩ : Task) = t
  have hid : t.id = task := ht ▸ rfl
  have hrole : t.role = role := ht ▸ rfl
  have hawait : t.await = some on := ht ▸ rfl
  cases phase with
  | free =>
    have hne : ∀ id, t.await ≠ some (.outcome s id) := by
      intro id heq
      rw [hawait] at heq
      exact hon id (Option.some.inj heq)
    have hquiet : Quiet s m.world
      (if late then (giveUp m.world task on).enqueue (.relay task .expired)
        else enroll m.world task on) := by
      split
      · exact (quiet_giveUp hon m.world task).trans (quiet_enqueue nofun rfl)
      · exact quiet_enroll hon m.world task
    refine ⟨[], nofun, ?_⟩
    rw [append_nil]
    refine ⟨Nat.lt_of_lt_of_le hs hquiet.length_le, hrun.lawful,
      hquiet.account_eq.trans hrun.view_eq, ?_⟩
    refine (hkept.informs hquiet.informs).add ?_ ?_ ?_
    · rw [hid, hrole]
      exact hfits.grows hquiet.toGrows
    · exact fun id hown => absurd hown (free_not_owns id)
    · exact fun id heq => absurd heq (hne id)
  | asking id =>
    obtain ⟨hasks, rfl⟩ := hon
    have hawaited : Awaited h id := (hrun.awaited id).2 (.inr (.inl rfl))
    have hforeign : ¬ Awaits s m.tasks id := hrun.foreign id (.inl rfl)
    have hother : ∀ t ∈ m.tasks, ∀ id', t.await = some (.outcome s id') → id' ≠ id := by
      rintro u hu id' hid' rfl
      exact hforeign ⟨u, hu, hid'⟩
    have hown : ∀ id', (Phase.asking id).Owns id' → t.await = some (.outcome s id') := by
      rintro id' (hphase | hphase)
      · rw [hawait, Phase.asking.inj hphase]
      · cases hphase
    have hid' : ∀ id', t.await = some (.outcome s id') → id' = id := by
      intro id' heq
      rw [hawait] at heq
      cases heq
      rfl
    cases late with
    | true =>
      have hgrows : Grows m.world
          ((giveUp m.world task (.outcome s id)).enqueue (.relay task .expired)) :=
        (grows_modifySession m.world s _).trans (grows_enqueue nofun)
      have hrouses : World.Rouses
          ((giveUp m.world task (.outcome s id)).enqueue (.relay task .expired)) task :=
        ⟨.expired, .inr mem_concat_self⟩
      have hexpire : ∀ id', Awaited (h ++ [.expire id]) id' ↔ Awaited h id' :=
        fun _ => awaited_snoc nofun nofun
      refine ⟨[.expire id], fun act hact => ⟨id, mem_singleton.1 hact⟩,
        Nat.lt_of_lt_of_le hs hgrows.length_le, hrun.lawful.snoc hawaited, ?_, ?_⟩
      · rw [replay_snoc, ← hrun.view_eq]
        refine (quiet_enqueue (e := .relay task .expired) nofun rfl).account_eq.trans ?_
        exact account_giveUp hs task id
      · refine Kept.add (Kept.grows (hkept.history hexpire) hgrows ?_) ?_ hown ?_
        · exact fun u hu id' hid' hwaits =>
            .inl (waits_giveUp hs task (hother u hu id' hid') hwaits)
        · rw [hid, hrole]
          exact hfits.grows hgrows
        · intro id' heq
          obtain rfl := hid' id' heq
          exact ⟨hrole ▸ hasks, (hexpire id').2 hawaited, hforeign, .inr (hid ▸ hrouses)⟩
    | false =>
      have hgrows : Grows m.world (enroll m.world task (.outcome s id)) :=
        grows_modifySession m.world s _
      refine ⟨[], nofun, ?_⟩
      rw [append_nil]
      refine ⟨Nat.lt_of_lt_of_le hs hgrows.length_le, hrun.lawful,
        (account_enroll hs task id).trans hrun.view_eq, ?_⟩
      refine Kept.add (Kept.grows hkept hgrows ?_) ?_ hown ?_
      · exact fun u hu id' hid' hwaits => .inl (waits_enroll hs task (hother u hu id' hid') hwaits)
      · rw [hid, hrole]
        exact hfits.grows hgrows
      · intro id' heq
        obtain rfl := hid' id' heq
        refine ⟨hrole ▸ hasks, hawaited, hforeign, .inl ?_⟩
        rw [hid]
        refine waits_enroll_self hs ?_
        rw [show m.world.account s = replay h from hrun.view_eq]
        exact hrun.unknown id' rfl
  | taking id => exact hon.elim
  | dropping id => exact hon.elim

theorem Starts.running (hstart : Starts s h m task role phase) :
    Running s (Awaits s m.tasks) m.world h m.world phase := by
  refine ⟨hstart.lawful, hstart.view_eq, .refl _,
    fun id => ⟨fun hid => (hstart.kept.complete id hid).symm, ?_⟩,
    fun id hid => (hstart.owned id hid).2, fun id hid => absurd hid (hstart.not_asking id)⟩
  rintro (⟨t, ht, hid⟩ | hid)
  · exact (hstart.kept.waits t ht id hid).2
  · exact (hstart.owned id hid).1

/-- Where a program may stand when it stops. -/
def MayStop (s : Nat) (asks : Bool) (phase : Phase) : Prog.Halt World Await Ending → Prop
  | .finished _ => phase = .free
  | .waiting on _ _ => phase.MayWait s asks on

/-- A program of a task has run up to its next wait or its end. -/
theorem Starts.advance {phase' : Phase} (hstart : Starts s h m task role phase) {h' : List Act}
    (hrun : Running s (Awaits s m.tasks) m.world h' (p.run m.world).2 phase')
    (hstop : MayStop s role.asks phase' (p.run m.world).1) :
    ∃ acts, (∀ act ∈ acts, ∃ id, act = .expire id) ∧
      (∀ r, (p.run m.world).1 = .finished r → acts = []) ∧
      Booked s (h' ++ acts) (advance m task role p) := by
  have hpresent : s < (p.run m.world).2.sessions.length :=
    Nat.lt_of_lt_of_le hstart.present hrun.informs.length_le
  have hkept := hstart.kept.running hrun
  have hfits := hstart.fits.grows hrun.informs.toGrows
  unfold Machine.advance
  split
  · next r w' heq =>
    rw [heq] at hstop hrun hpresent hkept hfits
    obtain rfl : phase' = .free := hstop
    have hbooked : Booked s h' { m with world := w' } := by
      refine ⟨hpresent, hrun.lawful, hrun.view_eq, { hkept with complete := fun id hid => ?_ }⟩
      exact .inr ((hkept.complete id hid).resolve_left (free_not_owns id))
    exact ⟨[], nofun, fun _ _ => rfl, (append_nil h').symm ▸ hbooked.finish hfits r⟩
  · next on deadline next w' heq =>
    rw [heq] at hstop hrun hpresent hkept hfits
    obtain ⟨acts, hexpire, hbooked⟩ :=
      Running.suspend (m := { m with world := w' }) hrun hpresent hkept hfits hstop deadline next
    refine ⟨acts, hexpire, fun r hr => ?_, hbooked⟩
    rw [heq] at hr
    cases hr

/-- The task that a program leaves behind, if it stops to wait. -/
theorem mem_tasks_advance (ht : t ∈ (advance m task role p).tasks) :
    t ∈ m.tasks ∨ ∃ on deadline deadline' next, (p.run m.world).1 = .waiting on deadline next ∧
        t = ⟨task, role, some on, deadline', next⟩ := by
  unfold Machine.advance at ht
  split at ht
  · refine .inl ?_
    unfold Machine.finish at ht
    split at ht <;> exact ht
  · next on deadline next w' heq =>
    obtain ht | ht := mem_append.1 ht
    · exact .inl ht
    · exact .inr ⟨on, deadline, _, next, congrArg Prod.fst heq, mem_singleton.1 ht⟩

theorem phase_of_mayWait (ht : t.await = some on) {asks : Bool} (hon : phase.MayWait s asks on) :
    t.phase s = phase.woken := by
  cases phase with
  | free =>
    refine Task.phase_of_ne fun id heq => ?_
    rw [ht] at heq
    exact hon id (Option.some.inj heq)
  | asking id =>
    obtain ⟨-, rfl⟩ := hon
    exact Task.phase_of_outcome ht
  | taking id => exact hon.elim
  | dropping id => exact hon.elim

theorem tamed_advance (htamed : Tamed s m.tasks)
    (hsafe : Safe (conduct s role.asks) p (fun _ w' phase => s < w'.sessions.length ∧ phase = .free)
      m.world phase) : Tamed s (advance m task role p).tasks := by
  obtain ⟨phase', -, hhalt⟩ := hsafe.run (fun _ _ _ _ _ _ => trivial) trivial
  intro t ht
  obtain ht | ⟨on, deadline, deadline', next, heq, rfl⟩ := mem_tasks_advance ht
  · exact htamed t ht
  · rw [heq] at hhalt
    intro signal w hw
    rw [phase_of_mayWait rfl hhalt.1]
    exact hhalt.2 signal w _ ⟨hw, rfl⟩

theorem Starts.sound (hstart : Starts s h m task role phase) (htamed : Tamed s m.tasks)
    (hsafe : Safe (conduct s role.asks) p (fun _ w' phase => s < w'.sessions.length ∧ phase = .free)
      m.world phase) : ∃ acts, Sound s (h ++ acts) (Machine.advance m task role p) := by
  have hstep : ∀ w phase w' phase',
    (∃ acts, Running s (Awaits s m.tasks) m.world (h ++ acts) w phase) →
      (conduct s role.asks).Step w phase w' phase' →
        ∃ acts, Running s (Awaits s m.tasks) m.world (h ++ acts) w' phase' := by
    rintro w phase w' phase' ⟨acts, hrun⟩ ⟨more, hdoes⟩
    exact ⟨acts ++ more, append_assoc h acts more ▸ hrun.does hdoes⟩
  obtain ⟨phase', ⟨acts, hrun⟩, hhalt⟩ := hsafe.run hstep ⟨[], (append_nil h).symm ▸ hstart.running⟩
  have hstop : MayStop s role.asks phase' (p.run m.world).1 := by
    generalize (p.run m.world).1 = halt at hhalt
    cases halt with
    | finished r => exact hhalt.2
    | waiting on deadline next => exact hhalt.1
  obtain ⟨more, -, -, hbooked⟩ := hstart.advance hrun hstop
  exact ⟨acts ++ more, append_assoc h acts more ▸ hbooked, tamed_advance htamed hsafe⟩

theorem quiet_acknowledge (w : World) (t : Task) : Quiet s w (acknowledge w t) := by
  unfold acknowledge
  split
  · exact quiet_modifyChild w _ _
  · exact .refl w

/-- A task whose entry has been taken from the queue leaves the others in order. -/
theorem Booked.release (hm : Booked s h m) (hready : m.world.ready = .resume task signal :: rest)
    (own : Nat → Prop) (hown :
      ∀ t ∈ m.tasks, t.id = task → ∀ id, t.await = some (.outcome s id) → own id) :
    World.account { m.world with ready := rest } s = replay h ∧
      Kept s h { m.world with ready := rest } (m.tasks.filter fun t => t.id ≠ task) own := by
  refine ⟨?_, ?_⟩
  · rw [← hm.account_eq]
    unfold World.account
    rw [hready]
    rfl
  · refine (hm.kept.filter _ (fun _ hfalse => hfalse.elim) ?_).dequeue ?_ ?_
    · intro t ht hp id hid
      exact hown t ht (by simpa using hp) id hid
    · intro k service hmem
      rw [hready]
      exact mem_cons_of_mem _ hmem
    · rintro t ht ⟨signal', hmem⟩
      have hne : t.id ≠ task := of_decide_eq_true (mem_filter.1 ht).2
      rw [hready] at hmem
      refine ⟨signal', hmem.imp (fun hmem => ?_) fun hmem => ?_⟩
      · exact (mem_cons.1 hmem).resolve_left fun heq => hne (Wake.resume.inj heq).1
      · exact (mem_cons.1 hmem).resolve_left nofun

theorem running_of_leave (child : Host.Child) (h : (child.leave task).isRunning = true) :
    child.isRunning = true := by
  unfold Host.Child.leave at h
  split at h <;> exact h

theorem hears_acknowledge (w : World) (t : Task) (rest : List Wake)
    (hrest : ∀ e ∈ rest, e ∈ w.ready) : Hears w (acknowledge { w with ready := rest } t) := by
  unfold acknowledge
  split
  · exact ⟨rfl, rfl, hrest, (stirs_modifyChild _ _ running_of_leave).lasts⟩
  · exact ⟨rfl, rfl, hrest, .refl _⟩

/-- A suspended task goes on, unless it is no longer wanted or was told too early. -/
theorem Booked.resume (hm : Booked s h m) (hready : m.world.ready = .resume task signal :: rest) :
    (∃ m', resume (m.withQueue rest) task signal = m' ∧ Booked s h m' ∧
      Hears m.world m'.world ∧ m'.tasks ⊆ m.tasks ∧ m'.finished = m.finished) ∨
    ∃ t ∈ m.tasks, ∃ w, t.id = task ∧ Hears m.world w ∧
      Starts s h { m with world := w, tasks := m.tasks.filter fun t => t.id ≠ task } task
        t.role (t.phase s) ∧ resume (m.withQueue rest) task signal =
        advance { m with world := w, tasks := m.tasks.filter fun t => t.id ≠ task } task t.role
          (t.next signal) := by
  have hrest : ∀ e ∈ rest, e ∈ m.world.ready := fun e he => hready ▸ mem_cons_of_mem _ he
  cases hfind : m.tasks.find? fun t => t.id = task with
  | none =>
    have hid : ∀ t ∈ m.tasks, t.id ≠ task :=
      fun t ht heq => List.find?_eq_none.1 hfind t ht (decide_eq_true heq)
    obtain ⟨haccount, hkept⟩ :=
      hm.release hready (fun _ => False) fun t ht heq => absurd heq (hid t ht)
    rw [filter_eq_self.2 fun t ht => decide_eq_true (hid t ht)] at hkept
    refine .inl ⟨_, resume_of_none signal hfind, ?_⟩
    exact ⟨⟨hm.present, hm.lawful, haccount, hkept⟩, ⟨rfl, rfl, hrest, .refl _⟩,
      fun _ ht => ht, rfl⟩
  | some t =>
    obtain ⟨ht, hid⟩ := find?_spec hfind
    obtain ⟨haccount, hkept⟩ := hm.release hready (t.phase s).Owns fun u hu heq id hid' => by
      obtain rfl := hm.kept.eq_of_id hu ht (hm.kept.waits u hu id hid').1 (heq.trans hid.symm)
      exact Task.owns_phase.2 hid'
    have hquiet := quiet_acknowledge (s := s) { m.world with ready := rest } t
    have hhears := hears_acknowledge m.world t rest hrest
    replace hkept := hkept.informs hquiet.informs
    replace haccount := hquiet.account_eq.trans haccount
    have hpresent : s < (acknowledge { m.world with ready := rest } t).sessions.length :=
      Nat.lt_of_lt_of_le hm.present hquiet.length_le
    have hfits : Fits task t.role (acknowledge { m.world with ready := rest } t)
        (m.tasks.filter fun t => t.id ≠ task) := by
      refine Fits.grows ⟨hid ▸ hm.kept.ids t ht,
        fun u hu _ => of_decide_eq_true (mem_filter.1 hu).2, ?_⟩ hquiet.toGrows
      intro hasks service hmem
      refine hm.kept.apart t ht hasks service ?_
      rw [hready, hid]
      exact mem_cons_of_mem _ hmem
    have hcases := resume_of_some (m := m.withQueue rest) signal hfind
    generalize acknowledge { m.world with ready := rest } t = w
      at hkept haccount hpresent hfits hhears hcases
    have hstart : Starts s h { m with world := w, tasks := m.tasks.filter fun t => t.id ≠ task }
      task t.role (t.phase s) := by
      refine ⟨hpresent, hm.lawful, (Task.view_phase t _).trans haccount, Task.phase_ne_asking t,
        hkept, ?_, hfits⟩
      intro id hown
      have hawait := Task.owns_phase.1 hown
      refine ⟨(hm.kept.waits t ht id hawait).2, ?_⟩
      rintro ⟨u, hu, hid'⟩
      obtain rfl := hm.kept.eq_of_await (mem_filter.1 hu).1 ht hid' hawait
      exact of_decide_eq_true (mem_filter.1 hu).2 hid
    rcases hcases with ⟨hdismissed, hresume⟩ | ⟨-, ⟨c, count, hawait, -, hresume⟩ | ⟨-, hresume⟩⟩
    · have hloop : t.role.asks = false := by
        cases hrole : t.role with
        | job index => rw [hrole] at hdismissed; cases hdismissed
        | loop service => rfl
      refine .inl ⟨_, hresume, ⟨hpresent, hm.lawful, haccount,
        { hkept with complete := ?_ }⟩, hhears, filter_subset_self _, rfl⟩
      intro id hawaited
      refine .inr ((hkept.complete id hawaited).resolve_left fun hown => ?_)
      have hasks := (hm.kept.waits t ht id (Task.owns_phase.1 hown)).1
      exact Bool.noConfusion (hasks.symm.trans hloop)
    · have henroll : Quiet s w (enroll w task (.output c count)) :=
        quiet_enroll (fun _ h => by cases h) w task
      refine .inl ⟨_, hresume, ⟨Nat.lt_of_lt_of_le hpresent henroll.length_le, hm.lawful,
        henroll.account_eq.trans haccount, ?_⟩, ⟨hhears.sessions_eq, hhears.sent_eq,
          hhears.mem_ready,
        hhears.lasts.trans (stirs_modifyChild w c (f := fun child => child.listen task)
          fun _ h => h).lasts⟩, ?_, rfl⟩
      · refine (hkept.informs henroll.informs).add ?_ (fun id => Task.owns_phase.1) ?_
        · rw [hid]
          exact hfits.grows henroll.toGrows
        · intro id heq
          cases hawait.symm.trans heq
      · intro u hu
        obtain hu | hu := mem_append.1 hu
        · exact (mem_filter.1 hu).1
        · exact mem_singleton.1 hu ▸ ht
    · exact .inr ⟨t, ht, w, hid, hhears, hstart, hresume⟩

/-- The entry at the front of the queue is one that rouses nobody. -/
theorem Booked.dequeue (hm : Booked s h m) (hready : m.world.ready = e :: rest)
    (he : ∀ task signal, e ≠ .resume task signal ∧ e ≠ .relay task signal) :
    Kept s h { m.world with ready := rest } m.tasks fun _ => False := by
  refine hm.kept.dequeue ?_ ?_
  · intro k service hmem
    rw [hready]
    exact mem_cons_of_mem _ hmem
  · rintro t - ⟨signal, hmem⟩
    rw [hready] at hmem
    refine ⟨signal, hmem.imp (fun hmem => ?_) fun hmem => ?_⟩
    · exact (mem_cons.1 hmem).resolve_left fun heq => (he t.id signal).1 heq.symm
    · exact (mem_cons.1 hmem).resolve_left fun heq => (he t.id signal).2 heq.symm

theorem account_dequeue (hready : w.ready = e :: rest) (he : e.continuation? s = none) :
    World.account { w with ready := rest } s = w.account s := by
  unfold World.account
  rw [hready, filterMap_cons_none he]
  rfl

/-- A loop begins a round. -/
theorem Booked.starts {service : Service} (hm : Booked s h m)
    (hready : m.world.ready = .serve task service :: rest) :
    Starts s h (m.withQueue rest) task (.loop service) .free := by
  have hkept := hm.dequeue hready fun _ _ => ⟨nofun, nofun⟩
  have hmem : .serve task service ∈ m.world.ready := hready ▸ mem_cons_self
  refine ⟨hm.present, hm.lawful, (account_dequeue (s := s) hready rfl).trans hm.account_eq,
    nofun, ?_, ?_, ?_⟩
  · exact { hkept with complete := fun id hid => .inr ((hkept.complete id hid).resolve_left nofun) }
  · exact fun id hown => absurd hown (free_not_owns id)
  · refine ⟨hm.kept.serves task service hmem, fun t ht hasks heq => ?_, nofun⟩
    exact hm.kept.apart t ht (hasks.resolve_right nofun) service (heq ▸ hmem)

theorem Booked.relay (hm : Booked s h m) (hready : m.world.ready = .relay task signal :: rest) :
    Booked s h
      { m with world := World.enqueue { m.world with ready := rest } (.resume task signal) } := by
  have haccount := (account_dequeue (s := s) hready rfl).trans hm.account_eq
  have hquiet : Quiet s { m.world with ready := rest }
      (World.enqueue { m.world with ready := rest } (.resume task signal)) :=
      quiet_enqueue nofun rfl
  refine ⟨hm.present, hm.lawful, hquiet.account_eq.trans haccount, hm.kept.dequeue ?_ ?_⟩
  · intro k service hmem
    rw [hready]
    refine mem_cons_of_mem _ ((mem_append.1 hmem).resolve_right fun hmem => ?_)
    cases mem_singleton.1 hmem
  · rintro t - ⟨signal', hmem | hmem⟩
    · rw [hready] at hmem
      exact ⟨signal', .inl (mem_append_left _ ((mem_cons.1 hmem).resolve_left nofun))⟩
    · rw [hready] at hmem
      obtain heq | hmem := mem_cons.1 hmem
      · obtain ⟨rfl, rfl⟩ := Wake.relay.inj heq
        exact ⟨signal', .inl mem_concat_self⟩
      · exact ⟨signal', .inr (mem_append_left _ hmem)⟩

/-- A continuation of the session runs. -/
theorem Booked.settle {call : Call} {outcome : Outcome} (hm : Booked s h m)
    (hready : m.world.ready = .settle s call outcome :: rest) (hpass : h.getLast? = some .pass) :
    Booked s (h ++ [.resume call outcome])
      { m with world := World.settle { m.world with ready := rest } s call.addressee outcome } := by
  have hkept := hm.dequeue hready fun _ _ => ⟨nofun, nofun⟩
  have hquiet := quiet_settle (s := s) { m.world with ready := rest } s call.addressee outcome
  have hdue : (replay h).due = (call, outcome) :: rest.filterMap (Wake.continuation? s) := by
    rw [← hm.account_eq]
    show m.world.ready.filterMap (Wake.continuation? s) = _
    rw [hready]
    exact filterMap_cons_some (if_pos rfl)
  have haccount : World.account { m.world with ready := rest } s =
      (replay h).after (.resume call outcome) := by
    show _ = Account.mk (replay h).calls (replay h).due.tail
    rw [hdue, ← hm.account_eq]
    rfl
  refine ⟨Nat.lt_of_lt_of_le hm.present hquiet.length_le,
    hm.lawful.snoc ⟨hpass, hdue ▸ rfl⟩, ?_, ?_⟩
  · rw [replay_snoc]
    exact hquiet.account_eq.trans haccount
  · exact (hkept.informs hquiet.informs).history fun _ => awaited_snoc nofun nofun

/-- An entry is served that has no part in the calls. -/
theorem Booked.dismiss (hm : Booked s h m) (hready : m.world.ready = e :: rest)
    (he : ∀ task signal, e ≠ .resume task signal ∧ e ≠ .relay task signal)
    (hcontinuation : e.continuation? s = none) (hquiet : Quiet s { m.world with ready := rest } w) :
    Booked s h { m with world := w } :=
  ⟨Nat.lt_of_lt_of_le hm.present hquiet.length_le, hm.lawful,
    hquiet.account_eq.trans ((account_dequeue hready hcontinuation).trans hm.account_eq),
    (hm.dequeue hready he).informs hquiet.informs⟩

theorem Sound.resume (hm : Sound s h m) (hready : m.world.ready = .resume task signal :: rest) :
    ∃ acts, Sound s (h ++ acts) (resume (m.withQueue rest) task signal) := by
  obtain ⟨m', heq, hbooked, -, hsub, -⟩ | ⟨t, ht, w, -, -, hstart, heq⟩ := hm.toBooked.resume hready
  · rw [heq]
    exact ⟨[], (append_nil h).symm ▸ hbooked, fun t ht => hm.tamed t (hsub ht)⟩
  · rw [heq]
    exact hstart.sound (fun u hu => hm.tamed u (mem_filter.1 hu).1)
      (hm.tamed t ht signal w hstart.present)

/-- One turn. -/
theorem Sound.serve (hm : Sound s h m) (hready : m.world.ready = e :: rest)
    (hpass : h.getLast? = some .pass) :
    ∃ acts, Sound s (h ++ acts) (serve (m.withQueue rest) e) := by
  have hstill : ∀ {w : World}, Booked s h { m with world := w } →
      ∃ acts, Sound s (h ++ acts) { m with world := w } :=
    fun hbooked => ⟨[], (append_nil h).symm ▸ hbooked, hm.tamed⟩
  cases e with
  | serve task service =>
    unfold Machine.serve
    dsimp only
    split
    · exact hstill (hm.dismiss hready (fun _ _ => ⟨nofun, nofun⟩) rfl (.refl _))
    · exact (hm.starts hready).sound hm.tamed (Tame.map _ (tame_serve service) _ hm.present)
  | resume task signal => exact hm.resume hready
  | relay task signal => exact hstill (hm.relay hready)
  | settle u call outcome =>
    by_cases hus : u = s
    · subst hus
      exact ⟨_, hm.settle hready hpass, hm.tamed⟩
    · exact hstill (hm.dismiss hready (fun _ _ => ⟨nofun, nofun⟩) (if_neg hus)
        (quiet_settle _ u _ outcome))
  | skip label =>
    exact hstill (hm.dismiss hready (fun _ _ => ⟨nofun, nofun⟩) rfl (quiet_report _ _))

theorem quiet_number (w : World) : Quiet s w { w with nextTask := w.nextTask + 1 } :=
  quiet_of_parts rfl (Nat.le_succ _) rfl

/-- An operation begins. -/
theorem Booked.launch (hm : Booked s h m) (index : Nat) (p : Action Answer) :
    Booked s h (launch m index p) := by
  have hquiet : Quiet s m.world
      (World.wake { m.world with nextTask := m.world.nextTask + 1 } m.world.nextTask) :=
    (quiet_number m.world).trans (stirs_wake _ _).quiet
  refine ⟨Nat.lt_of_lt_of_le hm.present hquiet.length_le, hm.lawful,
    hquiet.account_eq.trans hm.account_eq, ?_⟩
  refine (hm.kept.informs hquiet.informs).add ?_ (fun id hfalse => hfalse.elim) nofun
  refine ⟨Nat.lt_succ_self _, fun t ht _ => Nat.ne_of_lt (hm.kept.ids t ht),
    fun _ service hmem => ?_⟩
  obtain hmem | hmem := mem_append.1 hmem
  · exact absurd (hm.kept.serves _ service hmem) (Nat.lt_irrefl _)
  · cases mem_singleton.1 hmem

theorem Sound.launch (hm : Sound s h m) (index : Nat) {p : Action Answer} (hp : Tame s true p) :
    Sound s h (launch m index p) := by
  refine ⟨hm.toBooked.launch index p, fun t ht => ?_⟩
  obtain ht | ht := mem_append.1 ht
  · exact hm.tamed t ht
  · obtain rfl := mem_singleton.1 ht
    exact fun signal w hw => Tame.map _ hp w hw

/-! ## Changes from outside -/

/-- Giving up a wait that is for no call's outcome leaves the calls alone. -/
theorem quiet_giveUp_wait (hcall : ¬ ∃ id, t.await = some (.outcome s id)) (w : World) :
    Quiet s w ((match t.await with
      | some on => giveUp w t.id on
      | none => w).enqueue (.resume t.id .expired)) := by
  refine Quiet.trans ?_ (quiet_enqueue nofun rfl)
  split
  · next on heq =>
    refine quiet_giveUp (fun id hon => hcall ⟨id, ?_⟩) w t.id
    rw [heq, hon]
  · exact .refl _

/-- The time of a task runs out. -/
theorem Booked.expire (hm : Booked s h m) (ht : ∃ u ∈ m.tasks, u.id = t.id ∧ u.await = t.await) :
    ∃ acts, (∀ act ∈ acts, ∃ id, act = .expire id) ∧ Booked s (h ++ acts) (expire m t) := by
  obtain ⟨u, hu, hid, hawait⟩ := ht
  by_cases hcall : ∃ id, t.await = some (.outcome s id)
  · obtain ⟨id, hcall⟩ := hcall
    have hawaited := (hm.kept.waits u hu id (hawait.trans hcall)).2
    have hgrows : Grows m.world
        ((giveUp m.world t.id (.outcome s id)).enqueue (.resume t.id .expired)) :=
      (grows_modifySession m.world s _).trans (grows_enqueue nofun)
    have hrouses : World.Rouses
        ((giveUp m.world t.id (.outcome s id)).enqueue (.resume t.id .expired)) t.id :=
      ⟨.expired, .inl mem_concat_self⟩
    unfold Machine.expire
    rw [hcall]
    refine ⟨[.expire id], fun act hact => ⟨id, mem_singleton.1 hact⟩,
      Nat.lt_of_lt_of_le hm.present hgrows.length_le, hm.lawful.snoc hawaited, ?_,
      Kept.map ?_ (same_expire t.id)⟩
    · rw [replay_snoc, ← hm.account_eq]
      refine (quiet_enqueue (e := .resume t.id .expired) nofun rfl).account_eq.trans ?_
      exact account_giveUp hm.present t.id id
    · have hexpire : ∀ j, Awaited (h ++ [.expire id]) j ↔ Awaited h j :=
        fun _ => awaited_snoc nofun nofun
      refine (hm.kept.history hexpire).grows hgrows fun v hv id' hid' hwaits => ?_
      by_cases hne : id' = id
      · subst hne
        obtain rfl := hm.kept.eq_of_await hv hu hid' (hawait.trans hcall)
        exact .inr (hid ▸ hrouses)
      · exact .inl (waits_giveUp hm.present t.id hne hwaits)
  · have hquiet := quiet_giveUp_wait hcall m.world
    exact ⟨[], forall_mem_nil _,
      (append_nil h).symm ▸ ⟨Nat.lt_of_lt_of_le hm.present hquiet.length_le, hm.lawful,
      hquiet.account_eq.trans hm.account_eq, (hm.kept.informs hquiet.informs).map
        (same_expire t.id)⟩⟩

/-- Tasks that have run out of time are otherwise as they were. -/
theorem mem_tasks_expire {u : Task} (hu : u ∈ (expire m t).tasks) : ∃ v ∈ m.tasks, u.Same v := by
  obtain ⟨v, hv, rfl⟩ := mem_map.1 hu
  exact ⟨v, hv, same_expire t.id v⟩

theorem Sound.expire (hm : Sound s h m) (ht : ∃ u ∈ m.tasks, u.id = t.id ∧ u.await = t.await) :
    ∃ acts, Sound s (h ++ acts) (expire m t) := by
  obtain ⟨acts, -, hbooked⟩ := hm.toBooked.expire ht
  refine ⟨acts, hbooked, fun u hu => ?_⟩
  obtain ⟨v, hv, hsame⟩ := mem_tasks_expire hu
  rw [hsame.role_eq, hsame.next_eq, hsame.phase_eq]
  exact hm.tamed v hv

/-- Something happens from outside. -/
theorem Sound.undergo (hm : Sound s h m) (change : Change) :
    ∃ acts, Sound s (h ++ acts) (m.undergo change) := by
  obtain ⟨time, rfl⟩ | ⟨w, hw, host, -, hstirs, -⟩ := befalls_of_undergo m change
  · have hclock :=
      hm.quiet (quiet_host m.world { m.world.host with clock := m.world.host.clock + time })
    refine elapse_induction (P := fun m => ∃ acts, Sound s (h ++ acts) m) time ?_ ?_
    · exact ⟨[], (append_nil h).symm ▸ ⟨hclock, hm.tamed⟩⟩
    · rintro m t ⟨acts, hm⟩ ht
      obtain ⟨more, hexpired⟩ := hm.expire ht
      exact ⟨acts ++ more, append_assoc h acts more ▸ hexpired⟩
  · refine ⟨[], ?_⟩
    rw [hw, append_nil]
    exact ⟨hm.quiet ((quiet_host m.world host).trans hstirs.quiet), hm.tamed⟩

theorem Booked.pass (hm : Booked s h m) : Booked s (h ++ [.pass]) m :=
  ⟨hm.present, hm.lawful.snoc trivial, hm.account_eq.trans (replay_snoc h .pass).symm,
    hm.kept.history fun _ => awaited_snoc nofun nofun⟩

end Machine

end IdeMode
