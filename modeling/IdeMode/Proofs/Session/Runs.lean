import IdeMode.Proofs.Calls.Outcomes
import IdeMode.Proofs.Session.Programs
set_option autoImplicit false

/-!
# Every run keeps the log

In a run of a machine of which only one session is asked anything, every move adds to the log of
that session. If the operations are asked for one at a time, the log says so.
-/

namespace IdeMode

open Account Client Prog World List

/-! ## Operations that begin and end -/

namespace Note

/-- The operation that begins, with its number. -/
def launch? : Note → Option (Nat × SessionRequest)
  | .launch index request => some (index, request)
  | _ => none

/-- The operation that ends, with what it comes to. -/
def done? : Note → Option (Nat × Result Answer)
  | .done index _ r => some (index, r)
  | _ => none

end Note

/-! ## Worlds -/

/-- A world shows what the log of a session says. -/
structure Noted (s : Nat) (ℓ : List Note) (w : World) : Prop where
  memory_eq : (w.session s).memory = recount ℓ
  sent_eq : w.host.sent = ℓ.filterMap Note.sent?
  valid : Valid ℓ
  serves : ∀ task service, .serve task service ∈ w.ready → service = .reader s ∨ service = .writer s
  spawns : Replaces [] ℓ w.host

variable {s : Nat} {solo : Prop} {ℓ notes : List Note} {w w' : World} {m : Machine} {t : Task}

theorem Noted.tells (h : Noted s ℓ w) (htells : Tells s ℓ w notes w') :
    Noted s (ℓ ++ notes) w' where
  memory_eq := by rw [htells.memory_eq, h.memory_eq, recount_append]
  sent_eq := by rw [htells.sent_eq, h.sent_eq, filterMap_append]
  valid := htells.valid
  serves task service hmem := (htells.serves task service hmem).elim (h.serves task service) id
  spawns := h.spawns.append htells.spawns htells.lasts

theorem Noted.alike (h : Noted s ℓ w) (halike : Alike s w w') : Noted s ℓ w' :=
  append_nil ℓ ▸ h.tells (halike.tells h.valid)

theorem World.Hears.alike (h : Hears w w') : Alike s w w' := by
  refine ⟨?_, h.sent_eq, fun task service hmem => .inl (h.mem_ready _ hmem), h.lasts⟩
  unfold World.session
  rw [h.sessions_eq]

variable {late : List Act}

/-- Calls run out of time. -/
theorem Tells.expires (hlate : ∀ a ∈ late, ∃ id, a = .expire id) (h : Tells s ℓ w notes w')
    (hunbound : Unbound (ℓ ++ notes)) :
    Tells s ℓ w (notes ++ late.map .act) w' ∧ Unbound (ℓ ++ (notes ++ late.map .act)) := by
  induction late generalizing notes with
  | nil =>
    rw [map_nil, append_nil]
    exact ⟨h, hunbound⟩
  | cons a late ih =>
    obtain ⟨id, rfl⟩ := hlate a mem_cons_self
    have hsnoc : Tells s ℓ w (notes ++ [.act (.expire id)]) w' :=
      h.snoc (hunbound _) ⟨nofun, nofun⟩ (fun _ => rfl) trivial
    rw [map_cons, append_cons]
    refine ih (fun a ha => hlate a (mem_cons_of_mem _ ha)) hsnoc ?_
    rw [← append_assoc]
    exact unbound_snoc trivial

/-- A move begins. -/
theorem Tells.pass (h : (Note.act .pass).Follows ℓ) (hvalid : Valid ℓ) (w : World) :
    Tells s ℓ w [.act .pass] w := by
  refine ((Alike.refl w).tells hvalid).snoc ?_ ⟨nofun, nofun⟩ (fun _ => rfl) trivial
  rw [append_nil]
  exact h

theorem acts_map (late : List Act) : acts (late.map .act) = late := by
  unfold acts
  rw [filterMap_map]
  exact filterMap_some

/-- What is said of the calls, the session and the queue ties the log to the world. -/
theorem Noted.tied {phase : Phase} (h : Noted s ℓ w) (hpresent : s < w.sessions.length)
    (hview : phase.view s w = replay (acts ℓ)) : Tied s ℓ w phase where
  present := hpresent
  view_eq := hview
  memory_eq := h.memory_eq
  valid := h.valid
  started c hc := by
    obtain ⟨before, after, heq⟩ := append_of_mem hc
    exact (h.spawns before c after heq).1

/-! ## Machines -/

/-- What a task is for: the operation of a request that was asked for, or a loop of the session. -/
def Role.Serves (s : Nat) (ℓ : List Note) : Role → Option SessionRequest → Prop
  | .job index, some request => .launch index request ∈ ℓ
  | .loop service, none => service = .reader s ∨ service = .writer s
  | _, _ => False

variable {origin : Option SessionRequest} {moves : List Move}

theorem Role.Serves.asks {role : Role} (h : role.Serves s ℓ origin) :
    origin.isSome = role.asks := by
  cases role with
  | job index =>
    cases origin with
    | none => exact h.elim
    | some request => rfl
  | loop service =>
    cases origin with
    | none => rfl
    | some request => exact h.elim

variable {ℓ' : List Note} {tasks : List Task} {e : Wake}

theorem Role.Serves.later {role : Role} (h : role.Serves s ℓ origin) (hgrown : ℓ <+: ℓ') :
    role.Serves s ℓ' origin := by
  cases role with
  | job index =>
    cases origin with
    | none => exact h.elim
    | some request => exact hgrown.subset h
  | loop service =>
    cases origin with
    | none => exact h
    | some request => exact h.elim

/-- How the program of a task may end. -/
def Concludes : Option SessionRequest → Result Ending → World → List Note × Phase → Prop
  | none => Rests
  | some request => fun r => Closes request (Ending.told r)

/-- A task keeps the log of the session whenever it goes on. -/
structure Task.Logs (s : Nat) (origin : Option SessionRequest) (ℓ : List Note)
    (t : Task) : Prop where
  role : t.role.Serves s ℓ origin
  safe : ∀ signal w ℓ', ℓ <+: ℓ' → Tied s ℓ' w (t.phase s) → Begun ℓ' →
    Safe (keeping s origin) (t.next signal) (Concludes origin) w (ℓ', t.phase s)

theorem Task.Logs.later (h : t.Logs s origin ℓ) (hgrown : ℓ <+: ℓ') : t.Logs s origin ℓ' :=
  ⟨h.role.later hgrown, fun signal w ℓ'' hlater => h.safe signal w ℓ'' (hgrown.trans hlater)⟩

theorem Task.Logs.same {u : Task} (h : u.Logs s origin ℓ) (hsame : t.Same u) :
    t.Logs s origin ℓ := by
  refine ⟨hsame.role_eq ▸ h.role, ?_⟩
  rw [hsame.phase_eq, hsame.next_eq]
  exact h.safe

/-- At most one operation is under way. -/
structure Alone (ℓ : List Note) (tasks : List Task) : Prop where
  serial : Serial ℓ
  single : ∀ t ∈ tasks, ∀ u ∈ tasks, t.role.asks = true → u.role.asks = true → t.id = u.id
  unloading : ∀ t ∈ tasks, t.role.asks = true → ¬ OpenLoad ℓ

/-- A machine agrees with the log of a session. -/
structure Machine.Logged (s : Nat) (solo : Prop) (ℓ : List Note) (m : Machine) : Prop where
  booked : m.Booked s (acts ℓ)
  noted : Noted s ℓ m.world
  rests : (Note.act .pass).Follows ℓ
  tasks : ∀ t ∈ m.tasks, ∃ origin, t.Logs s origin ℓ
  alone : solo → Alone ℓ m.tasks

theorem Alone.later (h : Alone ℓ tasks) (hdeeds : ∀ x ∈ notes, ¬ x.IsDeed)
    (hvalid : Valid (ℓ ++ notes)) : Alone (ℓ ++ notes) tasks where
  serial := serial_append h.serial hdeeds
  single := h.single
  unloading t ht hasks hopen := h.unloading t ht hasks (openLoad_append hvalid hdeeds hopen)

/-- Only the tasks of operations matter. -/
theorem Alone.subset {tasks' : List Task} (h : Alone ℓ tasks)
    (hsub : ∀ t ∈ tasks', t.role.asks = true → ∃ u ∈ tasks, t.Same u) : Alone ℓ tasks' := by
  refine ⟨h.serial, fun t ht u hu hasks hasks' => ?_, fun t ht hasks => ?_⟩
  · obtain ⟨t', ht', hsame⟩ := hsub t ht hasks
    obtain ⟨u', hu', hsame'⟩ := hsub u hu hasks'
    rw [hsame.id_eq, hsame'.id_eq]
    exact h.single t' ht' u' hu' (hsame.role_eq ▸ hasks) (hsame'.role_eq ▸ hasks')
  · obtain ⟨t', ht', hsame⟩ := hsub t ht hasks
    exact h.unloading t' ht' (hsame.role_eq ▸ hasks)

/-! ## Running a program -/

/-- How things stand while a program runs that found the log as `ℓ`. -/
structure Keeping (s : Nat) (solo : Prop) (origin : Option SessionRequest) (others : Nat → Prop)
    (start : World) (ℓ : List Note) (w : World) (g : List Note × Phase) : Prop where
  running : Running s others start (acts g.1) w g.2
  grown : ∃ notes, g.1 = ℓ ++ notes ∧ Tells s ℓ start notes w ∧ (∀ x ∈ notes, ¬ x.IsFrame) ∧
    (origin = none → ∀ x ∈ notes, ¬ x.IsDeed)
  alone : solo → origin ≠ none → Serial g.1 ∧ (OpenLoad g.1 → Posted g.1)

theorem Keeping.step {others : Nat → Prop} {start : World} {g g' : List Note × Phase}
    (hsolo : solo → origin ≠ none → ∀ id, ¬ others id)
    (h : Keeping s solo origin others start ℓ w g)
    (hstep : (keeping s origin).Step w g w' g') : Keeping s solo origin others start ℓ w' g' := by
  obtain ⟨notes, hlog, hworks⟩ := hstep
  obtain ⟨ℓ', phase'⟩ := g'
  obtain rfl : ℓ' = g.1 ++ notes := hlog
  obtain ⟨earlier, hearlier, htells, hframes, hdeeds⟩ := h.grown
  refine ⟨?_, ⟨earlier ++ notes, ?_, htells.trans (hearlier ▸ hworks.toTells), ?_, ?_⟩,
    fun hs horigin => ?_⟩
  · rw [acts_append]
    exact h.running.does hworks.does
  · rw [hearlier, append_assoc]
  · exact fun x hx => (mem_append.1 hx).elim (hframes x) fun hx => (hworks.doer x hx).not_isFrame
  · intro horigin x hx
    obtain hx | hx := mem_append.1 hx
    · exact hdeeds horigin x hx
    · exact fun hdeed => ((hworks.doer x hx).deed hdeed).2 horigin
  · obtain ⟨hserial, hopen⟩ := h.alone hs horigin
    -- right after such a load was asked for nothing can be noted in this move
    have hposted : Posted g.1 → notes = [] := by
      intro hposted
      cases notes with
      | nil => rfl
      | cons x rest =>
        obtain ⟨hfollows, -⟩ := hworks.valid g.1 x rest rfl
        obtain ⟨index, request, r, rfl⟩ := hfollows.posted hposted
        exact (hworks.doer _ mem_cons_self).elim
    by_cases hdeed : ∃ x ∈ notes, x.IsDeed
    · obtain ⟨x, hx, hdeed⟩ := hdeed
      obtain rfl := hworks.single x hx hdeed
      have hunposted : ¬ Posted g.1 := fun hp => absurd (hposted hp) (cons_ne_nil x [])
      obtain ⟨-, -, hfits⟩ := throughout_snoc.1 hworks.valid
      refine ⟨throughout_snoc.2
        ⟨hserial, fun _ => ⟨fun id hid => ?_, fun hp => hunposted (hopen hp)⟩⟩, ?_⟩
      · obtain hother | hown := (h.running.awaited id).1 hid
        · exact hsolo hs horigin id hother
        · rw [((hworks.doer x hx).deed hdeed).1] at hown
          exact free_not_owns id hown
      · exact fun hp => (openLoad_snoc hfits hp).resolve_left fun hp => hunposted (hopen hp)
    · have hquiet : ∀ x ∈ notes, ¬ x.IsDeed := fun x hx hd => hdeed ⟨x, hx, hd⟩
      refine ⟨serial_append hserial hquiet, fun hp => ?_⟩
      have hp := hopen (openLoad_append hworks.valid hquiet hp)
      rw [hposted hp, append_nil]
      exact hp

namespace Machine

theorem alike_retire (w : World) (service : Service) : Alike s w (retire w service) := by
  unfold retire
  cases service <;> exact alike_modifyDispatch rfl

theorem alike_enroll (w : World) (task : Nat) (on : Await) : Alike s w (enroll w task on) := by
  unfold enroll
  cases on with
  | outcome u id => exact alike_modifyDispatch rfl
  | output c count =>
    exact .of_stirs (stirs_modifyChild w c (f := fun child => child.listen task) fun _ h => h)
  | exit c => exact .of_stirs (stirs_modifyChild w c fun _ h => h)
  | outbox u => exact alike_modifyDispatch rfl

theorem alike_giveUp (w : World) (task : Nat) (on : Await) : Alike s w (giveUp w task on) := by
  unfold giveUp
  cases on with
  | outcome u id => exact alike_modifyDispatch rfl
  | output c count => exact .of_stirs (stirs_modifyChild w c running_of_leave)
  | exit c => exact .of_stirs (stirs_modifyChild w c fun _ h => h)
  | outbox u => exact alike_modifyDispatch rfl

theorem launch?_eq_nil (h : ∀ x ∈ notes, ¬ x.IsFrame) : notes.filterMap Note.launch? = [] := by
  refine filterMap_eq_nil_iff.2 fun x hx => ?_
  cases x with
  | launch index request => exact absurd trivial (h _ hx)
  | _ => rfl

theorem done?_eq_nil (h : ∀ x ∈ notes, ¬ x.IsFrame) : notes.filterMap Note.done? = [] := by
  refine filterMap_eq_nil_iff.2 fun x hx => ?_
  cases x with
  | done index request r => exact absurd trivial (h _ hx)
  | _ => rfl

/-- A program has stopped, and what becomes of its task is noted. -/
structure Stops (s : Nat) (ℓ : List Note) (m : Machine) (last : List Note)
    (m' : Machine) : Prop where
  quiet : ∀ x ∈ last, ¬ x.IsDeed ∧ x ≠ .act .pass ∧ x.launch? = none
  rests : (Note.act .pass).Follows (ℓ ++ last)
  tells : Tells s ℓ m.world last m'.world
  finished_eq : m'.finished = m.finished ++ last.filterMap Note.done?

variable {rest : List Wake} {task : Nat} {r : Result Ending} {m' : Machine}

/-- An operation ends, which is noted. -/
theorem stops_job {index : Nat} {request : SessionRequest} (hlaunched : .launch index request ∈ ℓ)
    (hvalid : Valid ℓ) (hend : Closes request (Ending.told r) m.world (ℓ, .free)) :
    Stops s ℓ m [.done index request (Ending.told r)] (finish m task (.job index) r) := by
  rw [finish_job]
  refine ⟨fun x hx => ?_, follows_snoc trivial, ?_, rfl⟩
  · rw [mem_singleton.1 hx]
    exact ⟨fun hdeed => hdeed.elim, nofun, rfl⟩
  · refine ((Alike.refl m.world).tells hvalid).snoc ?_ ?_ (fun _ => rfl) trivial
    · rw [append_nil]
      exact hend.2.1 index
    · rw [append_nil]
      exact ⟨hlaunched, hend.2.2⟩

/-- A round of a loop ends. -/
theorem stops_loop {service : Service} (hservice : service = .reader s ∨ service = .writer s)
    (hvalid : Valid ℓ) (hend : Rests r m.world (ℓ, .free)) :
    Stops s ℓ m [] (finish m task (.loop service) r) := by
  have hrests : (Note.act .pass).Follows (ℓ ++ []) := (append_nil ℓ).symm ▸ hend.2
  rcases finish_loop m task service r with ⟨-, heq⟩ | ⟨-, heq⟩
  · rw [heq]
    refine ⟨fun x hx => absurd hx not_mem_nil, hrests, ?_, (append_nil _).symm⟩
    refine Alike.tells ⟨rfl, rfl, fun task' service' hmem => ?_, .refl _⟩ hvalid
    obtain heq | hmem := mem_cons.1 hmem
    · cases heq
      exact .inr hservice
    · exact .inl hmem
  · rw [heq]
    exact ⟨fun x hx => absurd hx not_mem_nil, hrests, (alike_retire m.world service).tells hvalid,
      (append_nil _).symm⟩

theorem stops_finish {role : Role} (hrole : role.Serves s ℓ origin)
    (hvalid : Valid ℓ) (hend : Concludes origin r m.world (ℓ, .free)) :
    ∃ last, acts last = [] ∧ Stops s ℓ m last (finish m task role r) := by
  cases role with
  | job index =>
    cases origin with
    | none => exact hrole.elim
    | some request => exact ⟨_, rfl, stops_job hrole hvalid hend⟩
  | loop service =>
    cases origin with
    | some request => exact hrole.elim
    | none => exact ⟨[], rfl, stops_loop hrole hvalid hend⟩

theorem expires_quiet (hlate : ∀ a ∈ late, ∃ id, a = .expire id) :
    ∀ x ∈ late.map Note.act, ¬ x.IsDeed ∧ ¬ x.IsFrame := by
  refine forall_mem_map.2 fun a ha => ?_
  obtain ⟨id, rfl⟩ := hlate a ha
  exact ⟨fun hdeed => hdeed.elim, fun hframe => hframe.elim⟩

/-- A task waits; if it is late already, its call has run out of time. -/
theorem stops_suspend {on : Await} (hlate : ∀ a ∈ late, ∃ id, a = .expire id)
    (hvalid : Valid ℓ) (hunbound : Unbound ℓ) : Stops s ℓ m (late.map .act) (suspend m t on) := by
  have halike : Alike s m.world (suspend m t on).world := by
    unfold suspend
    dsimp only
    split
    · exact (alike_giveUp m.world t.id on).trans (alike_enqueue nofun)
    · exact alike_enroll m.world t.id on
  have hquiet := expires_quiet hlate
  obtain ⟨htells, hunbound'⟩ := (halike.tells hvalid).expires hlate ((append_nil ℓ).symm ▸ hunbound)
  rw [nil_append] at htells hunbound'
  refine ⟨fun x hx => ⟨(hquiet x hx).1, ?_, ?_⟩, hunbound' _, htells, ?_⟩
  · rintro rfl
    exact (hquiet _ hx).2 trivial
  · obtain ⟨a, -, rfl⟩ := mem_map.1 hx
    rfl
  · rw [done?_eq_nil fun x hx => (hquiet x hx).2, append_nil]
    rfl

/-- A program of a task is about to run that keeps the log. -/
structure Departs (s : Nat) (solo : Prop) (origin : Option SessionRequest) (ℓ : List Note)
    (m : Machine) (task : Nat) (role : Role) (phase : Phase) :
    Prop extends Starts s (acts ℓ) m task role phase where
  noted : Noted s ℓ m.world
  serves : role.Serves s ℓ origin
  tasks : ∀ t ∈ m.tasks, ∃ origin, t.Logs s origin ℓ
  alone : solo → Alone ℓ m.tasks
  own : solo → origin ≠ none → (∀ t ∈ m.tasks, t.role.asks = false) ∧ ¬ OpenLoad ℓ

/-- A move adds notes to the log, among them those of the operations that begin and end. -/
structure Adds (s : Nat) (solo : Prop) (ℓ : List Note) (m : Machine)
    (launched : List (Nat × SessionRequest)) (notes : List Note) (m' : Machine) : Prop where
  tells : Tells s ℓ m.world notes m'.world
  launched_eq : notes.filterMap Note.launch? = launched
  finished_eq : m'.finished = m.finished ++ notes.filterMap Note.done?
  unbroken : .act .pass ∉ notes
  logged : Logged s solo (ℓ ++ notes) m'

section Departs

variable {origin : Option SessionRequest} {task : Nat} {role : Role} {phase phase' : Phase}
  {p : Action Ending}

theorem Departs.begins (h : Departs s solo origin ℓ m task role phase) :
    Keeping s solo origin (Awaits s m.tasks) m.world ℓ m.world (ℓ, phase) where
  running := h.toStarts.running
  grown := ⟨[], (append_nil ℓ).symm, (Alike.refl _).tells h.noted.valid,
    fun _ hx => absurd hx not_mem_nil, fun _ _ hx => absurd hx not_mem_nil⟩
  alone hs horigin := ⟨(h.alone hs).serial, fun hopen => absurd hopen (h.own hs horigin).2⟩

theorem Departs.others (h : Departs s solo origin ℓ m task role phase) (hs : solo)
    (horigin : origin ≠ none) (id : Nat) : ¬ Awaits s m.tasks id := by
  rintro ⟨t, ht, hawait⟩
  have hasks := (h.kept.waits t ht id hawait).1
  exact Bool.noConfusion (hasks.symm.trans ((h.own hs horigin).1 t ht))

/-- The task that a program leaves behind keeps the log when it goes on. -/
theorem logs_of_waiting {on : Await} {deadline : Option Int} {next : Signal → Action Ending}
    (hrole : role.Serves s ℓ origin) (hwait : phase.MayWait s origin.isSome on)
    (hnext : ∀ signal w' g, (keeping s origin).Wake on signal w (ℓ, phase) w' g →
      Safe (keeping s origin) (next signal) (Concludes origin) w' g) :
    Task.Logs s origin ℓ ⟨task, role, some on, deadline, next⟩ where
  role := hrole
  safe signal w' ℓ' hgrown htied hbegun :=
    hnext signal w' (ℓ', _) ⟨phase_of_mayWait rfl hwait, hgrown, htied, hbegun⟩

/-- A program of an operation or a loop has run. If operations come one at a time, they still do. -/
theorem Departs.alone_advance (h : Departs s solo origin ℓ m task role phase) (hs : solo)
    (hkeeping : Keeping s solo origin (Awaits s m.tasks) m.world ℓ w (ℓ', phase'))
    (hlast : ∀ x ∈ notes, ¬ x.IsDeed) (hvalid : Valid (ℓ' ++ notes))
    (htasks : ∀ t ∈ tasks, t ∈ m.tasks ∨ t.id = task ∧ t.role = role ∧ Unbound ℓ') :
    Alone (ℓ' ++ notes) tasks := by
  obtain ⟨earlier, hgrown, -, -, hdeeds⟩ := hkeeping.grown
  obtain rfl : ℓ' = ℓ ++ earlier := hgrown
  cases origin with
  | none =>
    have halone : Alone (ℓ ++ (earlier ++ notes)) m.tasks := by
      refine (h.alone hs).later ?_ (append_assoc .. ▸ hvalid)
      exact fun x hx => (mem_append.1 hx).elim (hdeeds rfl x) (hlast x)
    rw [append_assoc]
    refine halone.subset fun t ht hasks => ⟨t, (htasks t ht).resolve_right ?_, .refl t⟩
    rintro ⟨-, hrole, -⟩
    rw [hrole, ← h.serves.asks] at hasks
    cases hasks
  | some request =>
    obtain ⟨hserial, hopen⟩ := hkeeping.alone hs nofun
    have hown : ∀ t ∈ tasks, t.role.asks = true → t.id = task ∧ Unbound (ℓ ++ earlier) := by
      intro t ht hasks
      obtain ht | ⟨hid, -, hunbound⟩ := htasks t ht
      · exact Bool.noConfusion (hasks.symm.trans ((h.own hs nofun).1 t ht))
      · exact ⟨hid, hunbound⟩
    refine ⟨serial_append hserial hlast, fun t ht u hu hasks hasks' => ?_,
      fun t ht hasks hopen' => ?_⟩
    · exact (hown t ht hasks).1.trans (hown u hu hasks').1.symm
    · have hposted := hopen (openLoad_append hvalid hlast hopen')
      obtain ⟨index, request, r, heq⟩ := ((hown t ht hasks).2 .clear).posted hposted
      cases heq

/-- A program of a task has run up to its next wait or its end. -/
theorem Departs.advance (h : Departs s solo origin ℓ m task role phase)
    (hsafe : Safe (keeping s origin) p (Concludes origin) m.world (ℓ, phase)) :
    ∃ notes, Adds s solo ℓ m [] notes (advance m task role p) := by
  obtain ⟨⟨ℓ', phase'⟩, hkeeping, hhalt⟩ :=
    hsafe.run (fun _ _ _ _ hkept hstep => hkept.step h.others hstep) h.begins
  obtain ⟨notes, hgrown, htells, hframes, -⟩ := hkeeping.grown
  obtain rfl : ℓ' = ℓ ++ notes := hgrown
  have hrole : role.Serves s (ℓ ++ notes) origin := h.serves.later (prefix_append ..)
  have hstop : MayStop s role.asks phase' (p.run m.world).1 := by
    rw [← hrole.asks]
    generalize (p.run m.world).1 = halt at hhalt
    cases halt with
    | finished r =>
      cases origin with
      | none => exact hhalt.1
      | some request => exact hhalt.1
    | waiting on deadline next => exact hhalt.1.1
  obtain ⟨late, hexpire, hover, hbooked⟩ := h.toStarts.advance hkeeping.running hstop
  have htasks : ∀ t ∈ (Machine.advance m task role p).tasks, t ∈ m.tasks ∨
      t.id = task ∧ t.role = role ∧ t.Logs s origin (ℓ ++ notes) ∧ Unbound (ℓ ++ notes) := by
    intro t ht
    obtain ht | ⟨on, deadline, deadline', next, heq, rfl⟩ := mem_tasks_advance ht
    · exact .inl ht
    · rw [heq] at hhalt
      exact .inr ⟨rfl, rfl, logs_of_waiting hrole hhalt.1.1 hhalt.2, hhalt.1.2⟩
  obtain ⟨last, hacts, hstops⟩ : ∃ last, acts last = late ∧
      Stops s (ℓ ++ notes) { m with world := (p.run m.world).2 } last
        (Machine.advance m task role p) := by
    unfold Machine.advance
    generalize hrun : p.run m.world = halted at hhalt hstop hover
    obtain ⟨halt, w⟩ := halted
    cases halt with
    | finished r =>
      obtain rfl : phase' = .free := hstop
      rw [hover r rfl]
      exact stops_finish (m := { m with world := w }) hrole htells.valid hhalt
    | waiting on deadline next =>
      exact ⟨_, acts_map late, stops_suspend hexpire htells.valid hhalt.1.2⟩
  have hwhole := htells.trans hstops.tells
  refine ⟨notes ++ last, hwhole, ?_, ?_, ?_, ?_⟩
  · rw [filterMap_append, launch?_eq_nil hframes, nil_append]
    exact filterMap_eq_nil_iff.2 fun x hx => (hstops.quiet x hx).2.2
  · rw [filterMap_append, done?_eq_nil hframes, nil_append]
    exact hstops.finished_eq
  · intro hpass
    obtain hpass | hpass := mem_append.1 hpass
    · exact hframes _ hpass trivial
    · exact (hstops.quiet _ hpass).2.1 rfl
  · have hnoted := h.noted.tells hwhole
    rw [← append_assoc] at hnoted ⊢
    refine ⟨?_, hnoted, hstops.rests, fun t ht => ?_, fun hs => ?_⟩
    · rw [acts_append, hacts]
      exact hbooked
    · obtain ht | ⟨-, -, hlogs, -⟩ := htasks t ht
      · obtain ⟨origin', hlogs⟩ := h.tasks t ht
        exact ⟨origin', hlogs.later (append_assoc .. ▸ prefix_append ..)⟩
      · exact ⟨origin, hlogs.later (prefix_append ..)⟩
    · refine h.alone_advance hs hkeeping (fun x hx => (hstops.quiet x hx).1) hnoted.valid
        fun t ht => ?_
      exact (htasks t ht).imp_right fun ⟨hid, hrole, _, hunbound⟩ => ⟨hid, hrole, hunbound⟩

end Departs

/-! ## Turns -/

/-- Notes are added that no operation makes, and tasks stay as they are or go. -/
theorem Logged.grows (hm : Logged s solo ℓ m) (hnotes : ∀ x ∈ notes, ¬ x.IsDeed)
    (hrests : (Note.act .pass).Follows (ℓ ++ notes)) (hbooked : Booked s (acts (ℓ ++ notes)) m')
    (htells : Tells s ℓ m.world notes m'.world) (htasks : ∀ t ∈ m'.tasks, ∃ u ∈ m.tasks, t.Same u) :
    Logged s solo (ℓ ++ notes) m' := by
  refine ⟨hbooked, hm.noted.tells htells, hrests, fun t ht => ?_, fun hs => ?_⟩
  · obtain ⟨u, hu, hsame⟩ := htasks t ht
    obtain ⟨origin, hlogs⟩ := hm.tasks u hu
    exact ⟨origin, (hlogs.same hsame).later (prefix_append ..)⟩
  · exact ((hm.alone hs).later hnotes htells.valid).subset fun t ht _ => htasks t ht

theorem Logged.adds (hm : Logged s solo ℓ m) (hnotes : ∀ x ∈ notes, ¬ x.IsDeed ∧ ¬ x.IsFrame)
    (hrests : (Note.act .pass).Follows (ℓ ++ notes)) (hbooked : Booked s (acts (ℓ ++ notes)) m')
    (htells : Tells s ℓ m.world notes m'.world) (htasks : ∀ t ∈ m'.tasks, ∃ u ∈ m.tasks, t.Same u)
    (hfinished : m'.finished = m.finished) : Adds s solo ℓ m [] notes m' where
  tells := htells
  launched_eq := launch?_eq_nil fun x hx => (hnotes x hx).2
  finished_eq := by rw [done?_eq_nil fun x hx => (hnotes x hx).2, append_nil, hfinished]
  unbroken hpass := (hnotes _ hpass).2 trivial
  logged := hm.grows (fun x hx => (hnotes x hx).1) hrests hbooked htells htasks

theorem Logged.pass (hm : Logged s solo ℓ m) : Logged s solo (ℓ ++ [.act .pass]) m := by
  refine hm.grows ?_ (follows_snoc trivial) ?_ (Tells.pass hm.rests hm.noted.valid _)
    fun t ht => ⟨t, ht, .refl t⟩
  · intro x hx
    rw [mem_singleton.1 hx]
    exact fun hdeed => hdeed.elim
  · rw [acts_snoc_of_some rfl]
    exact hm.booked.pass

/-- Nothing is noted. -/
theorem Logged.same (hm : Logged s solo ℓ m) (hbooked : Booked s (acts ℓ) m')
    (halike : Alike s m.world m'.world) (htasks : m'.tasks ⊆ m.tasks)
    (hfinished : m'.finished = m.finished) : Adds s solo ℓ m [] [] m' := by
  refine hm.adds (fun x hx => absurd hx not_mem_nil) ?_ ?_ (halike.tells hm.noted.valid)
    (fun t ht => ⟨t, htasks ht, .refl t⟩) hfinished
  all_goals rw [append_nil]
  · exact hm.rests
  · exact hbooked

/-- Notes are added after something was changed that is not noted. -/
theorem Adds.after {m₁ m₂ : Machine} {launched : List (Nat × SessionRequest)}
    (h : Adds s solo ℓ m₁ launched notes m₂) (halike : Alike s m.world m₁.world) (hvalid : Valid ℓ)
    (hfinished : m₁.finished = m.finished) : Adds s solo ℓ m launched notes m₂ where
  tells := by
    refine (halike.tells hvalid).trans ?_
    rw [append_nil]
    exact h.tells
  launched_eq := h.launched_eq
  finished_eq := h.finished_eq.trans (by rw [hfinished])
  unbroken := h.unbroken
  logged := h.logged

theorem Logged.resume {signal : Signal} (hm : Logged s solo ℓ m) (hbegun : Begun ℓ)
    (hready : m.world.ready = .resume task signal :: rest) :
    ∃ notes, Adds s solo ℓ m [] notes (resume (m.withQueue rest) task signal) := by
  obtain ⟨m', heq, hbooked, hhears, hsub, hfinished⟩ | ⟨t, ht, w, hid, hhears, hstart, heq⟩ :=
    hm.booked.resume hready
  · rw [heq]
    exact ⟨[], hm.same hbooked hhears.alike hsub hfinished⟩
  · rw [heq]
    obtain ⟨origin, hlogs⟩ := hm.tasks t ht
    have hnoted := hm.noted.alike hhears.alike
    have hothers : ∀ u ∈ m.tasks.filter fun t => t.id ≠ task, u ∈ m.tasks ∧ u.id ≠ task :=
      fun u hu => ⟨(mem_filter.1 hu).1, of_decide_eq_true (mem_filter.1 hu).2⟩
    have hdeparts : Departs s solo origin ℓ
      { m with world := w, tasks := m.tasks.filter fun t => t.id ≠ task } task
        t.role (t.phase s) := by
      refine ⟨hstart, hnoted, hlogs.role, fun u hu => hm.tasks u (hothers u hu).1,
        fun hs => (hm.alone hs).subset fun u hu _ => ⟨u, (hothers u hu).1, .refl u⟩,
        fun hs horigin => ?_⟩
      have hasks : t.role.asks = true := by
        rw [← hlogs.role.asks]
        exact Option.isSome_iff_ne_none.2 horigin
      refine ⟨fun u hu => Bool.eq_false_iff.2 fun hasks' => (hothers u hu).2 ?_,
        (hm.alone hs).unloading t ht hasks⟩
      exact ((hm.alone hs).single u (hothers u hu).1 t ht hasks' hasks).trans hid
    obtain ⟨notes, hadds⟩ := hdeparts.advance
      (hlogs.safe signal w ℓ (prefix_refl ℓ) (hnoted.tied hstart.present hstart.view_eq) hbegun)
    exact ⟨notes, hadds.after hhears.alike hm.noted.valid rfl⟩

theorem alike_dequeue (hready : w.ready = e :: rest) : Alike s w { w with ready := rest } :=
  ⟨rfl, rfl, fun _ _ hmem => .inl (hready ▸ mem_cons_of_mem _ hmem), .refl _⟩

/-- A loop begins a round. -/
theorem Logged.round {service : Service} (hm : Logged s solo ℓ m) (hbegun : Begun ℓ)
    (hready : m.world.ready = .serve task service :: rest) :
    ∃ notes, Adds s solo ℓ m [] notes (Machine.advance (m.withQueue rest) task
      (.loop service) (Ending.round <$> Client.serve service)) := by
  have hservice : service = .reader s ∨ service = .writer s :=
    hm.noted.serves task service (hready ▸ mem_cons_self)
  have hstart := hm.booked.starts hready
  have hnoted := hm.noted.alike (alike_dequeue hready)
  have hdeparts : Departs s solo none ℓ (m.withQueue rest) task (.loop service) .free :=
    ⟨hstart, hnoted, hservice, hm.tasks, hm.alone, fun _ h => absurd rfl h⟩
  obtain ⟨notes, hadds⟩ := hdeparts.advance
    (safe_map_rests _ (safe_serve hservice (hnoted.tied hstart.present hstart.view_eq) hbegun))
  exact ⟨notes, hadds.after (alike_dequeue hready) hm.noted.valid rfl⟩

theorem alike_settle {t : Nat} {addressee : Addressee} {outcome : Outcome}
    (h : t ≠ s ∨ ∀ label d generation r, addressee = .load label d generation →
      outcome ≠ .answered r) (w : World) : Alike s w (w.settle t addressee outcome) := by
  cases addressee with
  | waiter => exact .refl w
  | continuation label =>
    cases outcome with
    | answered r => exact alike_report w _
    | failed f => exact alike_report w _
    | expired => exact .refl w
  | load label d generation =>
    cases outcome with
    | answered r =>
      have hne : t ≠ s := h.resolve_right fun h => h label d generation r rfl rfl
      have hrecorded : Alike s w
          (w.modifySession t fun session => session.recordLoad d generation) := by
        refine ⟨?_, rfl, .of_ready rfl, .refl _⟩
        rw [session_modifySession_of_ne hne]
      exact hrecorded.trans (alike_report _ _)
    | failed f =>
      have hfault : Alike s w (w.loadFault t ((w.session t).buffer d).path f).2 := by
        unfold loadFault
        split
        · exact ⟨rfl, rfl, .of_ready rfl, .refl _⟩
        · exact .refl w
      exact hfault.trans (alike_report _ _)
    | expired => exact .refl w

/-- A continuation of the session is told that a load was answered, and records it. -/
theorem tells_settle_load {call : Call} {label : String} {d generation : Nat} {r : Response}
    (htells : Tells s ℓ w [.act (.resume call (.answered r))] w')
    (hpresent : s < w'.sessions.length) (haddressee : call.addressee = .load label d generation) :
    Tells s ℓ w [.act (.resume call (.answered r)), .record d generation]
      (w'.settle s call.addressee (.answered r)) := by
  have hvalid : Valid (ℓ ++ [.act (.resume call (.answered r))] ++ [.record d generation]) := by
    refine throughout_snoc.2 ⟨htells.valid, follows_snoc ?_,
      .inr ⟨ℓ, call, r, label, rfl, haddressee⟩⟩
    rintro label' d' generation' haddressee'
    cases haddressee.symm.trans haddressee'
    rfl
  have hplain : (Note.record d generation).IsPlain := trivial
  have hrecorded : Tells s (ℓ ++ [.act (.resume call (.answered r))]) w' [.record d generation]
      (w'.settle s (.load label d generation) (.answered r)) := by
    refine ⟨?_, (append_nil _).symm, .of_ready rfl, hvalid, .refl _,
      fun c call hmem => absurd hmem (hplain.not_write c call), hplain.replaces _ _⟩
    refine (congrArg Session.memory (session_modifySession_self hpresent _)).trans ?_
    exact memory_recordLoad _ d generation
  rw [haddressee]
  exact htells.trans hrecorded

/-- A continuation of the session runs. -/
theorem Logged.settle {call : Call} {outcome : Outcome} (hm : Logged s solo ℓ m) (hbegun : Begun ℓ)
    (hready : m.world.ready = .settle s call outcome :: rest) :
    ∃ notes, Adds s solo ℓ m [] notes
      { m with world := World.settle { m.world with ready := rest } s call.addressee outcome } := by
  have hlast : (acts ℓ).getLast? = some .pass := by
    obtain ⟨before, rfl⟩ := hbegun
    rw [acts_snoc_of_some rfl]
    exact List.getLast?_concat
  have hbooked := hm.booked.settle hready hlast
  have hresumed : Tells s ℓ m.world [.act (.resume call outcome)]
      { m.world with ready := rest } := by
    refine ((alike_dequeue hready).tells hm.noted.valid).snoc ?_ ⟨nofun, nofun⟩
      (fun _ => rfl) trivial
    rw [append_nil]
    exact hbegun.unbound _
  by_cases hload : ∃ label d generation r, call.addressee = .load label d generation ∧
    outcome = .answered r
  · obtain ⟨label, d, generation, r, haddressee, rfl⟩ := hload
    refine ⟨_, hm.adds ?_ ?_ ?_ (tells_settle_load hresumed hm.booked.present haddressee)
      (fun t ht => ⟨t, ht, .refl t⟩) rfl⟩
    · intro x hx
      obtain rfl | hx := mem_cons.1 hx
      · exact ⟨fun hdeed => hdeed.elim, fun hframe => hframe.elim⟩
      · rw [mem_singleton.1 hx]
        exact ⟨fun hdeed => hdeed.elim, fun hframe => hframe.elim⟩
    · rw [append_cons]
      exact follows_snoc trivial
    · rw [acts_append]
      exact hbooked
  · have halike := alike_settle (s := s) (t := s) (.inr fun label d generation r haddressee heq =>
      hload ⟨label, d, generation, r, haddressee, heq⟩) { m.world with ready := rest }
    have hunbound : Unbound (ℓ ++ [.act (.resume call outcome)]) :=
        unbound_snoc fun r label d generation heq haddressee =>
      hload ⟨label, d, generation, r, haddressee, heq⟩
    have htells := hresumed.trans (halike.tells hresumed.valid)
    rw [append_nil] at htells
    refine ⟨_, hm.adds ?_ (hunbound _) ?_ htells (fun t ht => ⟨t, ht, .refl t⟩) rfl⟩
    · intro x hx
      rw [mem_singleton.1 hx]
      exact ⟨fun hdeed => hdeed.elim, fun hframe => hframe.elim⟩
    · rw [acts_snoc_of_some rfl]
      exact hbooked

/-- One turn. -/
theorem Logged.turn (hm : Logged s solo ℓ m) (hbegun : Begun ℓ)
    (hready : m.world.ready = e :: rest) :
    ∃ notes, Adds s solo ℓ m [] notes (serve (m.withQueue rest) e) := by
  have hdequeued : Alike s m.world { m.world with ready := rest } := alike_dequeue hready
  have hdismissed : ∀ {w : World}, Booked s (acts ℓ) { m with world := w } →
    Alike s { m.world with ready := rest } w →
      ∃ notes, Adds s solo ℓ m [] notes { m with world := w } :=
    fun hbooked halike => ⟨[], hm.same hbooked (hdequeued.trans halike) (fun _ ht => ht) rfl⟩
  cases e with
  | serve task service =>
    unfold Machine.serve
    dsimp only
    split
    · exact hdismissed (hm.booked.dismiss hready (fun _ _ => ⟨nofun, nofun⟩) rfl
        (.refl _)) (.refl _)
    · exact hm.round hbegun hready
  | resume task signal => exact hm.resume hbegun hready
  | relay task signal => exact hdismissed (hm.booked.relay hready) (alike_enqueue nofun)
  | settle u call outcome =>
    by_cases hus : u = s
    · subst hus
      exact hm.settle hbegun hready
    · have hbooked := hm.booked.dismiss hready (fun _ _ => ⟨nofun, nofun⟩) (if_neg hus)
        (quiet_settle _ u call.addressee outcome)
      exact hdismissed hbooked (alike_settle (.inl hus) _)
  | skip label =>
    have hbooked :=
      hm.booked.dismiss hready (fun _ _ => ⟨nofun, nofun⟩) rfl
        (quiet_report _ (.settled label (.ok none)))
    exact hdismissed hbooked (alike_report _ _)

/-! ## Operations begin -/

end Machine

/-- The outcome of a load goes to a continuation. -/
def Addressee.loads : Addressee → Bool
  | .load _ _ _ => true
  | _ => false

theorem Addressee.loads_eq_false {a : Addressee} :
    a.loads = false ↔ ∀ label d generation, a ≠ .load label d generation := by
  cases a <;> simp [loads]

/-- The continuation of a load of a session runs. -/
def Wake.loads (s : Nat) : Wake → Bool
  | .settle t call _ => decide (t = s) && call.addressee.loads
  | _ => false

theorem Wake.loads_eq_false : e.loads s = false ↔ ∀ call outcome, e = .settle s call outcome →
      ∀ label d generation, call.addressee ≠ .load label d generation := by
  cases e with
  | settle t call outcome =>
    simp only [loads, Bool.and_eq_false_imp, decide_eq_true_eq, Addressee.loads_eq_false]
    constructor
    · intro h call' outcome' heq
      cases heq
      exact h rfl
    · intro h heq
      exact h call outcome (by rw [heq])
  | _ => simp [loads]

namespace Machine

/-- No operation is under way: none waits, and no continuation is to be told of a load. -/
structure Idle (s : Nat) (m : Machine) : Prop where
  tasks : ∀ t ∈ m.tasks, t.role.asks = false
  pending : ∀ call ∈ (m.world.session s).dispatch.pending, ∀ label d generation,
    call.addressee ≠ .load label d generation
  due : ∀ call outcome, .settle s call outcome ∈ m.world.ready → ∀ label d generation,
    call.addressee ≠ .load label d generation

instance (s : Nat) (m : Machine) : Decidable (m.Idle s) :=
  decidable_of_iff ((∀ t ∈ m.tasks, t.role.asks = false) ∧
      (∀ call ∈ (m.world.session s).dispatch.pending, call.addressee.loads = false) ∧
      ∀ e ∈ m.world.ready, e.loads s = false) (by
    simp only [Addressee.loads_eq_false, Wake.loads_eq_false]
    constructor
    · rintro ⟨htasks, hpending, hdue⟩
      exact ⟨htasks, hpending, fun call outcome hmem => hdue _ hmem call outcome rfl⟩
    · rintro ⟨htasks, hpending, hdue⟩
      refine ⟨htasks, hpending, ?_⟩
      rintro e hmem call outcome rfl
      exact hdue call outcome hmem)

theorem Idle.not_openLoad (h : m.Idle s) (hbooked : m.Booked s (acts ℓ)) : ¬ OpenLoad ℓ := by
  rintro ⟨call, label, d, generation, haddressee, hmem⟩
  rw [← hbooked.account_eq] at hmem
  obtain hmem | ⟨outcome, hmem⟩ := hmem
  · exact h.pending call hmem label d generation haddressee
  · obtain ⟨e, he, hcontinuation⟩ := mem_filterMap.1 hmem
    cases e with
    | settle u call' outcome' =>
      change (if u = s then some (call', outcome') else none) = _ at hcontinuation
      split at hcontinuation
      · next hus =>
        cases hcontinuation
        exact h.due call outcome (hus ▸ he) label d generation haddressee
      · cases hcontinuation
    | _ => cases hcontinuation

theorem Idle.quiescent (h : m.Idle s) (hbooked : m.Booked s (acts ℓ)) : Quiescent ℓ := by
  refine ⟨fun id hid => ?_, h.not_openLoad hbooked⟩
  obtain ⟨t, ht, hawait⟩ := (hbooked.kept.complete id hid).resolve_left not_false
  exact Bool.noConfusion ((h.tasks t ht).symm.trans (hbooked.kept.waits t ht id hawait).1)

/-- An operation of the session begins. -/
theorem Logged.launch {request : SessionRequest} (hm : Logged s solo ℓ m)
    (hbegun : Begun ℓ) (hgenuine : request.Genuine) (hidle : solo → m.Idle s) (index : Nat) :
    Adds s solo ℓ m [(index, request)] [.launch index request]
      (launch m index (request.action s)) := by
  have hnumbered : Alike s m.world { m.world with nextTask := m.world.nextTask + 1 } :=
    ⟨rfl, rfl, .of_ready rfl, .refl _⟩
  have halike : Alike s m.world (Machine.launch m index (request.action s)).world :=
    hnumbered.trans (.of_stirs (stirs_wake _ _))
  have htells : Tells s ℓ m.world [.launch index request]
      (Machine.launch m index (request.action s)).world := by
    refine (halike.tells hm.noted.valid).snoc ?_ trivial (fun _ => rfl) trivial
    rw [append_nil]
    exact hbegun.unbound _
  have hlogs : Task.Logs s (some request) (ℓ ++ [.launch index request])
      ⟨m.world.nextTask, .job index, none, none, fun _ => Ending.answer <$> request.action s⟩ := by
    refine ⟨mem_concat_self, fun signal w ℓ' _ htied hbegun' => ?_⟩
    refine Safe.bind ((safe_sessionRequest hgenuine htied hbegun'.unbound).mono ?_)
    intro r w g hcloses
    cases r with
    | ok a => exact hcloses
    | error e => exact hcloses
  have hnew : ∀ t ∈ (Machine.launch m index (request.action s)).tasks,
      t ∈ m.tasks ∨ t = ⟨m.world.nextTask, .job index, none, none,
        fun _ => Ending.answer <$> request.action s⟩ :=
    fun t ht => (mem_append.1 ht).imp_right mem_singleton.1
  refine ⟨htells, rfl, (append_nil _).symm, by simp, ?_, hm.noted.tells htells,
    follows_snoc trivial, fun t ht => ?_, fun hs => ?_⟩
  · rw [acts_snoc_of_none rfl]
    exact hm.booked.launch index (request.action s)
  · obtain ht | rfl := hnew t ht
    · obtain ⟨origin, hlogs⟩ := hm.tasks t ht
      exact ⟨origin, hlogs.later (prefix_append ..)⟩
    · exact ⟨_, hlogs⟩
  · have hquiescent := (hidle hs).quiescent hm.booked
    have hown : ∀ t ∈ (Machine.launch m index (request.action s)).tasks,
        t.role.asks = true → t.id = m.world.nextTask := by
      intro t ht hasks
      obtain ht | rfl := hnew t ht
      · exact Bool.noConfusion (hasks.symm.trans ((hidle hs).tasks t ht))
      · rfl
    refine ⟨throughout_snoc.2 ⟨(hm.alone hs).serial, fun _ => hquiescent⟩,
      fun t ht u hu hasks hasks' => ?_, fun _ _ _ hopen => ?_⟩
    · exact (hown t ht hasks).trans (hown u hu hasks').symm
    · have hfits : (Note.launch index request).Fits ℓ := trivial
      obtain hopen | ⟨before, x, call, label, d, generation, heq, -, hx⟩ :=
        openLoad_snoc hfits hopen
      · exact hquiescent.unloading hopen
      · cases eq_of_snoc_eq heq
        simp at hx

/-! ## Changes from outside -/

theorem Logged.expire (hm : Logged s solo ℓ m) (hunbound : Unbound ℓ)
    (ht : ∃ u ∈ m.tasks, u.id = t.id ∧ u.await = t.await) :
    ∃ notes, Adds s solo ℓ m [] notes (expire m t) ∧ Unbound (ℓ ++ notes) := by
  obtain ⟨late, hlate, hbooked⟩ := hm.booked.expire ht
  have halike : Alike s m.world (Machine.expire m t).world := by
    refine Alike.trans ?_ (alike_enqueue nofun)
    split
    · exact alike_giveUp _ _ _
    · exact .refl _
  obtain ⟨htells, hunbound⟩ :=
    (halike.tells hm.noted.valid).expires hlate ((append_nil ℓ).symm ▸ hunbound)
  rw [nil_append] at htells hunbound
  refine ⟨late.map .act, hm.adds (expires_quiet hlate) (hunbound _) ?_ htells
    (fun _ => mem_tasks_expire) rfl, hunbound⟩
  rw [acts_append, acts_map]
  exact hbooked

theorem Adds.trans {more : List Note} {m₁ m₂ : Machine}
    {launched launched' : List (Nat × SessionRequest)}
    (h : Adds s solo ℓ m launched notes m₁) (h' : Adds s solo (ℓ ++ notes) m₁ launched' more m₂) :
    Adds s solo ℓ m (launched ++ launched') (notes ++ more) m₂ where
  tells := h.tells.trans h'.tells
  launched_eq := by rw [filterMap_append, h.launched_eq, h'.launched_eq]
  finished_eq := by rw [filterMap_append, h'.finished_eq, h.finished_eq, append_assoc]
  unbroken hpass := (mem_append.1 hpass).elim h.unbroken h'.unbroken
  logged := append_assoc ℓ notes more ▸ h'.logged

/-- Something happens from outside. -/
theorem Logged.undergo (hm : Logged s solo ℓ m) (hunbound : Unbound ℓ) (change : Change) :
    ∃ notes, Adds s solo ℓ m [] notes (m.undergo change) := by
  obtain ⟨time, rfl⟩ | ⟨w, hw, host, harranges, hstirs, -⟩ := befalls_of_undergo m change
  · have hclock : Alike s m.world
        { m.world with host := { m.world.host with clock := m.world.host.clock + time } } :=
      alike_host rfl (Host.lasts_of_children rfl)
    have hall : ∃ notes, Adds s solo ℓ m [] notes (m.elapse time) ∧ Unbound (ℓ ++ notes) := by
      refine elapse_induction (P :=
        fun m' => ∃ notes, Adds s solo ℓ m [] notes m' ∧ Unbound (ℓ ++ notes)) time ?_ ?_
      · exact ⟨[], hm.same (hm.booked.quiet (quiet_host _ _)) hclock (fun _ ht => ht) rfl,
          (append_nil ℓ).symm ▸ hunbound⟩
      · rintro m₁ t ⟨notes, hadds, hunbound⟩ ht
        obtain ⟨more, hexpired, hunbound⟩ := hadds.logged.expire hunbound ht
        exact ⟨notes ++ more, hadds.trans hexpired, append_assoc ℓ notes more ▸ hunbound⟩
    obtain ⟨notes, hadds, -⟩ := hall
    exact ⟨notes, hadds⟩
  · have halike : Alike s m.world w :=
      (alike_host harranges.sent_eq (Host.lasts_of_children harranges.children_eq)).trans
        (.of_stirs hstirs)
    rw [hw]
    exact ⟨[], hm.same (hm.booked.quiet ((quiet_host _ _).trans hstirs.quiet)) halike
      (fun _ ht => ht) rfl⟩

end Machine

/-! ## Runs -/

namespace Move

/-- The operation of a session that a move begins, with its number. -/
def launch? : Move → Option (Nat × SessionRequest)
  | .launch index (.session _ request) => some (index, request)
  | _ => none

/-- An operation is asked for. -/
def begins : Move → Bool
  | .launch _ _ => true
  | _ => false

/-- Nothing is asked for but operations of one session. -/
def On (s : Nat) : Move → Prop
  | .launch _ operation => ∃ request, operation = .session s request ∧ request.Genuine
  | _ => True

end Move

/-- Each operation of a run is asked for when none is under way. -/
def OneAtATime (s : Nat) (m : Machine) (moves : List Move) : Prop :=
  ∀ before index operation after, moves = before ++ .launch index operation :: after →
    (m.follow before).Idle s

theorem oneAtATime_cons {move : Move} : OneAtATime s m (move :: moves) ↔
      (move.begins = true → m.Idle s) ∧ OneAtATime s (m.move move) moves := by
  constructor
  · intro h
    refine ⟨fun hbegins => ?_, fun before index operation after heq => ?_⟩
    · cases move with
      | launch index operation => exact h [] index operation moves rfl
      | _ => cases hbegins
    · exact h (move :: before) index operation after (by rw [heq, cons_append])
  · rintro ⟨hfirst, hrest⟩ before index operation after heq
    rcases before with _ | ⟨first, before⟩
    · obtain ⟨rfl, -⟩ := List.cons.inj heq
      exact hfirst rfl
    · obtain ⟨rfl, htail⟩ := List.cons.inj heq
      exact hrest before index operation after htail

/-- Whether the operations of a run come one at a time can be found out by running it. -/
def decideOneAtATime (s : Nat) :
    (m : Machine) → (moves : List Move) → Decidable (OneAtATime s m moves)
  | _, [] => isTrue fun before _ _ _ heq => by simp at heq
  | m, move :: moves =>
    have := decideOneAtATime s (m.move move) moves
    decidable_of_iff' _ oneAtATime_cons

instance (s : Nat) (m : Machine) (moves : List Move) : Decidable (OneAtATime s m moves) :=
  decideOneAtATime s m moves

namespace Machine

/-- Nothing has begun, and nothing is known of a compiler. -/
structure Pristine (s : Nat) (m : Machine) : Prop extends Fresh s m where
  memory_eq : (m.world.session s).memory = {}
  sent_eq : m.world.host.sent = []

theorem Pristine.logged (hm : m.Pristine s) : Logged s solo [] m := by
  have hnoted : Noted s [] m.world := by
    refine ⟨hm.memory_eq, hm.sent_eq, throughout_nil _, fun task service hmem => ?_,
      fun before c after heq => ?_⟩
    · rw [hm.ready_eq] at hmem
      exact absurd hmem not_mem_nil
    · simp at heq
  refine ⟨hm.toFresh.sound.toBooked, hnoted, unbound_nil _, ?_, fun _ => ?_⟩
  all_goals rw [hm.tasks_eq]
  · exact fun t ht => absurd ht not_mem_nil
  · exact ⟨throughout_nil _, fun t ht => absurd ht not_mem_nil, fun t ht => absurd ht not_mem_nil⟩

/-- One move. -/
theorem Logged.move {move : Move} (hm : Logged s solo ℓ m) (hon : move.On s)
    (hidle : solo → ∀ index operation, move = .launch index operation → m.Idle s) :
    ∃ notes, Adds s solo (ℓ ++ [.act .pass]) m move.launch?.toList notes (m.move move) := by
  have hpass := hm.pass
  have hbegun : Begun (ℓ ++ [.act .pass]) := ⟨ℓ, rfl⟩
  cases move with
  | turn =>
    unfold Machine.move Machine.turn
    cases hready : m.world.ready with
    | nil => exact ⟨[], hpass.same hpass.booked (.refl _) (fun _ ht => ht) rfl⟩
    | cons e rest => exact hpass.turn hbegun hready
  | launch index operation =>
    obtain ⟨request, rfl, hgenuine⟩ := hon
    exact ⟨_, hpass.launch hbegun hgenuine (fun hs => hidle hs index _ rfl) index⟩
  | change c => exact hpass.undergo hbegun.unbound c

/-- A machine shows what a log says. -/
structure Shows (s : Nat) (ℓ : List Note) (m : Machine) : Prop where
  memory_eq : (m.world.session s).memory = recount ℓ
  account_eq : m.world.account s = replay (acts ℓ)
  sent_eq : m.world.host.sent = ℓ.filterMap Note.sent?
  spawns : Replaces [] ℓ m.world.host

theorem Logged.shows (hm : Logged s solo ℓ m) : m.Shows s ℓ :=
  ⟨hm.noted.memory_eq, hm.booked.account_eq, hm.noted.sent_eq, hm.noted.spawns⟩

end Machine

/-- The log of a run from what was noted in each of its moves. -/
def logOf (book : List (List Note)) : List Note := book.flatMap fun notes => .act .pass :: notes

theorem logOf_snoc (book : List (List Note)) (notes : List Note) :
    logOf (book ++ [notes]) = logOf book ++ [.act .pass] ++ notes := by
  unfold logOf
  rw [flatMap_append, flatMap_cons, flatMap_nil, append_nil, append_assoc]
  rfl

theorem logOf_take_drop (book : List (List Note)) (n : Nat) :
    logOf (book.take n) ++ logOf (book.drop n) = logOf book := by
  unfold logOf
  rw [← flatMap_append, take_append_drop]

theorem logOf_take_initial (book : List (List Note)) (n : Nat) :
    logOf (book.take n) <+: logOf book :=
  ⟨logOf (book.drop n), logOf_take_drop book n⟩

/-- What was noted of a session in each move of a run. -/
structure Journal (s : Nat) (m : Machine) (moves : List Move) (book : List (List Note)) : Prop where
  /-- the operations that begin are noted where they begin -/
  launched : book.map (List.filterMap Note.launch?) = moves.map fun move => move.launch?.toList
  /-- that a move begins is noted nowhere else -/
  unbroken : ∀ notes ∈ book, .act .pass ∉ notes
  /-- after every move the machine shows just what was noted so far -/
  shows : ∀ n ≤ moves.length, (m.follow (moves.take n)).Shows s (logOf (book.take n))
  /-- the operations that ended are those whose end was noted -/
  finished : ∀ n ≤ moves.length,
    (m.follow (moves.take n)).finished = m.finished ++ (logOf (book.take n)).filterMap Note.done?
  /-- what happened after a move was noted after it -/
  tells : ∀ n ≤ moves.length, Tells s (logOf (book.take n)) (m.follow (moves.take n)).world
    (logOf (book.drop n)) (m.follow moves).world

/-- What was noted obeys the rules of the notes and those of the acts, and if the operations came
one at a time it says so. -/
structure Logbook (s : Nat) (m : Machine) (moves : List Move) (book : List (List Note)) : Prop
    extends Journal s m moves book where
  valid : Valid (logOf book)
  lawful : Lawful (acts (logOf book))
  serial : OneAtATime s m moves → Serial (logOf book)

theorem OneAtATime.initial {more : List Move} (h : OneAtATime s m (moves ++ more)) :
    OneAtATime s m moves := by
  rintro before index operation after rfl
  exact h before index operation (after ++ more) (by simp)

theorem Journal.length_eq {book : List (List Note)} (h : Journal s m moves book) :
    book.length = moves.length := by
  simpa using congrArg List.length h.launched

/-- A move is noted. -/
theorem Journal.snoc {move : Move} {book : List (List Note)} (h : Journal s m moves book)
    (hlogged : (m.follow moves).Logged s solo (logOf book))
    (hadds : Machine.Adds s solo (logOf book ++ [.act .pass]) (m.follow moves)
      move.launch?.toList notes ((m.follow moves).move move)) :
    Journal s m (moves ++ [move]) (book ++ [notes]) := by
  have hfollow : m.follow (moves ++ [move]) = (m.follow moves).move move := foldl_append ..
  have hlength := h.length_eq
  -- a beginning of the longer run is one of the shorter run, or all of it
  have hsplit : ∀ n ≤ (moves ++ [move]).length,
      n ≤ moves.length ∨ n = (moves ++ [move]).length := by
    intro n hn
    rw [length_append, length_singleton] at hn ⊢
    omega
  have hwhole : (book ++ [notes]).take (moves ++ [move]).length = book ++ [notes] :=
    take_of_length_le (by simp [hlength])
  refine ⟨?_, ?_, fun n hn => ?_, fun n hn => ?_, fun n hn => ?_⟩
  · rw [map_append, map_append, h.launched, map_singleton, hadds.launched_eq, map_singleton]
  · intro notes' hnotes
    obtain hnotes | hnotes := mem_append.1 hnotes
    · exact h.unbroken notes' hnotes
    · exact mem_singleton.1 hnotes ▸ hadds.unbroken
  · obtain hle | rfl := hsplit n hn
    · rw [take_append_of_le_length hle, take_append_of_le_length (hlength ▸ hle)]
      exact h.shows n hle
    · rw [hwhole, take_length, hfollow, logOf_snoc]
      exact hadds.logged.shows
  · obtain hle | rfl := hsplit n hn
    · rw [take_append_of_le_length hle, take_append_of_le_length (hlength ▸ hle)]
      exact h.finished n hle
    · have hbefore := h.finished moves.length (Nat.le_refl _)
      rw [take_length, take_of_length_le (Nat.le_of_eq hlength)] at hbefore
      have hpass : (logOf book ++ [Note.act .pass]).filterMap Note.done? =
          (logOf book).filterMap Note.done? :=
        filterMap_append.trans (append_nil _)
      rw [hwhole, take_length, hfollow, logOf_snoc, hadds.finished_eq, hbefore,
        filterMap_append, hpass, append_assoc]
  · obtain hle | rfl := hsplit n hn
    · rw [take_append_of_le_length hle, take_append_of_le_length (hlength ▸ hle),
        drop_append_of_le_length (hlength ▸ hle), logOf_snoc, hfollow]
      have hbefore := h.tells n hle
      have hpass :=
        hbefore.trans (Tells.pass (by rw [logOf_take_drop]; exact hlogged.rests) hbefore.valid _)
      refine hpass.trans ?_
      rw [← append_assoc, logOf_take_drop]
      exact hadds.tells
    · rw [hwhole, take_length, drop_of_length_le (by simp [hlength])]
      refine (Alike.refl _).tells ?_
      rw [logOf_snoc]
      exact hadds.logged.noted.valid

/-- Every run is noted. -/
theorem Machine.Pristine.journal (hm : m.Pristine s) (hmoves : ∀ move ∈ moves, move.On s)
    (hsolo : solo → OneAtATime s m moves) :
    ∃ book, Journal s m moves book ∧ (m.follow moves).Logged s solo (logOf book) := by
  induction moves using List.reverseRecOn with
  | nil =>
    have hlogged : m.Logged s solo [] := hm.logged
    refine ⟨[], ⟨rfl, fun _ h => absurd h not_mem_nil, ?_, ?_, ?_⟩, hlogged⟩
    all_goals
      intro n hn
      obtain rfl := Nat.le_zero.1 hn
    · exact hlogged.shows
    · exact (append_nil _).symm
    · exact (Alike.refl _).tells (throughout_nil _)
  | append_singleton moves move ih =>
    obtain ⟨book, hjournal, hlogged⟩ := ih (fun move hmove => hmoves move (mem_append_left _ hmove))
      fun hs => (hsolo hs).initial
    have hon := hmoves move mem_concat_self
    obtain ⟨notes, hadds⟩ := hlogged.move hon fun hs index operation heq =>
      hsolo hs moves index operation [] (by rw [heq])
    refine ⟨book ++ [notes], hjournal.snoc hlogged hadds, ?_⟩
    have hfollow : m.follow (moves ++ [move]) = (m.follow moves).move move := foldl_append ..
    rw [logOf_snoc, hfollow]
    exact hadds.logged

theorem Machine.Pristine.logbook (hm : m.Pristine s) (hmoves : ∀ move ∈ moves, move.On s) :
    ∃ book, Logbook s m moves book := by
  have hsolo : OneAtATime s m moves → OneAtATime s m moves := id
  obtain ⟨book, hjournal, hlogged⟩ := hm.journal hmoves hsolo
  exact ⟨book, hjournal, hlogged.noted.valid, hlogged.booked.lawful,
    fun hs => (hlogged.alone hs).serial⟩

end IdeMode
