import IdeMode.Proofs.Tools.Background
import IdeMode.Proofs.Tools.Requests
set_option autoImplicit false

/-!
# A server

A server is asked for one tool after another, and files change between the calls. The loops of
sessions and the processes take their turns while a tool waits, and all they do is to let processes
and calls go on. So a move of a server is one of the background, or the tool that is under way goes
on to its next wait or its end.
-/

namespace IdeMode

open Tools List

/-! ## Moves -/

/-- The tool that is asked for. -/
def Operation.tool? : Operation → Option ToolRequest
  | .tool request => some request
  | _ => none

namespace Machine

/-- No operation is under way. -/
def AtRest (m : Machine) : Prop := ∀ t ∈ m.tasks, t.role.asks = false

instance (m : Machine) : Decidable m.AtRest :=
  inferInstanceAs (Decidable (∀ t ∈ m.tasks, t.role.asks = false))

/-- A move of a server: only tools are asked for, one at a time, files change only when none is
under way, and no process writes files. -/
def Allows (m : Machine) : Move → Prop
  | .turn => True
  | .launch _ operation => operation.tool?.isSome ∧ m.AtRest
  | .change c => c.IsTidy ∧ (c.sparesFiles = true ∨ m.AtRest)

instance (m : Machine) : (move : Move) → Decidable (m.Allows move)
  | .turn => .isTrue trivial
  | .launch _ operation => inferInstanceAs (Decidable (operation.tool?.isSome ∧ m.AtRest))
  | .change c => inferInstanceAs (Decidable (c.IsTidy ∧ (c.sparesFiles = true ∨ m.AtRest)))

/-- All moves are those of a server. -/
def ServesTools : Machine → List Move → Prop
  | _, [] => True
  | m, move :: moves => m.Allows move ∧ ServesTools (m.move move) moves

instance decidableServesTools :
    (m : Machine) → (moves : List Move) → Decidable (m.ServesTools moves)
  | _, [] => .isTrue trivial
  | m, move :: moves =>
    have := decidableServesTools (m.move move) moves
    inferInstanceAs (Decidable (m.Allows move ∧ ServesTools (m.move move) moves))

/-- A server that was not yet asked for anything. -/
structure Unused (m : Machine) : Prop where
  normal : m.world.host.cwd.IsNormal
  sessions_eq : m.world.sessions = []
  entries_eq : m.world.registry.entries = []
  ready_eq : m.world.ready = []
  tasks_eq : m.tasks = []
  finished_eq : m.finished = []
  tidy : ∀ tag rs, m.world.host.reactions.get? tag = some rs → ∀ r ∈ rs, r.IsTidy

/-! ## Tasks -/

open Client Prog World

/-- The task is a loop: whatever it does next goes on in the background. -/
structure IsLoop (t : Task) : Prop where
  role : t.role.asks = false
  next : ∀ signal, Obeys background (t.next signal)

/-- All tasks are loops, but for the one of the tool that is under way. -/
structure Attends (m : Machine) (job : Option Task) : Prop where
  orderly : m.world.Orderly
  numbered : ∀ t ∈ m.tasks, t.id < m.world.nextTask
  queued : ∀ task service, .serve task service ∈ m.world.ready → task < m.world.nextTask
  loops : ∀ t ∈ m.tasks, IsLoop t ∨ job = some t
  present : ∀ j, job = some j → j ∈ m.tasks ∧ j.role.asks = true
  alone : ∀ j, job = some j → ∀ t ∈ m.tasks, t.id = j.id → t = j
  unqueued : ∀ j, job = some j → ∀ service, .serve j.id service ∉ m.world.ready

variable {m m' : Machine} {job : Option Task} {w : World}

theorem Attends.proceed (h : Attends m job) (hproceeds : KeepsOrder m.world w) :
    Attends { m with world := w } job := by
  obtain ⟨more, hready, hnew⟩ := hproceeds.ready_eq
  have hserve : ∀ task service,
    .serve task service ∈ w.ready → .serve task service ∈ m.world.ready ∨
      m.world.nextTask ≤ task ∧ task < w.nextTask := by
    intro task service hmem
    rw [hready] at hmem
    exact (mem_append.1 hmem).imp_right (hnew task service)
  refine ⟨hproceeds.orderly h.orderly, fun t ht => ?_, fun task service hmem => ?_, h.loops,
    h.present, h.alone, ?_⟩
  · exact Nat.lt_of_lt_of_le (h.numbered t ht) hproceeds.nextTask_le
  · rcases hserve task service hmem with hmem | ⟨-, hlt⟩
    · exact Nat.lt_of_lt_of_le (h.queued task service hmem) hproceeds.nextTask_le
    · exact hlt
  · intro j hj service hmem
    rcases hserve j.id service hmem with hmem | ⟨hle, -⟩
    · exact h.unqueued j hj service hmem
    · exact absurd (h.numbered j (h.present j hj).1) (Nat.not_lt.2 hle)

/-- The front of the queue is taken off. -/
theorem Attends.dequeue {e : Wake} {rest : List Wake} (h : Attends m job)
    (hready : m.world.ready = e :: rest) : Attends (m.withQueue rest) job := by
  have hrest : ∀ e' ∈ rest, e' ∈ m.world.ready := fun e' he' => hready ▸ mem_cons_of_mem e he'
  refine ⟨⟨h.orderly.waiters, fun s call outcome hmem => ?_, h.orderly.tidy⟩, h.numbered, ?_,
    h.loops, h.present, h.alone, ?_⟩
  · exact h.orderly.queue s call outcome (hrest _ hmem)
  · exact fun task service hmem => h.queued task service (hrest _ hmem)
  · exact fun j hj service hmem => h.unqueued j hj service (hrest _ hmem)

theorem drifts_dequeue (w : World) (rest : List Wake) : Drifts w { w with ready := rest } :=
  drifts_of_undisturbed (undisturbed_of_parts rfl rfl rfl rfl) (Int.le_refl _) rfl fun _ => rfl

/-- A loop is added to the tasks. -/
theorem Attends.addLoop (h : Attends m job) {t : Task} (ht : IsLoop t)
    (hlt : t.id < m.world.nextTask) (hother : ∀ j, job = some j → j.id ≠ t.id) :
    Attends { m with tasks := m.tasks ++ [t] } job := by
  have hmem : ∀ u ∈ m.tasks ++ [t], u ∈ m.tasks ∨ u = t := fun u hu =>
    (mem_append.1 hu).imp_right mem_singleton.1
  refine ⟨h.orderly, fun u hu => ?_, h.queued, fun u hu => ?_, fun j hj => ?_,
    fun j hj u hu hid => ?_, h.unqueued⟩
  · rcases hmem u hu with hu | rfl
    · exact h.numbered u hu
    · exact hlt
  · rcases hmem u hu with hu | rfl
    · exact h.loops u hu
    · exact .inl ht
  · exact ⟨mem_append_left _ (h.present j hj).1, (h.present j hj).2⟩
  · rcases hmem u hu with hu | rfl
    · exact h.alone j hj u hu hid
    · exact absurd hid.symm (hother j hj)

/-- Loops are taken off the tasks. -/
theorem Attends.filter (h : Attends m job) (p : Task → Bool) (hp : ∀ j, job = some j → p j = true) :
    Attends { m with tasks := m.tasks.filter p } job where
  orderly := h.orderly
  numbered t ht := h.numbered t (mem_filter.1 ht).1
  queued := h.queued
  loops t ht := h.loops t (mem_filter.1 ht).1
  present j hj := ⟨mem_filter.2 ⟨(h.present j hj).1, hp j hj⟩, (h.present j hj).2⟩
  alone j hj t ht := h.alone j hj t (mem_filter.1 ht).1
  unqueued := h.unqueued

/-! ## Steps of the background -/

/-- The machine goes on in the background: nothing ends, and the tool that is under way stays where
it is. -/
structure Goes (m : Machine) (job : Option Task) (m' : Machine) (job' : Option Task) : Prop where
  attends : Attends m' job'
  drifts : Drifts m.world m'.world
  finished_eq : m'.finished = m.finished
  same : Option.Rel Task.Same job' job

theorem rel_same (job : Option Task) : Option.Rel Task.Same job job := by
  cases job with
  | none => exact .none
  | some j => exact .some (.refl j)

theorem Goes.of_proceeds (h : Attends m job) (hproceeds : Proceeds m.world w) :
    Goes m job { m with world := w } job :=
  ⟨h.proceed hproceeds.order, hproceeds.drifts, rfl, rel_same job⟩

theorem Goes.after {m₁ : Machine} {job' : Option Task} (h : Goes m₁ job m' job')
    (hdrifts : Drifts m.world m₁.world) (hfinished : m₁.finished = m.finished) :
    Goes m job m' job' :=
  ⟨h.attends, hdrifts.trans h.drifts, h.finished_eq.trans hfinished, h.same⟩

/-- A wait begins. -/
theorem proceeds_suspend (m : Machine) (t : Task) (on : Await) :
    Proceeds m.world (suspend m t on).world := by
  unfold suspend
  dsimp only
  split
  · exact (proceeds_giveUp _ _ on).trans (proceeds_enqueue_relay _ _ _)
  · exact proceeds_enroll _ _ on

/-- A loop goes on to its next wait or its end. -/
theorem Attends.advanceLoop (h : Attends m job) {task : Nat} {service : Service} {p : Action Ending}
    (hlt : task < m.world.nextTask) (hother : ∀ j, job = some j → j.id ≠ task)
    (hp : Obeys background p) : Goes m job (advance m task (.loop service) p) job := by
  obtain ⟨_, hproceeds, hhalt⟩ := Safe.run (D := background) (I := fun w _ => Proceeds m.world w)
    (fun w _ w' _ hw hstep => hw.trans (hstep (hw.orderly h.orderly))) (hp m.world) (.refl m.world)
  unfold advance
  generalize p.run m.world = halt at hproceeds hhalt
  obtain ⟨halt, w⟩ := halt
  have hgoes := Goes.of_proceeds h hproceeds
  cases halt with
  | finished r =>
    have hagain : Goes m job { m with world := { w with ready := .serve task service :: w.ready } }
        job := by
      have hattends := hgoes.attends
      refine ⟨⟨⟨hattends.orderly.waiters, fun s call outcome hmem => ?_, hattends.orderly.tidy⟩,
        hattends.numbered, fun task' service' hmem => ?_, hattends.loops, hattends.present,
        hattends.alone, fun j hj service' hmem => ?_⟩,
        hproceeds.drifts.trans (drifts_dequeue w _), rfl, rel_same job⟩
      · exact hattends.orderly.queue s call outcome ((mem_cons.1 hmem).resolve_left nofun)
      · rcases mem_cons.1 hmem with heq | hmem
        · cases heq
          exact Nat.lt_of_lt_of_le hlt hproceeds.order.nextTask_le
        · exact hattends.queued task' service' hmem
      · rcases mem_cons.1 hmem with heq | hmem
        · cases heq
          exact hother j hj rfl
        · exact hattends.unqueued j hj service' hmem
    have hover : Goes m job { m with world := retire w service } job :=
      Goes.of_proceeds h (hproceeds.trans (proceeds_retire w service))
    show Goes m job (finish { m with world := w } task (.loop service) r) job
    rcases finish_loop { m with world := w } task service r with ⟨-, heq⟩ | ⟨-, heq⟩
    · exact heq ▸ hagain
    · exact heq ▸ hover
  | waiting on deadline next =>
    have hsuspended :=
      hproceeds.trans (proceeds_suspend { m with world := w }
        ⟨task, .loop service, none, deadline, next⟩ on)
    refine ⟨?_, hsuspended.drifts, rfl, rel_same job⟩
    refine (h.proceed hsuspended.order).addLoop ⟨rfl, fun signal w' => ?_⟩ ?_ hother
    · exact hhalt.2 signal w' () trivial
    · exact Nat.lt_of_lt_of_le hlt hsuspended.order.nextTask_le

/-- A loop that was told of something goes on, waits again, or is no longer wanted. -/
theorem Attends.resumeLoop (h : Attends m job) {task : Nat} {t : Task} (signal : Signal)
    (hfind : m.tasks.find? (fun t => t.id = task) = some t) (ht : IsLoop t) :
    Goes m job (resume m task signal) job := by
  obtain ⟨hmem, hid⟩ := find?_spec hfind
  have hother : ∀ j, job = some j → j.id ≠ task := by
    intro j hj heq
    obtain rfl := h.alone j hj t hmem (hid.trans heq.symm)
    cases ht.role.symm.trans (h.present t hj).2
  have hack := proceeds_acknowledge m.world t
  let left : Machine :=
    { m with world := acknowledge m.world t, tasks := m.tasks.filter fun t => t.id ≠ task }
  have hleft : Attends left job :=
    (h.proceed hack.order).filter _ fun j hj => decide_eq_true (hother j hj)
  have hlt : task < left.world.nextTask :=
    Nat.lt_of_lt_of_le (hid ▸ h.numbered t hmem) hack.order.nextTask_le
  have hgo : Goes left job (advance left task t.role (t.next signal)) job := by
    obtain ⟨service, hrole⟩ : ∃ service, t.role = .loop service := by
      have hloop := ht.role
      cases hrole : t.role with
      | job index =>
        rw [hrole] at hloop
        cases hloop
      | loop service => exact ⟨service, rfl⟩
    rw [hrole]
    exact hleft.advanceLoop hlt hother (ht.next signal)
  have hagain : ∀ on, Goes left job
      { left with world := enroll left.world task on, tasks := left.tasks ++ [t] } job := by
    intro on
    have henroll := proceeds_enroll left.world task on
    have hless : t.id < (enroll left.world task on).nextTask := by
      rw [hid]
      exact Nat.lt_of_lt_of_le hlt henroll.order.nextTask_le
    exact ⟨(hleft.proceed henroll.order).addLoop ht hless fun j hj => hid ▸ hother j hj,
      henroll.drifts, rfl, rel_same job⟩
  have hresumed : Goes left job (resume m task signal) job := by
    rcases resume_of_some signal hfind with ⟨-, heq⟩ | ⟨-, ⟨c, count, -, -, heq⟩ | ⟨-, heq⟩⟩
    · exact heq ▸ ⟨hleft, .refl _, rfl, rel_same job⟩
    · exact heq ▸ hagain _
    · exact heq ▸ hgo
  exact hresumed.after hack.drifts rfl

/-- A turn goes on in the background unless it is that of the tool. -/
theorem Attends.turn {e : Wake} {rest : List Wake} (h : Attends m job)
    (hready : m.world.ready = e :: rest) : Goes m job (serve (m.withQueue rest) e) job ∨
      ∃ j signal, job = some j ∧ e = .resume j.id signal := by
  let first : Machine := m.withQueue rest
  have hfirst : Attends first job := h.dequeue hready
  have hdrifts : Drifts m.world first.world := drifts_dequeue m.world rest
  have hidle : Goes m job first job := ⟨hfirst, hdrifts, rfl, rel_same job⟩
  have hmem : e ∈ m.world.ready := hready ▸ mem_cons_self
  cases e with
  | serve task service =>
    have hround : Goes first job
        (advance first task (.loop service) (Ending.round <$> Client.serve service)) job := by
      refine hfirst.advanceLoop (h.queued task service hmem) (fun j hj heq => ?_) ?_
      · subst heq
        exact h.unqueued j hj service hmem
      · exact .bind (background_serve service) fun _ => .done _
    refine .inl ?_
    show Goes m job (if isDismissed first.world task (.loop service) then first else _) job
    split
    · exact hidle
    · exact hround.after hdrifts rfl
  | resume task signal =>
    cases hfind : m.tasks.find? fun t => t.id = task with
    | none =>
      refine .inl ?_
      show Goes m job (resume first task signal) job
      rw [resume_of_none signal (show first.tasks.find? (fun t => t.id = task) = none from hfind)]
      exact hidle
    | some t =>
      obtain ⟨ht, hid⟩ := find?_spec hfind
      rcases h.loops t ht with hloop | hjob
      · exact .inl ((hfirst.resumeLoop signal hfind hloop).after hdrifts rfl)
      · exact .inr ⟨t, signal, hjob, hid ▸ rfl⟩
  | relay task signal =>
    have htold : Goes first job
        { first with world := first.world.enqueue (.resume task signal) } job :=
      Goes.of_proceeds hfirst (proceeds_enqueue_resume _ task signal)
    exact .inl (htold.after hdrifts rfl)
  | settle s call outcome => exact absurd hmem (h.orderly.queue s call outcome)
  | skip label =>
    have htold : Goes first job
        { first with world := first.world.report (.settled label (.ok none)) } job :=
      Goes.of_proceeds hfirst (proceeds_report _ _)
    exact .inl (htold.after hdrifts rfl)

/-! ## Changes from outside -/

/-- Deadlines change. -/
theorem Attends.map (h : Attends m job) {f : Task → Task} (hf : ∀ t, (f t).Same t) :
    Attends { m with tasks := m.tasks.map f } (job.map f) := by
  refine ⟨h.orderly, fun t ht => ?_, h.queued, fun t ht => ?_, fun j hj => ?_,
    fun j hj t ht hid => ?_, fun j hj => ?_⟩
  · obtain ⟨u, hu, rfl⟩ := mem_map.1 ht
    exact (hf u).id_eq ▸ h.numbered u hu
  · obtain ⟨u, hu, rfl⟩ := mem_map.1 ht
    refine (h.loops u hu).imp (fun hloop => ?_) (congrArg (Option.map f))
    exact ⟨(hf u).role_eq ▸ hloop.role, (hf u).next_eq ▸ hloop.next⟩
  · obtain ⟨k, rfl, rfl⟩ := Option.map_eq_some_iff.1 hj
    exact ⟨mem_map_of_mem (h.present k rfl).1, (hf k).role_eq ▸ (h.present k rfl).2⟩
  · obtain ⟨k, rfl, rfl⟩ := Option.map_eq_some_iff.1 hj
    obtain ⟨u, hu, rfl⟩ := mem_map.1 ht
    refine congrArg f (h.alone k rfl u hu ?_)
    exact (hf u).id_eq.symm.trans (hid.trans (hf k).id_eq)
  · obtain ⟨k, rfl, rfl⟩ := Option.map_eq_some_iff.1 hj
    exact (hf k).id_eq ▸ h.unqueued k rfl

theorem rel_map (job : Option Task) {f : Task → Task} (hf : ∀ t, (f t).Same t) :
    Option.Rel Task.Same (job.map f) job := by
  cases job with
  | none => exact .none
  | some j => exact .some (hf j)

/-- The time of a task ran out. -/
theorem Attends.expire (h : Attends m job) (t : Task) :
    ∃ job', Goes m job (Machine.expire m t) job' := by
  have hworld : Proceeds m.world (Machine.expire m t).world := by
    unfold Machine.expire
    split
    · exact (proceeds_giveUp _ _ _).trans (proceeds_enqueue_resume _ _ _)
    · exact proceeds_enqueue_resume _ _ _
  have hsame := same_expire t.id
  exact ⟨_, (h.proceed hworld.order).map hsame, hworld.drifts, rfl, rel_map job hsame⟩

theorem Goes.trans {m₁ m₂ m₃ : Machine} {job₁ job₂ job₃ : Option Task} (h : Goes m₁ job₁ m₂ job₂)
    (h' : Goes m₂ job₂ m₃ job₃) : Goes m₁ job₁ m₃ job₃ := by
  refine ⟨h'.attends, h.drifts.trans h'.drifts, h'.finished_eq.trans h.finished_eq, ?_⟩
  have hsame' := h'.same
  have hsame := h.same
  cases hsame' with
  | none => exact hsame
  | some hfirst =>
    cases hsame with
    | some hsecond =>
      exact .some ⟨hfirst.id_eq.trans hsecond.id_eq, hfirst.role_eq.trans hsecond.role_eq,
        hfirst.await_eq.trans hsecond.await_eq, hfirst.next_eq.trans hsecond.next_eq⟩

/-- What happens to the host and leaves files and processes alone. -/
theorem proceeds_host {host : Host} (hclock : m.world.host.clock ≤ host.clock)
    (hchildren : host.children = m.world.host.children) (hdisk : host.disk = m.world.host.disk)
    (hcwd : host.cwd = m.world.host.cwd)
    (htidy : m.world.Orderly → ∀ tag rs, host.reactions.get? tag = some rs →
      ∀ r ∈ rs, r.IsTidy) : Proceeds m.world { m.world with host := host } :=
  ⟨drifts_of_undisturbed (undisturbed_of_parts rfl hdisk hcwd rfl) hclock hchildren fun _ => rfl,
    grows_of_ready (Nat.le_refl _) (Nat.le_refl _) rfl, fun h => ⟨h.waiters, h.queue, htidy h⟩⟩

theorem tidy_reactions {table : List (String × List Host.Reaction)}
    {reactions : Table String (List Host.Reaction)} (htable : ∀ e ∈ table, ∀ r ∈ e.2, r.IsTidy)
    (htidy : ∀ tag rs, reactions.get? tag = some rs → ∀ r ∈ rs, r.IsTidy) :
    ∀ tag rs, (table.foldl (fun t r => t.set r.1 r.2) reactions).get? tag = some rs →
      ∀ r ∈ rs, r.IsTidy := by
  induction table generalizing reactions with
  | nil => exact htidy
  | cons e table ih =>
    refine ih (fun e' he' => htable e' (mem_cons_of_mem e he')) fun tag rs hrs => ?_
    rw [Table.get?_set] at hrs
    split at hrs
    · obtain rfl := Option.some.inj hrs
      exact htable e mem_cons_self
    · exact htidy tag rs hrs

/-- Whatever happens from outside and leaves files alone goes on in the background. -/
theorem Attends.undergo (h : Attends m job) {change : Change} (htidy : change.IsTidy)
    (hspares : change.sparesFiles = true) : ∃ job', Goes m job (m.undergo change) job' := by
  obtain ⟨time, rfl⟩ | ⟨w, hw, host, harranges, hstirs, -⟩ := befalls_of_undergo m change
  · have hclock : Proceeds m.world
        { m.world with host := { m.world.host with clock := m.world.host.clock + time } } :=
      proceeds_host (Int.le_add_of_nonneg_right htidy) rfl rfl rfl fun horderly => horderly.tidy
    refine elapse_induction (P := fun m' => ∃ job', Goes m job m' job') time
      ⟨job, Goes.of_proceeds h hclock⟩ ?_
    rintro m₁ t ⟨job₁, hfirst⟩ -
    obtain ⟨job₂, hrest⟩ := hfirst.attends.expire t
    exact ⟨job₂, hfirst.trans hrest⟩
  · have hhost : Proceeds m.world { m.world with host := host } := by
      refine proceeds_host (Int.le_of_eq harranges.clock_eq.symm) harranges.children_eq
        (harranges.disk_eq hspares) harranges.cwd_eq fun horderly => ?_
      obtain heq | ⟨table, rfl, heq⟩ := harranges.reactions
      · exact heq ▸ horderly.tidy
      · exact heq ▸ tidy_reactions htidy horderly.tidy
    exact ⟨job, hw ▸ .of_proceeds h (hhost.trans hstirs.proceeds)⟩

/-! ## The tool that is under way -/

/-- No task has this number, and none will be given it. -/
structure Vacant (m : Machine) (id : Nat) : Prop where
  lt : id < m.world.nextTask
  tasks : ∀ t ∈ m.tasks, t.id ≠ id
  queue : ∀ service, .serve id service ∉ m.world.ready

variable {id : Nat}

theorem Vacant.proceed (h : Vacant m id) (horder : KeepsOrder m.world w) :
    Vacant { m with world := w } id := by
  refine ⟨Nat.lt_of_lt_of_le h.lt horder.nextTask_le, h.tasks, fun service hmem => ?_⟩
  obtain ⟨more, hready, hnew⟩ := horder.ready_eq
  rw [hready] at hmem
  rcases mem_append.1 hmem with hmem | hmem
  · exact h.queue service hmem
  · exact absurd h.lt (Nat.not_lt.2 (hnew id service hmem).1)

/-- The tool that is under way is taken off the tasks. -/
theorem Attends.without {j : Task} (h : Attends m (some j)) :
    Attends { m with tasks := m.tasks.filter fun t => t.id ≠ j.id } none ∧
      Vacant { m with tasks := m.tasks.filter fun t => t.id ≠ j.id } j.id := by
  have hmem : ∀ t ∈ m.tasks.filter (fun t => t.id ≠ j.id), t ∈ m.tasks ∧ t.id ≠ j.id := fun t ht =>
    ⟨(mem_filter.1 ht).1, of_decide_eq_true (mem_filter.1 ht).2⟩
  refine ⟨⟨h.orderly, fun t ht => h.numbered t (hmem t ht).1, h.queued, fun t ht => ?_, nofun,
    nofun, nofun⟩, h.numbered j (h.present j rfl).1, fun t ht => (hmem t ht).2, h.unqueued j rfl⟩
  refine (h.loops t (hmem t ht).1).imp_right fun hjob => ?_
  obtain rfl := Option.some.inj hjob
  exact absurd rfl (hmem j ht).2

/-- A tool is put among the tasks. -/
theorem Attends.enter {j : Task} (h : Attends m none) (hvacant : Vacant m j.id)
    (hasks : j.role.asks = true) : Attends { m with tasks := m.tasks ++ [j] } (some j) := by
  have hmem : ∀ t ∈ m.tasks ++ [j], t ∈ m.tasks ∨ t = j := fun t ht =>
    (mem_append.1 ht).imp_right mem_singleton.1
  refine ⟨h.orderly, fun t ht => ?_, h.queued, fun t ht => ?_, fun k hk => ?_,
    fun k hk t ht hid => ?_, fun k hk => ?_⟩
  · rcases hmem t ht with ht | rfl
    · exact h.numbered t ht
    · exact hvacant.lt
  · rcases hmem t ht with ht | rfl
    · exact .inl ((h.loops t ht).resolve_right nofun)
    · exact .inr rfl
  · obtain rfl := Option.some.inj hk
    exact ⟨mem_concat_self, hasks⟩
  · obtain rfl := Option.some.inj hk
    exact (hmem t ht).resolve_left fun ht => hvacant.tasks t ht hid
  · obtain rfl := Option.some.inj hk
    exact hvacant.queue

/-- What becomes of a tool that goes on: it ends, or it waits again. -/
inductive Step (m : Machine) (index : Nat) (p : Action Ending) : Machine → Prop where
  | ends {r : Result Ending} {w : World} (hrun : p.run m.world = (.finished r, w))
    (hattends : Attends { m with world := w } none) :
    Step m index p { m with world := w, finished := m.finished ++ [(index, Ending.told r)] }
  | waits {on : Await} {deadline : Option Int} {next : Signal → Action Ending} {w : World}
    {m' : Machine} {j : Task} (hrun : p.run m.world = (.waiting on deadline next, w))
    (hattends : Attends m' (some j)) (hawait : j.await = some on)
    (hnext : j.next = next) (hdrifts : Drifts w m'.world) (hfinished : m'.finished = m.finished) :
    Step m index p m'

theorem Attends.advanceJob (hm : Attends m none) (hvacant : Vacant m id) (index : Nat)
    {p : Action Ending} {h : List Pause} (hp : Safe following p (fun _ _ _ => True) m.world h) :
    Step m index p (advance m id (.job index) p) := by
  obtain ⟨-, horder, -⟩ := Safe.run (D := following) (I := fun w _ => KeepsOrder m.world w)
    (fun w _ w' _ hw hstep => hw.trans hstep.2) hp (.refl m.world)
  cases hrun : p.run m.world with
  | mk halt w =>
    rw [hrun] at horder
    have hattends := hm.proceed horder
    unfold advance
    rw [hrun]
    cases halt with
    | finished r =>
      show Step m index p (finish { m with world := w } id (.job index) r)
      rw [finish_job]
      exact .ends hrun hattends
    | waiting on deadline next =>
      have hsuspend :=
        proceeds_suspend { m with world := w } ⟨id, .job index, none, deadline, next⟩ on
      have hentered :=
        (hattends.proceed hsuspend.order).enter
          (j := { (⟨id, .job index, none, deadline, next⟩ : Task) with
        await := some on, deadline := if deadline.any (· ≤ w.host.clock) then none else deadline })
        ((hvacant.proceed horder).proceed hsuspend.order) rfl
      exact .waits hrun hentered rfl rfl hsuspend.drifts rfl

end Machine

end IdeMode
