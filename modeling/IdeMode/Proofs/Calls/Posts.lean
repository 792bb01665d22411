import IdeMode.Proofs.Calls.Attendance
import IdeMode.Proofs.Calls.Tasks
set_option autoImplicit false

/-!
# Readers at their posts

While a session has a reader, the reader is queued, or listens to a process that has not sent what
it waits for, or waits for the exit of the process. A task that runs leaves every other reader at
its post, and if it is the reader itself it comes back to its post or leaves no call behind. This
holds as long as no two tasks wait for the output of one process: a task that ceases to wait keeps
any other from being told.
-/

namespace IdeMode

open Client Prog World List

/-! ## Tasks that begin and cease to wait -/

variable {on : Await}

namespace World

/-- Tasks begin or cease to wait; calls and the queue are not touched. -/
structure Adjusts (s : Nat) (w w' : World) : Prop where
  length_eq : w'.sessions.length = w.sessions.length
  nextTask_eq : w'.nextTask = w.nextTask
  ready_eq : w'.ready = w.ready
  reader_eq : (w'.session s).dispatch.reader = (w.session s).dispatch.reader
  pending_eq : (w'.session s).dispatch.pending = (w.session s).dispatch.pending
  proper : w.host.Proper → w'.host.Proper

variable {s : Nat} {w w' : World}

theorem adjusts_modifyDispatch {t : Nat} {f : Dispatch → Dispatch}
    (hreader : ∀ d, (f d).reader = d.reader) (hpending : ∀ d, (f d).pending = d.pending)
    (w : World) : Adjusts s w (w.modifyDispatch t f) where
  length_eq := length_modifySession w t _
  nextTask_eq := rfl
  ready_eq := rfl
  reader_eq := session_modifySession_feature (fun session => session.dispatch.reader) (hreader _) s
  pending_eq := session_modifySession_feature (fun session => session.dispatch.pending)
    (hpending _) s
  proper := id

theorem adjusts_modifyChild {c : Nat} {f : Host.Child → Host.Child}
    (hf : ∀ child, child.Proper → (f child).Proper) (w : World) : Adjusts s w (w.modifyChild c f) :=
  ⟨rfl, rfl, rfl, rfl, rfl, forall_child_modifyChild c hf⟩

theorem proper_listen {child : Host.Child} (h : child.Proper) (task : Nat) :
    (child.listen task).Proper := by
  refine ⟨h.ended, fun task' htask => ?_⟩
  obtain rfl := Option.some.inj htask
  exact mem_concat_self

theorem proper_leave {child : Host.Child} (h : child.Proper) (task : Nat) :
    (child.leave task).Proper := by
  unfold Host.Child.leave
  split
  · exact ⟨h.ended, nofun⟩
  · exact h

theorem adjusts_enroll (w : World) (task : Nat) (on : Await) :
    Adjusts s w (Machine.enroll w task on) := by
  unfold Machine.enroll
  cases on with
  | outcome t call =>
    refine adjusts_modifyDispatch ?_ ?_ w <;> exact fun _ => rfl
  | output c count => exact adjusts_modifyChild (fun _ h => proper_listen h task) w
  | exit c =>
    refine adjusts_modifyChild ?_ w
    exact fun _ h => h.of_eq rfl rfl rfl rfl
  | outbox t =>
    refine adjusts_modifyDispatch ?_ ?_ w <;> exact fun _ => rfl

theorem adjusts_giveUp (w : World) (task : Nat) (on : Await) :
    Adjusts s w (Machine.giveUp w task on) := by
  unfold Machine.giveUp
  cases on with
  | outcome t call =>
    refine adjusts_modifyDispatch ?_ ?_ w <;> exact fun _ => rfl
  | output c count => exact adjusts_modifyChild (fun _ h => proper_leave h task) w
  | exit c =>
    refine adjusts_modifyChild ?_ w
    exact fun _ h => h.of_eq rfl rfl rfl rfl
  | outbox t =>
    refine adjusts_modifyDispatch ?_ ?_ w <;> exact fun _ => rfl

theorem uncrowded_leave (c task : Nat) (h : w.host.Uncrowded) :
    (w.modifyChild c fun child => child.leave task).host.Uncrowded := by
  refine forall_child_modifyChild c (fun child hlength => ?_) h
  unfold Host.Child.leave
  split
  · exact Nat.le_trans length_erase_le hlength
  · exact hlength

theorem uncrowded_giveUp (task : Nat) (on : Await) (h : w.host.Uncrowded) :
    (Machine.giveUp w task on).host.Uncrowded := by
  cases on with
  | outcome t call => exact h
  | output c count => exact uncrowded_leave c task h
  | exit c => exact forall_child_modifyChild c (fun _ hlength => hlength) h
  | outbox t => exact h

/-- What a reader depends on is kept: it stays queued, and it goes on listening or is queued. -/
structure Respects (s reader : Nat) (w w' : World) : Prop where
  serve : .serve reader (.reader s) ∈ w.ready → .serve reader (.reader s) ∈ w'.ready
  rouses : w.Rouses reader → w'.Rouses reader
  listens : ∀ c count, w.Listens c count reader → w'.Listens c count reader ∨ w'.Rouses reader

variable {reader task : Nat}

theorem Heeds.respects (h : Heeds s w w') : Respects s reader w w' where
  serve := h.mem_ready
  rouses := h.toGrows.rouses
  listens _ _ hlistens := (h.alerts.listens hlistens).imp_right fun hmem => ⟨.woken, .inl hmem⟩

theorem respects_of_ready (hready : w'.ready = w.ready)
    (hlistens : ∀ c count, w.Listens c count reader → w'.Listens c count reader) :
    Respects s reader w w' where
  serve hmem := hready ▸ hmem
  rouses := fun ⟨signal, hmem⟩ => ⟨signal, hready ▸ hmem⟩
  listens c count h := .inl (hlistens c count h)

theorem Respects.trans {w₁ w₂ w₃ : World} (h : Respects s reader w₁ w₂)
    (h' : Respects s reader w₂ w₃) : Respects s reader w₁ w₃ where
  serve hmem := h'.serve (h.serve hmem)
  rouses hroused := h'.rouses (h.rouses hroused)
  listens c count hlistens := by
    obtain hlistens | hroused := h.listens c count hlistens
    · exact h'.listens c count hlistens
    · exact .inr (h'.rouses hroused)

theorem respects_watchers (w : World) (c : Nat) (f : List Nat → List Nat) :
    Respects s reader w (w.modifyChild c
      fun child => { child with watchers := f child.watchers }) := by
  refine Heeds.respects (.of_dispatch (grows_of_ready (Nat.le_refl _) (Nat.le_refl _) rfl) ?_
    (.of_ready rfl) rfl)
  exact alerts_modifyChild w c (fun _ => rfl) (fun child => ⟨rfl, Nat.le_refl _, rfl⟩) fun _ => rfl

theorem eq_of_mem_of_length_le_one {l : List Nat} (h : l.length ≤ 1) {a b : Nat} (ha : a ∈ l)
    (hb : b ∈ l) : a = b := by
  match l with
  | [only] => exact (mem_singleton.1 ha).trans (mem_singleton.1 hb).symm
  | _ :: _ :: _ => exact absurd h (by simp)

/-- Where only one task waits for the output of a process, another that ceases to wait does not
disturb it. -/
theorem respects_leave (hproper : w.host.Proper) (huncrowded : w.host.Uncrowded)
    (hne : reader ≠ task) (c : Nat) :
    Respects s reader w (w.modifyChild c fun child => child.leave task) := by
  refine respects_of_ready rfl ?_
  rintro k count ⟨child, hchild, hlistener, hcount⟩
  by_cases hck : c = k
  · subst hck
    have hmem := (hproper c child hchild).listener reader hlistener
    have habsent : ¬ child.readers.contains task = true := by
      intro hcontains
      exact hne (eq_of_mem_of_length_le_one (huncrowded c child hchild) hmem
        (contains_iff_mem.1 hcontains))
    refine ⟨child.leave task, by rw [child?_modifyChild, hchild, Option.map_some], ?_, ?_⟩
    all_goals
      unfold Host.Child.leave
      rw [if_neg habsent]
      assumption
  · exact ⟨child, (child?_modifyChild_of_ne hck w _).trans hchild, hlistener, hcount⟩

/-- Where afterwards only one task waits for the output of a process, it did not displace
another. -/
theorem respects_listen (hproper : w.host.Proper) {c : Nat}
    (huncrowded : (w.modifyChild c fun child => child.listen task).host.Uncrowded) :
    Respects s reader w (w.modifyChild c fun child => child.listen task) := by
  refine respects_of_ready rfl ?_
  rintro k count ⟨child, hchild, hlistener, hcount⟩
  by_cases hck : c = k
  · subst hck
    have hafter :=
      huncrowded c (child.listen task) (by rw [child?_modifyChild, hchild, Option.map_some])
    have hmem := length_pos_of_mem ((hproper c child hchild).listener reader hlistener)
    rw [Host.Child.listen, length_append, length_singleton] at hafter
    omega
  · exact ⟨child, (child?_modifyChild_of_ne hck w _).trans hchild, hlistener, hcount⟩

theorem respects_enroll (hproper : w.host.Proper)
    (huncrowded : (Machine.enroll w task on).host.Uncrowded) :
    Respects s reader w (Machine.enroll w task on) := by
  cases on with
  | outcome t call => exact respects_of_ready rfl fun _ _ h => h
  | output c count => exact respects_listen hproper huncrowded
  | exit c => exact respects_watchers w c fun watchers => watchers ++ [task]
  | outbox t => exact respects_of_ready rfl fun _ _ h => h

theorem respects_giveUp (hproper : w.host.Proper) (huncrowded : w.host.Uncrowded)
    (hne : reader ≠ task) (on : Await) : Respects s reader w (Machine.giveUp w task on) := by
  cases on with
  | outcome t call => exact respects_of_ready rfl fun _ _ h => h
  | output c count => exact respects_leave hproper huncrowded hne c
  | exit c => exact respects_watchers w c fun watchers => watchers.filter fun t => t ≠ task
  | outbox t => exact respects_of_ready rfl fun _ _ h => h

/-- A continuation runs. -/
theorem heeds_settle (w : World) (t : Nat) (addressee : Addressee) (outcome : Outcome) :
    Heeds s w (w.settle t addressee outcome) ∧
      ((w.settle t addressee outcome).session s).dispatch.reader =
        (w.session s).dispatch.reader := by
  unfold settle
  split
  · exact ⟨.report w _, rfl⟩
  · exact ⟨.report w _, rfl⟩
  · next d generation r =>
    have hrecord : Heeds s w (w.modifySession t fun session => session.recordLoad d generation) :=
      heeds_modifySession_of_eq (dispatch_recordLoad _ d generation)
    refine ⟨hrecord.trans (.report _ _), ?_⟩
    exact congrArg Dispatch.reader (session_modifySession_feature Session.dispatch
      (f := fun session => session.recordLoad d generation) (dispatch_recordLoad _ d generation) s)
  · next d _ fault =>
    have hannounced : Heeds s w (w.loadFault t ((w.session t).buffer d).path fault).2 ∧
        ((w.loadFault t ((w.session t).buffer d).path fault).2.session s).dispatch =
          (w.session s).dispatch := by
      unfold loadFault
      split
      · exact ⟨.of_dispatch (grows_of_ready (Nat.le_refl _) (Nat.le_refl _) rfl)
          (alerts_of_children rfl fun _ he => he) (.of_ready rfl) rfl, rfl⟩
      · exact ⟨.refl w, rfl⟩
    exact ⟨hannounced.1.trans (.report _ _), congrArg Dispatch.reader hannounced.2⟩
  · exact ⟨.refl w, rfl⟩

/-! ## A session that is looked after -/

/-- Where calls are pending there is a reader, processes are in order, and the loops that are queued
are those of the session. -/
structure Tended (s : Nat) (w : World) : Prop where
  present : s < w.sessions.length
  attended : w.Attended s
  proper : w.host.Proper
  uncrowded : w.host.Uncrowded
  serves : ∀ task service, .serve task service ∈ w.ready → service = .reader s ∨ service = .writer s
  numbers : ∀ task service, .serve task service ∈ w.ready → task < w.nextTask

theorem Tended.heeds (h : Tended s w) (hheeds : Heeds s w w') : Tended s w' where
  present := Nat.lt_of_lt_of_le h.present hheeds.length_le
  attended := hheeds.attended h.attended
  proper := hheeds.alerts.proper h.proper
  uncrowded := hheeds.alerts.uncrowded h.uncrowded
  serves task service hmem := (hheeds.serves task service hmem).elim (h.serves task service) id
  numbers task service hmem := by
    obtain ⟨more, hready, hserve⟩ := hheeds.ready_eq
    rw [hready] at hmem
    obtain hmem | hmem := mem_append.1 hmem
    · exact Nat.lt_of_lt_of_le (h.numbers task service hmem) hheeds.nextTask_le
    · exact (hserve task service hmem).2

theorem Tended.adjusts (h : Tended s w) (hadjusts : Adjusts s w w')
    (huncrowded : w'.host.Uncrowded) : Tended s w' where
  present := hadjusts.length_eq ▸ h.present
  attended := by
    unfold Attended
    rw [hadjusts.pending_eq, hadjusts.reader_eq]
    exact h.attended
  proper := hadjusts.proper h.proper
  uncrowded := huncrowded
  serves task service hmem := h.serves task service (hadjusts.ready_eq ▸ hmem)
  numbers task service hmem :=
    hadjusts.nextTask_eq ▸ h.numbers task service (hadjusts.ready_eq ▸ hmem)

/-- Entries leave the queue. -/
theorem Tended.dequeue (h : Tended s w) {rest : List Wake} (hrest : ∀ e ∈ rest, e ∈ w.ready) :
    Tended s { w with ready := rest } :=
  { h with
    serves := fun task service hmem => h.serves task service (hrest _ hmem)
    numbers := fun task service hmem => h.numbers task service (hrest _ hmem) }

end World

/-- A task that reads stands where it hears of the end of the output: it is queued or listens, or
waits for the exit of the process. -/
def Task.Stands (w : World) (t : Task) : Prop :=
  match t.await with
  | some (.output c count) => w.Rouses t.id ∨ w.Listens c count t.id
  | some (.exit _) => True
  | _ => False

/-- The reader of a session is at its post. -/
def Stationed (s : Nat) (w : World) (tasks : List Task) (reader : Nat) : Prop :=
  .serve reader (.reader s) ∈ w.ready ∨ ∃ t ∈ tasks, t.id = reader ∧ t.Stands w

/-- The number of a reader is its own. -/
structure Reserved (s : Nat) (w : World) (tasks : List Task) (reader : Nat) : Prop where
  lt : reader < w.nextTask
  task : ∀ t ∈ tasks, t.id = reader → t.role = .loop (.reader s)
  serve : ∀ service, .serve reader service ∈ w.ready → service = .reader s

/-- A round of the reader leaves no call pending if it is the last one, or it ends with a fault. -/
def ReaderEnds (s : Nat) (r : Result Ending) (w : World) (_ : Unit) : Prop :=
  r = .ok (.round .again) ∨ (∃ fault, r = .error fault) ∨ Clear s w

/-- The program of a task keeps the calls of a session attended. -/
def Keeps (s : Nat) (role : Role) (p : Action Ending) (w : World) : Prop :=
  if role = .loop (.reader s) then Safe (reading s) p (ReaderEnds s) w ()
  else Safe (heeding s) p (fun _ _ _ => True) w ()

/-- Whenever a task goes on it keeps the calls attended; if it reads and waited for an exit, no call
may be pending. -/
def Task.Dutiful (s : Nat) (t : Task) : Prop :=
  ∀ signal w, (t.role = .loop (.reader s) → ∀ c, t.await = some (.exit c) → Clear s w) →
    Keeps s t.role (t.next signal) w

variable {s : Nat} {w w' : World} {tasks tasks' : List Task} {reader : Nat}

theorem Stationed.respects (h : Stationed s w tasks reader) (hrespects : Respects s reader w w')
    (htasks : ∀ t ∈ tasks, t.id = reader → ∃ t' ∈ tasks', t'.id = t.id ∧ t'.await = t.await) :
    Stationed s w' tasks' reader := by
  obtain hserve | ⟨t, ht, rfl, hstands⟩ := h
  · exact .inl (hrespects.serve hserve)
  · obtain ⟨t', ht', hid, hawait⟩ := htasks t ht rfl
    refine .inr ⟨t', ht', hid, ?_⟩
    unfold Task.Stands at hstands ⊢
    rw [hawait, hid]
    split at hstands
    · exact hstands.elim (fun hroused => .inl (hrespects.rouses hroused)) fun hlistens =>
        (hrespects.listens _ _ hlistens).symm
    · trivial
    · exact hstands

theorem Reserved.of_le (h : Reserved s w tasks reader) (hnext : w.nextTask ≤ w'.nextTask)
    (hserve : ∀ service, .serve reader service ∈ w'.ready → .serve reader service ∈ w.ready)
    (htasks : ∀ t ∈ tasks', t.id = reader → t ∈ tasks ∨ t.role = .loop (.reader s)) :
    Reserved s w' tasks' reader where
  lt := Nat.lt_of_lt_of_le h.lt hnext
  task t ht hid := (htasks t ht hid).elim (fun ht => h.task t ht hid) id
  serve service hmem := h.serve service (hserve service hmem)

/-- Up to its end or its next wait the program of a task keeps the calls attended. -/
theorem Keeps.run {role : Role} {p : Action Ending} (h : Keeps s role p w)
    (hs : s < w.sessions.length) : Heeds s w (p.run w).2 ∧
      match (p.run w).1 with
      | .finished r => role = .loop (.reader s) → ReaderEnds s r (p.run w).2 ()
      | .waiting on _ next => (role = .loop (.reader s) → (reading s).Pause on (p.run w).2 ()) ∧
        ∀ signal w', (role = .loop (.reader s) → ∀ c, some on = some (.exit c) → Clear s w') →
          Keeps s role (next signal) w' := by
  have hstep : ∀ w₁ w₂, Heeds s w w₁ → (s < w₁.sessions.length → Heeds s w₁ w₂) → Heeds s w w₂ :=
    fun w₁ w₂ hw hnext => hw.trans (hnext (Nat.lt_of_lt_of_le hs hw.length_le))
  unfold Keeps at h ⊢
  by_cases hrole : role = .loop (.reader s)
  · rw [if_pos hrole] at h
    simp only [if_pos hrole]
    obtain ⟨_, hheeds, hend⟩ :=
      Safe.run (I := fun w' _ => Heeds s w w') (fun w₁ _ w₂ _ => hstep w₁ w₂) h (.refl w)
    refine ⟨hheeds, ?_⟩
    cases hhalt : (p.run w).1 with
    | finished r =>
      rw [hhalt] at hend
      exact fun _ => hend
    | waiting on deadline next =>
      rw [hhalt] at hend
      exact ⟨fun _ => hend.1, fun signal w' hclear =>
        hend.2 signal w' () fun c hon => hclear hrole c (congrArg some hon)⟩
  · rw [if_neg hrole] at h
    simp only [if_neg hrole]
    obtain ⟨_, hheeds, hend⟩ :=
      Safe.run (I := fun w' _ => Heeds s w w') (fun w₁ _ w₂ _ => hstep w₁ w₂) h (.refl w)
    refine ⟨hheeds, ?_⟩
    cases hhalt : (p.run w).1 with
    | finished r => exact fun hreads => absurd hreads hrole
    | waiting on deadline next =>
      rw [hhalt] at hend
      exact ⟨fun hreads => absurd hreads hrole, fun signal w' _ => hend.2 signal w' () trivial⟩

namespace Machine

/-- Every reader that a session has is at its post, and every task does its duty. -/
structure Minded (s : Nat) (m : Machine) : Prop where
  tended : m.world.Tended s
  loops :
    ∀ t ∈ m.tasks, ∀ service, t.role = .loop service → service = .reader s ∨ service = .writer s
  dutiful : ∀ t ∈ m.tasks, t.Dutiful s
  ids : ∀ t ∈ m.tasks, t.id < m.world.nextTask
  reserved : ∀ reader, (m.world.session s).dispatch.reader = some reader →
    Reserved s m.world m.tasks reader
  stationed : ∀ reader, (m.world.session s).dispatch.reader = some reader →
    Stationed s m.world m.tasks reader

/-- A task is about to run, and all but that task are as they should be. -/
structure Entrusts (s : Nat) (m : Machine) (task : Nat) (role : Role) : Prop where
  tended : m.world.Tended s
  loops :
    ∀ t ∈ m.tasks, ∀ service, t.role = .loop service → service = .reader s ∨ service = .writer s
  dutiful : ∀ t ∈ m.tasks, t.Dutiful s
  ids : ∀ t ∈ m.tasks, t.id < m.world.nextTask
  lt : task < m.world.nextTask
  loop : ∀ service, role = .loop service → service = .reader s ∨ service = .writer s
  reserved : ∀ reader, (m.world.session s).dispatch.reader = some reader →
    Reserved s m.world m.tasks reader
  itself : (m.world.session s).dispatch.reader = some task → role = .loop (.reader s)
  stationed : ∀ reader, (m.world.session s).dispatch.reader = some reader → reader ≠ task →
    Stationed s m.world m.tasks reader

variable {m : Machine} {task : Nat} {role : Role}

/-- What the program of a task does. -/
theorem Entrusts.heeds (h : Entrusts s m task role) (hheeds : Heeds s m.world w) :
    Entrusts s { m with world := w } task role := by
  have hreader : ∀ reader, (w.session s).dispatch.reader = some reader →
      (m.world.session s).dispatch.reader = some reader ∨ Recruits s m.world w reader := by
    intro reader hreader
    obtain hsame | hnone | ⟨new, hnew, hrecruits⟩ := hheeds.reader
    · exact .inl (hsame ▸ hreader)
    · exact absurd (hreader.symm.trans hnone) (Option.some_ne_none _)
    · obtain rfl := Option.some.inj (hnew.symm.trans hreader)
      exact .inr hrecruits
  refine ⟨h.tended.heeds hheeds, h.loops, h.dutiful, fun t ht => ?_, ?_, h.loop, ?_, ?_, ?_⟩
  · exact Nat.lt_of_lt_of_le (h.ids t ht) hheeds.nextTask_le
  · exact Nat.lt_of_lt_of_le h.lt hheeds.nextTask_le
  · intro reader hsome
    obtain hold | hnew := hreader reader hsome
    · have hreserved := h.reserved reader hold
      exact hreserved.of_le hheeds.nextTask_le
        (fun service => hheeds.toGrows.serve_of_lt hreserved.lt) fun t ht _ => .inl ht
    · refine ⟨hnew.lt, fun t ht hid => ?_, fun service hmem => ?_⟩
      · exact absurd (hid ▸ h.ids t ht) (Nat.not_lt.2 hnew.new)
      · refine (hnew.own service hmem).resolve_left fun hmem => ?_
        exact Nat.not_lt.2 hnew.new (h.tended.numbers reader service hmem)
  · intro hsome
    obtain hold | hnew := hreader task hsome
    · exact h.itself hold
    · exact absurd h.lt (Nat.not_lt.2 hnew.new)
  · intro reader hsome hne
    obtain hold | hnew := hreader reader hsome
    · exact (h.stationed reader hold hne).respects hheeds.respects fun t ht _ => ⟨t, ht, rfl, rfl⟩
    · exact .inl hnew.queued

theorem Entrusts.adjusts (h : Entrusts s m task role) (hadjusts : Adjusts s m.world w)
    (huncrowded : w.host.Uncrowded)
    (hrespects : ∀ reader, reader ≠ task → Respects s reader m.world w) :
    Entrusts s { m with world := w } task role := by
  have hreader : ∀ reader, (w.session s).dispatch.reader = some reader →
      (m.world.session s).dispatch.reader = some reader :=
      fun reader hreader => hadjusts.reader_eq ▸ hreader
  refine ⟨h.tended.adjusts hadjusts huncrowded, h.loops, h.dutiful, fun t ht => ?_, ?_,
    h.loop, ?_, ?_, ?_⟩
  · exact hadjusts.nextTask_eq ▸ h.ids t ht
  · exact hadjusts.nextTask_eq ▸ h.lt
  · intro reader hsome
    exact (h.reserved reader (hreader reader hsome)).of_le (Nat.le_of_eq hadjusts.nextTask_eq.symm)
      (fun _ hmem => hadjusts.ready_eq ▸ hmem) fun t ht _ => .inl ht
  · exact fun hsome => h.itself (hreader task hsome)
  · intro reader hsome hne
    exact (h.stationed reader (hreader reader hsome) hne).respects (hrespects reader hne)
      fun t ht _ => ⟨t, ht, rfl, rfl⟩

/-- A task that does not read for the session may just go away. -/
theorem Entrusts.minded (h : Entrusts s m task role)
    (hnot : (m.world.session s).dispatch.reader ≠ some task) : Minded s m := by
  refine ⟨h.tended, h.loops, h.dutiful, h.ids, h.reserved,
    fun reader hsome => h.stationed reader hsome ?_⟩
  rintro rfl
  exact hnot hsome

/-- A task begins to wait. If it reads for the session, it stands where it hears of the end. -/
theorem Entrusts.wait (h : Entrusts s m task role) {t : Task} (hid : t.id = task)
    (hrole : t.role = role) (hdutiful : t.Dutiful s)
    (hstands : role = .loop (.reader s) → t.Stands m.world) :
    Minded s { m with tasks := m.tasks ++ [t] } := by
  have hmem : ∀ {P : Task → Prop}, (∀ u ∈ m.tasks, P u) → P t → ∀ u ∈ m.tasks ++ [t], P u := by
    intro P hold hnew u hu
    obtain hu | hu := mem_append.1 hu
    · exact hold u hu
    · exact mem_singleton.1 hu ▸ hnew
  refine ⟨h.tended, hmem h.loops ?_, hmem h.dutiful hdutiful, hmem h.ids ?_, ?_, ?_⟩
  · exact hrole ▸ h.loop
  · exact hid ▸ h.lt
  · intro reader hsome
    have hreserved := h.reserved reader hsome
    refine ⟨hreserved.lt, hmem hreserved.task fun hreader => ?_, hreserved.serve⟩
    exact hrole.trans (h.itself (by rw [hsome, ← hreader, hid]))
  · intro reader hsome
    by_cases hne : reader = task
    · subst hne
      exact .inr ⟨t, mem_concat_self, hid, hstands (h.itself hsome)⟩
    · exact (h.stationed reader hsome hne).respects (respects_of_ready rfl fun _ _ h => h)
        fun u hu _ => ⟨u, mem_append_left _ hu, rfl, rfl⟩

theorem Entrusts.enroll (h : Entrusts s m task role)
    (huncrowded : (Machine.enroll m.world task on).host.Uncrowded) :
    Entrusts s { m with world := Machine.enroll m.world task on } task role :=
  h.adjusts (adjusts_enroll m.world task on) huncrowded
    fun _ _ => respects_enroll h.tended.proper huncrowded

theorem Entrusts.giveUp (h : Entrusts s m task role) (on : Await) :
    Entrusts s { m with world := Machine.giveUp m.world task on } task role :=
  h.adjusts (adjusts_giveUp m.world task on)
      (uncrowded_giveUp task on h.tended.uncrowded) fun _ hne =>
    respects_giveUp h.tended.proper h.tended.uncrowded hne on

/-- A reader that begins to wait for output listens. -/
theorem stands_enroll {t : Task} (hawait : t.await = some on) (hpause : (reading s).Pause on w ()) :
    t.Stands (Machine.enroll w t.id on) := by
  unfold Task.Stands
  rw [hawait]
  cases on with
  | output c count =>
    obtain ⟨child, hchild, hcount⟩ := hpause
    exact .inr
      ⟨child.listen t.id, by rw [Machine.enroll, child?_modifyChild, hchild, Option.map_some], rfl,
        hcount⟩
  | exit c => trivial
  | outcome _ _ => exact hpause.elim
  | outbox _ => exact hpause.elim

theorem Entrusts.suspend (h : Entrusts s m task role) {deadline : Option Int}
    {next : Signal → Action Ending}
    (hnext : ∀ signal w, (role = .loop (.reader s) → ∀ c, some on = some (.exit c) → Clear s w) →
      Keeps s role (next signal) w)
    (hpause : role = .loop (.reader s) → (reading s).Pause on m.world ())
    (huncrowded : (Machine.suspend m ⟨task, role, none, deadline, next⟩ on).world.host.Uncrowded) :
    Minded s (Machine.suspend m ⟨task, role, none, deadline, next⟩ on) := by
  unfold Machine.suspend at huncrowded ⊢
  dsimp only at huncrowded ⊢
  split
  · next hexpired =>
    have hgone := (h.giveUp on).heeds (heeds_enqueue (e := .relay task .expired) (by nofun) _)
    refine hgone.wait rfl rfl hnext fun hreads => ?_
    cases on with
    | output c count => exact .inl ⟨.expired, .inr mem_concat_self⟩
    | exit c => trivial
    | outcome _ _ => exact (hpause hreads).elim
    | outbox _ => exact (hpause hreads).elim
  · next hexpired =>
    rw [if_neg hexpired] at huncrowded
    exact (h.enroll huncrowded).wait rfl rfl hnext fun hreads => stands_enroll rfl (hpause hreads)

/-- The next round of a loop is queued in front of everything else. -/
theorem Entrusts.again {service : Service} (h : Entrusts s m task (.loop service)) : Minded s
      { m with world := { m.world with ready := .serve task service :: m.world.ready } } := by
  have hservice : (m.world.session s).dispatch.reader = some task → service = .reader s :=
      fun hsome => by
    cases h.itself hsome
    rfl
  refine ⟨⟨h.tended.present, h.tended.attended, h.tended.proper, h.tended.uncrowded, ?_, ?_⟩,
    h.loops, h.dutiful, h.ids, ?_, ?_⟩
  · intro task' service' hmem
    obtain hmem | hmem := mem_cons.1 hmem
    · cases hmem
      exact h.loop service rfl
    · exact h.tended.serves task' service' hmem
  · intro task' service' hmem
    obtain hmem | hmem := mem_cons.1 hmem
    · cases hmem
      exact h.lt
    · exact h.tended.numbers task' service' hmem
  · intro reader hsome
    have hreserved := h.reserved reader hsome
    refine ⟨hreserved.lt, hreserved.task, fun service' hmem => ?_⟩
    obtain hmem | hmem := mem_cons.1 hmem
    · cases hmem
      exact hservice hsome
    · exact hreserved.serve service' hmem
  · intro reader hsome
    by_cases hne : reader = task
    · subst hne
      exact .inl (hservice hsome ▸ mem_cons_self)
    · refine (h.stationed reader hsome hne).respects ⟨mem_cons_of_mem _, ?_, fun _ _ h => .inl h⟩
        fun t ht _ => ⟨t, ht, rfl, rfl⟩
      rintro ⟨signal, hmem⟩
      exact ⟨signal, hmem.imp (mem_cons_of_mem _) (mem_cons_of_mem _)⟩

/-- A loop is over. If it is the reader, nothing is left to read for. -/
theorem Entrusts.retire {service : Service} (h : Entrusts s m task (.loop service))
    (hclear : service = .reader s → Clear s m.world) :
    Minded s { m with world := Machine.retire m.world service } := by
  obtain rfl | rfl := h.loop service rfl
  · have hgone : ((Machine.retire m.world (.reader s)).session s).dispatch.reader = none := by
      unfold Machine.retire modifyDispatch
      rw [session_modifySession_self h.tended.present]
    refine ⟨⟨?_, .inl ?_, h.tended.proper, h.tended.uncrowded, h.tended.serves, h.tended.numbers⟩,
      h.loops, h.dutiful, h.ids, ?_, ?_⟩
    · exact (length_modifySession m.world s _).symm ▸ h.tended.present
    · exact (session_modifySession_feature (fun session => session.dispatch.pending) rfl s).trans
        (hclear rfl)
    · exact fun reader hsome => absurd (hsome.symm.trans hgone) (Option.some_ne_none _)
    · exact fun reader hsome => absurd (hsome.symm.trans hgone) (Option.some_ne_none _)
  · have hadjusts : Adjusts s m.world (Machine.retire m.world (.writer s)) := by
      unfold Machine.retire
      refine adjusts_modifyDispatch ?_ ?_ _ <;> exact fun _ => rfl
    refine (h.adjusts hadjusts h.tended.uncrowded
      fun _ _ => respects_of_ready rfl fun _ _ h => h).minded fun hsome => ?_
    cases h.itself (hadjusts.reader_eq ▸ hsome)

theorem Entrusts.finish (h : Entrusts s m task role) {r : Result Ending}
    (hend : role = .loop (.reader s) → r = .ok (.round .again) ∨ Clear s m.world) :
    Minded s (Machine.finish m task role r) := by
  cases role with
  | job index =>
    have hminded := h.minded fun hsome => Role.noConfusion (h.itself hsome)
    rw [Machine.finish_job]
    exact ⟨hminded.tended, hminded.loops, hminded.dutiful, hminded.ids, hminded.reserved,
      hminded.stationed⟩
  | loop service =>
    rcases Machine.finish_loop m task service r with ⟨-, heq⟩ | ⟨hr, heq⟩
    · rw [heq]
      exact h.again
    · rw [heq]
      exact h.retire fun hreads => (hend (congrArg Role.loop hreads)).resolve_left hr

/-- A task runs up to its next wait or its end. If it reads and ends with a fault, no call may be
pending. -/
theorem Entrusts.advance (h : Entrusts s m task role) {p : Action Ending}
    (hp : Keeps s role p m.world) (hfault : role = .loop (.reader s) →
      ∀ fault w, p.run m.world = (.finished (.error fault), w) → Clear s w)
    (huncrowded : (Machine.advance m task role p).world.host.Uncrowded) :
    Minded s (Machine.advance m task role p) := by
  obtain ⟨hheeds, hend⟩ := hp.run h.tended.present
  unfold Machine.advance at huncrowded ⊢
  cases hrun : p.run m.world with
  | mk halt w =>
    rw [hrun] at hheeds hend huncrowded
    cases halt with
    | finished r =>
      refine (h.heeds hheeds).finish fun hreads => ?_
      obtain hagain | ⟨fault, rfl⟩ | hclear := hend hreads
      · exact .inl hagain
      · exact .inr (hfault hreads fault w hrun)
      · exact .inr hclear
    | waiting on deadline next => exact (h.heeds hheeds).suspend hend.2 hend.1 huncrowded

end Machine

end IdeMode
