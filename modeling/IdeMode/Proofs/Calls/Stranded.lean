import IdeMode.Proofs.Calls.Outcomes
import IdeMode.Proofs.Calls.Posts
set_option autoImplicit false

/-!
# Calls and dead processes

When the process of a session has exited and nothing can go on by itself, no call of the session is
pending: the reader has met the end of the output and told every call. There are three ways for a
call to be stranded. The reader stops the process because it lost track of the output, and the call
is issued while it waits for the exit. The reader dies of a message that it cannot take note of. Or
the reader is not told of the end, because another task has waited for the output of the same
process. In a run without these, no call is stranded.
-/

namespace IdeMode

open Client Prog World List

variable {s : Nat} {w w' : World} {tasks tasks' : List Task} {reader : Nat}

namespace Machine

variable {m : Machine} {task : Nat} {role : Role}

/-! ## Turns -/

/-- What the entry at the front of the queue lets run: a task with its role and its program, in the
machine that has taken note of that. -/
def upNext? (m : Machine) : Option (Machine × Nat × Role × Action Ending) :=
  match m.world.ready with
  | .serve task service :: rest =>
    let m := { m with world := { m.world with ready := rest } }
    if isDismissed m.world task (.loop service) then none
    else some (m, task, .loop service, Ending.round <$> Client.serve service)
  | .resume task how :: rest =>
    match m.tasks.find? fun t => t.id = task with
    | none => none
    | some t =>
      let world := acknowledge { m.world with ready := rest } t
      if isDismissed world task t.role || isPremature world t how then none
      else some ({ m with world := world, tasks := m.tasks.filter fun t => t.id ≠ task }, task,
        t.role, t.next how)
  | _ => none

/-- The next turn ends the reader of a session with a fault, and calls are pending. -/
def losesReader (m : Machine) (s : Nat) : Bool :=
  match m.upNext? with
  | some (m, _, role, p) =>
    match p.run m.world with
    | (.finished (.error _), w) =>
      role = .loop (.reader s) && !(w.session s).dispatch.pending.isEmpty
    | _ => false
  | none => false

/-- The reader of a session waits for the exit of a process, and calls are pending. -/
def leavesBehind (m : Machine) (s : Nat) : Bool :=
  !(m.world.session s).dispatch.pending.isEmpty && m.tasks.any fun t =>
    (m.world.session s).dispatch.reader = some t.id && match t.await with
      | some (.exit _) => true
      | _ => false

/-- Two tasks wait for the output of one process. -/
def isCrowded (m : Machine) : Bool :=
  m.world.host.children.any fun child => 2 ≤ child.readers.length

theorem clear_of_losesReader {p : Action Ending} {m₁ : Machine} (h : m.losesReader s = false)
    (hup : m.upNext? = some (m₁, task, role, p)) (hreads : role = .loop (.reader s))
    (fault : Fault) (w : World) (hrun : p.run m₁.world = (.finished (.error fault), w)) :
    Clear s w := by
  unfold losesReader at h
  rw [hup] at h
  dsimp only at h
  rw [hrun] at h
  simpa [hreads, Clear] using h

theorem clear_of_leavesBehind (h : m.leavesBehind s = false) {t : Task} (ht : t ∈ m.tasks)
    (hreader : (m.world.session s).dispatch.reader = some t.id) {c : Nat}
    (hawait : t.await = some (.exit c)) : Clear s m.world := by
  unfold leavesBehind at h
  rw [Bool.and_eq_false_iff] at h
  obtain h | h := h
  · simpa [Clear] using h
  · have hno := any_eq_false.1 h t ht
    rw [hawait, hreader] at hno
    simp at hno

theorem uncrowded_of_isCrowded (h : m.isCrowded = false) : m.world.host.Uncrowded := by
  intro c child hchild
  have hno := any_eq_false.1 h child (mem_of_getElem? hchild)
  rw [decide_eq_true_eq] at hno
  omega

variable {rest : List Wake} {how : Signal}

/-- An entry leaves the queue that is not about the reader. -/
theorem respects_dequeue {e : Wake} (hready : w.ready = e :: rest)
    (hserve : ∀ service, e ≠ .serve reader service)
    (hrouses : ∀ how, e ≠ .resume reader how ∧ e ≠ .relay reader how) :
    Respects s reader w { w with ready := rest } where
  serve hmem := (mem_cons.1 (hready ▸ hmem)).resolve_left (hserve _).symm
  rouses := by
    rintro ⟨how, hmem⟩
    rw [hready] at hmem
    refine ⟨how, hmem.imp (fun hmem => ?_) fun hmem => ?_⟩
    · exact (mem_cons.1 hmem).resolve_left (hrouses how).1.symm
    · exact (mem_cons.1 hmem).resolve_left (hrouses how).2.symm
  listens _ _ h := .inl h

/-- The world changes in a way that does not concern the reader. -/
theorem Minded.respects (h : Minded s m) (htended : Tended s w)
    (hreader : (w.session s).dispatch.reader = (m.world.session s).dispatch.reader)
    (hnext : m.world.nextTask ≤ w.nextTask)
    (hserve : ∀ task service, task < m.world.nextTask → .serve task service ∈ w.ready →
      .serve task service ∈ m.world.ready)
    (hstationed : ∀ reader, (m.world.session s).dispatch.reader = some reader →
      Stationed s m.world m.tasks reader → Stationed s w m.tasks reader) :
    Minded s { m with world := w } where
  tended := htended
  loops := h.loops
  dutiful := h.dutiful
  ids t ht := Nat.lt_of_lt_of_le (h.ids t ht) hnext
  reserved reader hsome := by
    have hreserved := h.reserved reader (hreader ▸ hsome)
    exact hreserved.of_le hnext (fun service => hserve reader service hreserved.lt)
      fun t ht _ => .inl ht
  stationed reader hsome :=
    hstationed reader (hreader ▸ hsome) (h.stationed reader (hreader ▸ hsome))

theorem Minded.heeds (h : Minded s m) (hheeds : Heeds s m.world w)
    (hreader : (w.session s).dispatch.reader = (m.world.session s).dispatch.reader) :
    Minded s { m with world := w } :=
  h.respects (h.tended.heeds hheeds) hreader hheeds.nextTask_le
    (fun _ _ htask => hheeds.toGrows.serve_of_lt htask)
    fun _ _ hstationed => hstationed.respects hheeds.respects fun t ht _ => ⟨t, ht, rfl, rfl⟩

theorem Minded.dequeue (h : Minded s m) {e : Wake} (hready : m.world.ready = e :: rest)
    (hstationed : ∀ reader, (m.world.session s).dispatch.reader = some reader →
      Stationed s m.world m.tasks reader → Stationed s { m.world with ready := rest }
        m.tasks reader) : Minded s (m.withQueue rest) := by
  have hrest : ∀ e' ∈ rest, e' ∈ m.world.ready := fun _ hmem => hready ▸ mem_cons_of_mem e hmem
  exact h.respects (h.tended.dequeue hrest) rfl (Nat.le_refl _)
    (fun _ _ _ hmem => hrest _ hmem) hstationed

/-- The entry at the front of the queue begins a round of a loop. -/
theorem Minded.entrusts_serve (h : Minded s m) {service : Service}
    (hready : m.world.ready = .serve task service :: rest) :
    Entrusts s (m.withQueue rest) task (.loop service) := by
  have hrest : ∀ e ∈ rest, e ∈ m.world.ready := fun _ hmem => hready ▸ mem_cons_of_mem _ hmem
  have hfront : .serve task service ∈ m.world.ready := hready ▸ mem_cons_self
  refine ⟨h.tended.dequeue hrest, h.loops, h.dutiful, h.ids, h.tended.numbers task service hfront,
    ?_, ?_, ?_, ?_⟩
  · intro service' heq
    obtain rfl := Role.loop.inj heq
    exact h.tended.serves task service hfront
  · intro reader hsome
    exact (h.reserved reader hsome).of_le (Nat.le_refl _) (fun _ hmem => hrest _ hmem)
      fun t ht _ => .inl ht
  · exact fun hsome => congrArg Role.loop ((h.reserved task hsome).serve service hfront)
  · intro reader hsome hne
    refine (h.stationed reader hsome).respects (respects_dequeue hready ?_ fun _ => ⟨nofun, nofun⟩)
      fun t ht _ => ⟨t, ht, rfl, rfl⟩
    exact fun service' heq => hne (Wake.serve.inj heq).1.symm

/-- The entry at the front of the queue lets a task go on. -/
theorem Minded.entrusts_resume (h : Minded s m) {t : Task}
    (hready : m.world.ready = .resume task how :: rest) (ht : t ∈ m.tasks) (hid : t.id = task) :
    Entrusts s { m with
      world := acknowledge { m.world with ready := rest } t
      tasks := m.tasks.filter fun t => t.id ≠ task } task t.role := by
  have hrest : ∀ e ∈ rest, e ∈ m.world.ready := fun _ hmem => hready ▸ mem_cons_of_mem _ hmem
  have hkept : ∀ u ∈ m.tasks.filter fun t => t.id ≠ task, u ∈ m.tasks :=
    fun u hu => (mem_filter.1 hu).1
  have hdequeued : Entrusts s { m with
      world := { m.world with ready := rest }
      tasks := m.tasks.filter fun t => t.id ≠ task } task t.role := by
    refine ⟨h.tended.dequeue hrest, fun u hu => h.loops u (hkept u hu),
      fun u hu => h.dutiful u (hkept u hu), fun u hu => h.ids u (hkept u hu), hid ▸ h.ids t ht,
      h.loops t ht, ?_, ?_, ?_⟩
    · intro reader hsome
      exact (h.reserved reader hsome).of_le (Nat.le_refl _) (fun _ hmem => hrest _ hmem)
        fun u hu _ => .inl (hkept u hu)
    · exact fun hsome => (h.reserved task hsome).task t ht hid
    · intro reader hsome hne
      refine (h.stationed reader hsome).respects
        (respects_dequeue hready (fun _ => nofun) fun how' => ⟨?_, nofun⟩) ?_
      · exact fun heq => hne (Wake.resume.inj heq).1.symm
      · refine fun u hu hreader => ⟨u, mem_filter.2 ⟨hu, decide_eq_true ?_⟩, rfl, rfl⟩
        exact fun htask => hne (hreader.symm.trans htask)
  unfold acknowledge
  split
  · next c _ _ =>
    refine hdequeued.adjusts ?_ ?_ fun reader hne => ?_
    · exact adjusts_modifyChild (fun _ hproper => proper_leave hproper _) _
    · exact uncrowded_leave _ _ h.tended.uncrowded
    · exact respects_leave (w := { m.world with ready := rest }) h.tended.proper
        h.tended.uncrowded (hid ▸ hne) _
  · exact hdequeued

theorem keeps_serve {service : Service}
    (h : service = .reader s ∨ service = .writer s) (w : World) :
    Keeps s (.loop service) (Ending.round <$> Client.serve service) w := by
  unfold Keeps
  obtain rfl | rfl := h
  · rw [if_pos rfl]
    refine Safe.bind ((reading_readRound w).mono fun r w' _ hend => ?_)
    cases r with
    | ok round =>
      obtain hagain | ⟨fault, hfault⟩ | hclear := hend
      · cases hagain
        exact .inl rfl
      · cases hfault
      · exact .inr (.inr hclear)
    | error fault => exact .inr (.inl ⟨fault, rfl⟩)
  · rw [if_neg (by nofun)]
    exact heeding_map _ (heeding_of_writing writing_writeRound) w

theorem session_acknowledge (w : World) (t : Task) (k : Nat) :
    (acknowledge w t).session k = w.session k := by
  unfold acknowledge
  split <;> rfl

/-- A suspended task goes on, unless it is no longer wanted or was told too early. -/
theorem Minded.resume (h : Minded s m) (hready : m.world.ready = .resume task how :: rest)
    (hleaves : m.leavesBehind s = false) (hloses : m.losesReader s = false)
    (huncrowded : (Machine.resume (m.withQueue rest) task how).world.host.Uncrowded) :
    Minded s (Machine.resume (m.withQueue rest) task how) := by
  cases hfind : m.tasks.find? fun t => t.id = task with
  | none =>
    rw [resume_of_none (m := m.withQueue rest) how hfind]
    refine h.dequeue hready fun reader hsome hstationed => ?_
    obtain hserve | ⟨t, ht, hid, hstands⟩ := hstationed
    · rw [hready] at hserve
      exact .inl ((mem_cons.1 hserve).resolve_left nofun)
    · have hne : reader ≠ task := by
        rintro rfl
        exact List.find?_eq_none.1 hfind t ht (decide_eq_true hid)
      refine Stationed.respects (.inr ⟨t, ht, hid, hstands⟩)
        (respects_dequeue hready (fun _ => nofun) fun _ => ⟨?_, nofun⟩)
        fun t ht _ => ⟨t, ht, rfl, rfl⟩
      exact fun heq => hne (Wake.resume.inj heq).1.symm
  | some t =>
    obtain ⟨ht, hid⟩ := find?_spec hfind
    have hentrusts := h.entrusts_resume hready ht hid
    have hsession := session_acknowledge { m.world with ready := rest } t s
    rcases resume_of_some (m := m.withQueue rest) how hfind with
      ⟨hdismissed, hresume⟩ | ⟨hdismissed,
        ⟨c, count, hawait, hpremature, hresume⟩ | ⟨hmature, hresume⟩⟩
    all_goals rw [hresume] at huncrowded ⊢
    · refine hentrusts.minded fun hsome => ?_
      rw [hentrusts.itself hsome] at hdismissed
      exact absurd hsome (of_decide_eq_true hdismissed)
    · refine (hentrusts.enroll huncrowded).wait hid rfl (h.dutiful t ht) fun _ => ?_
      obtain ⟨_, _, houtput, hchild⟩ := of_isPremature hpremature
      cases hawait.symm.trans houtput
      exact hid ▸ stands_enroll (s := s) hawait hchild
    · have hup : m.upNext? = some ({ m with
          world := acknowledge { m.world with ready := rest } t
          tasks := m.tasks.filter fun t => t.id ≠ task }, task, t.role, t.next how) := by
        unfold upNext?
        rw [hready]
        dsimp only
        rw [hfind]
        dsimp only
        rw [hdismissed, hmature]
        rfl
      refine hentrusts.advance (h.dutiful t ht how _ fun hreads c hawait => ?_)
        (clear_of_losesReader hloses hup) huncrowded
      -- the reader is still wanted, so no call was issued while it waited for the exit
      rw [hreads] at hdismissed
      have hreader := of_not_not (of_decide_eq_false hdismissed)
      unfold Clear
      rw [hsession] at hreader ⊢
      exact clear_of_leavesBehind hleaves ht (hid ▸ hreader) hawait

/-- A turn keeps every reader at its post, unless it is one that dies of a fault. -/
theorem Minded.serve (h : Minded s m) {e : Wake} (hready : m.world.ready = e :: rest)
    (hleaves : m.leavesBehind s = false) (hloses : m.losesReader s = false)
    (huncrowded : (Machine.serve (m.withQueue rest) e).world.host.Uncrowded) :
    Minded s (Machine.serve (m.withQueue rest) e) := by
  have hother : (∀ task service, e ≠ .serve task service) →
    (∀ task how, e ≠ .resume task how ∧ e ≠ .relay task how) → Minded s (m.withQueue rest) := by
    intro hserve hrouses
    refine h.dequeue hready fun reader _ hstationed => ?_
    exact hstationed.respects (respects_dequeue hready (hserve reader) (hrouses reader))
      fun t ht _ => ⟨t, ht, rfl, rfl⟩
  cases e with
  | serve task service =>
    have hentrusts := h.entrusts_serve hready
    simp only [Machine.serve] at huncrowded ⊢
    cases hdismissed : isDismissed { m.world with ready := rest } task (.loop service) with
    | true =>
      rw [if_pos rfl]
      refine hentrusts.minded fun hsome => ?_
      cases hentrusts.itself hsome
      exact absurd hsome (of_decide_eq_true hdismissed)
    | false =>
      rw [hdismissed, if_neg Bool.false_ne_true] at huncrowded
      rw [if_neg Bool.false_ne_true]
      have hup : m.upNext? = some (m.withQueue rest, task, .loop service,
          Ending.round <$> Client.serve service) := by
        unfold upNext?
        rw [hready]
        dsimp only
        rw [hdismissed]
        rfl
      exact hentrusts.advance (keeps_serve (hentrusts.loop service rfl) _)
        (clear_of_losesReader hloses hup) huncrowded
  | resume task how => exact h.resume hready hleaves hloses huncrowded
  | relay task how =>
    have htended := (h.tended.dequeue fun _ hmem => hready ▸ mem_cons_of_mem _ hmem).heeds
      (heeds_enqueue (e := .resume task how) (by nofun) { m.world with ready := rest })
    refine h.respects htended rfl (Nat.le_refl _) (fun task' service _ hmem => ?_)
      fun reader _ hstationed => ?_
    · rw [hready]
      exact mem_cons_of_mem _ ((mem_append.1 hmem).resolve_right
        fun hmem => nomatch mem_singleton.1 hmem)
    · refine hstationed.respects ⟨fun hmem => ?_, ?_, fun _ _ hlistens => .inl hlistens⟩
        fun t ht _ => ⟨t, ht, rfl, rfl⟩
      · rw [hready] at hmem
        exact mem_append_left _ ((mem_cons.1 hmem).resolve_left nofun)
      · -- whoever was to be passed on is queued to go on
        rintro ⟨how', hmem⟩
        rw [hready] at hmem
        obtain hmem | hmem := hmem
        · exact ⟨how', .inl (mem_append_left _ ((mem_cons.1 hmem).resolve_left nofun))⟩
        · obtain hmem | hmem := mem_cons.1 hmem
          · cases hmem
            exact ⟨how, .inl mem_concat_self⟩
          · exact ⟨how', .inr (mem_append_left _ hmem)⟩
  | settle t call outcome =>
    have hsettles := heeds_settle (s := s) { m.world with ready := rest } t call.addressee outcome
    exact (hother nofun fun _ _ => ⟨nofun, nofun⟩).heeds hsettles.1 hsettles.2
  | skip label =>
    exact (hother nofun fun _ _ => ⟨nofun, nofun⟩).heeds (.report _ _) rfl

/-! ## From outside -/

/-- A task is about to run that is not the reader of the session. -/
theorem Minded.entrusts (h : Minded s m) (hlt : task < m.world.nextTask)
    (hnot : (m.world.session s).dispatch.reader ≠ some task) (index : Nat) :
    Entrusts s m task (.job index) where
  tended := h.tended
  loops := h.loops
  dutiful := h.dutiful
  ids := h.ids
  lt := hlt
  loop := nofun
  reserved := h.reserved
  itself hsome := absurd hsome hnot
  stationed reader hsome _ := h.stationed reader hsome

theorem Minded.launch (h : Minded s m) (index : Nat) {p : Action Answer}
    (hp : Obeys (heeding s) p) : Minded s (m.launch index p) := by
  have hnumber : Heeds s m.world { m.world with nextTask := m.world.nextTask + 1 } :=
    .of_dispatch (grows_of_ready (Nat.le_refl _) (Nat.le_succ _) rfl)
      (alerts_of_children rfl fun _ he => he) (.of_ready rfl) rfl
  have hminded := h.heeds (hnumber.trans (heeds_wake _ m.world.nextTask)) rfl
  refine (hminded.entrusts (Nat.lt_succ_self m.world.nextTask) (fun hsome => ?_) index).wait rfl rfl
    (fun _ w _ => ?_) nofun
  · exact Nat.lt_irrefl _ (h.reserved m.world.nextTask hsome).lt
  · unfold Keeps
    rw [if_neg nofun]
    exact heeding_map _ hp w

/-- The time of a task runs out. -/
theorem Minded.expire (h : Minded s m) (t : Task) : Minded s (Machine.expire m t) := by
  obtain ⟨w, hexpire, hadjusts, huncrowded, hrespects⟩ : ∃ w, Machine.expire m t = { m with
        world := w.enqueue (.resume t.id .expired)
        tasks := m.tasks.map fun u => if u.id = t.id then { u with deadline := none } else u } ∧
      Adjusts s m.world w ∧ w.host.Uncrowded ∧
        ∀ reader, reader ≠ t.id → Respects s reader m.world w := by
    unfold Machine.expire
    cases t.await with
    | none =>
      exact ⟨m.world, rfl, ⟨rfl, rfl, rfl, rfl, rfl, id⟩, h.tended.uncrowded,
        fun _ _ => respects_of_ready rfl fun _ _ h => h⟩
    | some on =>
      exact ⟨Machine.giveUp m.world t.id on, rfl, adjusts_giveUp m.world t.id on,
        uncrowded_giveUp t.id on h.tended.uncrowded, fun _ hne =>
          respects_giveUp h.tended.proper h.tended.uncrowded hne on⟩
  rw [hexpire]
  have henqueue : Heeds s w (w.enqueue (.resume t.id .expired)) := heeds_enqueue (by nofun) w
  have hminded : Minded s { m with world := w.enqueue (.resume t.id .expired) } := by
    refine h.respects ((h.tended.adjusts hadjusts huncrowded).heeds henqueue) hadjusts.reader_eq
      (Nat.le_of_eq hadjusts.nextTask_eq.symm) (fun task service htask hmem => ?_)
      fun reader _ hstationed => ?_
    · exact hadjusts.ready_eq ▸ henqueue.toGrows.serve_of_lt (hadjusts.nextTask_eq ▸ htask) hmem
    · by_cases hne : reader = t.id
      · -- the reader is queued to go on
        subst hne
        have hroused : (w.enqueue (.resume t.id .expired)).Rouses t.id :=
          ⟨.expired, .inl mem_concat_self⟩
        refine hstationed.respects ⟨fun hmem => ?_, fun _ => hroused, fun _ _ _ => .inr hroused⟩
          fun u hu _ => ⟨u, hu, rfl, rfl⟩
        exact henqueue.mem_ready (hadjusts.ready_eq ▸ hmem)
      · exact hstationed.respects ((hrespects reader hne).trans henqueue.respects)
          fun u hu _ => ⟨u, hu, rfl, rfl⟩
  -- deadlines do not matter
  have hsame := same_expire t.id
  refine ⟨hminded.tended, forall_mem_map.2 fun u hu => ?_, forall_mem_map.2 fun u hu => ?_,
    forall_mem_map.2 fun u hu => ?_, fun reader hsome => ?_, fun reader hsome => ?_⟩
  · rw [(hsame u).role_eq]
    exact hminded.loops u hu
  · unfold Task.Dutiful
    rw [(hsame u).role_eq, (hsame u).await_eq, (hsame u).next_eq]
    exact hminded.dutiful u hu
  · rw [(hsame u).id_eq]
    exact hminded.ids u hu
  · have hreserved := hminded.reserved reader hsome
    refine ⟨hreserved.lt, forall_mem_map.2 fun u hu => ?_, hreserved.serve⟩
    rw [(hsame u).id_eq, (hsame u).role_eq]
    exact hreserved.task u hu
  · refine (hminded.stationed reader hsome).respects (respects_of_ready rfl fun _ _ h => h)
      fun u hu _ => ?_
    exact ⟨_, mem_map_of_mem hu, (hsame u).id_eq, (hsame u).await_eq⟩

theorem Minded.undergo (h : Minded s m) (change : Change) : Minded s (m.undergo change) := by
  obtain ⟨time, rfl⟩ | ⟨w, hw, host, harranges, hstirs, halerts⟩ := befalls_of_undergo m change
  · exact elapse_induction (P := Minded s) time (h.heeds (heeds_host _ rfl) rfl)
      fun _ t h _ => h.expire t
  · rw [hw]
    refine h.heeds ((heeds_host _ harranges.children_eq).trans (hstirs.heeds halerts)) ?_
    unfold World.session
    rw [hstirs.sessions_eq]

end Machine

/-! ## Runs -/

/-- A request to start or stop a session, or about its calls alone. -/
def SessionRequest.Dispatches : SessionRequest → Prop
  | .ensure | .close | .call _ _ | .rawCall _ _ | .post _ _ | .discard | .stats => True
  | _ => False

/-- An operation on the calls of a session or on its process. -/
def Operation.Dispatches (s : Nat) : Operation → Prop
  | .session t request => t = s ∧ request.Dispatches
  | .process t _ => t = s
  | .tool _ => False

/-- A move that begins no other operation than those on the calls of a session and on its
process. -/
def Move.Dispatches (s : Nat) : Move → Prop
  | .launch _ operation => operation.Dispatches s
  | _ => True

theorem heeding_operation {operation : Operation} (h : operation.Dispatches s) :
    Obeys (heeding s) operation.action := by
  cases operation with
  | tool request => exact h.elim
  | process t request =>
    obtain rfl : t = s := h
    have hstart : ∀ limit, Obeys (heeding t) (start t limit) := heeding_start
    have hstop : Obeys (heeding t) (stop t) := heeding_of_gentle (gentle_stop t)
    cases request with
    | start limit => exact heeding_map _ (hstart limit)
    | enter => exact .bind (hstart _) fun _ => .done _
    | leave => exact .bind hstop fun _ => .done _
    | write text => exact .bind (heeding_of_writing (writing_sendMessage text)) fun _ => .done _
    | read => exact heeding_map _ (heeding_of_gentle (gentle_receiveMessage t none))
    | interrupt => exact .bind (heeding_of_gentle (gentle_interrupt t)) fun _ => .done _
    | stop => exact .bind hstop fun _ => .done _
  | session t request =>
    obtain ⟨rfl, hrequest⟩ : t = s ∧ request.Dispatches := h
    cases request with
    | ensure =>
      refine .bind heeding_ensureRunning fun message => ?_
      split <;> exact .done _
    | close => exact .bind heeding_close fun _ => .done _
    | call command limit =>
      exact heeding_map _ (.bind (obeys_session t) fun _ => heeding_call command _)
    | rawCall command limit => exact heeding_map _ (heeding_call command limit)
    | post label command =>
      exact .bind (heeding_post command _) fun _ =>
        .bind (.modify fun w _ => .report w _) fun _ => .done _
    | discard => exact .bind heeding_discard fun _ => .done _
    | stats => exact .bind (obeys_session t) fun _ => .done _
    | _ => exact hrequest.elim

namespace Machine

variable {m : Machine}

/-- A call may be about to be stranded: one is issued to a reader that waits for the exit of the
process, the reader is about to die of a fault, or two tasks wait for the output of one process. -/
def strands (m : Machine) (s : Nat) : Bool := m.leavesBehind s || m.losesReader s || m.isCrowded

theorem Minded.move (h : Minded s m) {move : Move} (hmove : move.Dispatches s)
    (hsafe : m.strands s = false) (hcrowded : (m.move move).isCrowded = false) :
    Minded s (m.move move) := by
  have huncrowded := uncrowded_of_isCrowded hcrowded
  simp only [strands, Bool.or_eq_false_iff] at hsafe
  cases move with
  | turn =>
    unfold Machine.move Machine.turn at huncrowded ⊢
    cases hready : m.world.ready with
    | nil => exact h
    | cons e rest =>
      rw [hready] at huncrowded
      exact h.serve hready hsafe.1.1 hsafe.1.2 huncrowded
  | launch index operation => exact h.launch index (heeding_operation hmove)
  | change c => exact h.undergo c

theorem Fresh.minded (hm : m.Fresh s) (hchildren : m.world.host.children = []) : Minded s m := by
  have hnone : ∀ {P : Host.Child → Prop} c child, m.world.host.child? c = some child → P child := by
    intro P c child hchild
    rw [Host.child?, hchildren] at hchild
    cases hchild
  have hreader : ∀ reader, (m.world.session s).dispatch.reader ≠ some reader := by
    intro reader hsome
    rw [hm.dispatch_eq] at hsome
    cases hsome
  refine ⟨⟨hm.present, .inl (by rw [hm.dispatch_eq]), hnone, hnone, ?_, ?_⟩, ?_, ?_, ?_, ?_, ?_⟩
  · exact fun _ _ hmem => absurd (hm.ready_eq ▸ hmem) not_mem_nil
  · exact fun _ _ hmem => absurd (hm.ready_eq ▸ hmem) not_mem_nil
  · exact fun _ ht => absurd (hm.tasks_eq ▸ ht) not_mem_nil
  · exact fun _ ht => absurd (hm.tasks_eq ▸ ht) not_mem_nil
  · exact fun _ ht => absurd (hm.tasks_eq ▸ ht) not_mem_nil
  · exact fun reader hsome => absurd hsome (hreader reader)
  · exact fun reader hsome => absurd hsome (hreader reader)

theorem Minded.follow (h : Minded s m) {moves : List Move}
    (hmoves : ∀ move ∈ moves, move.Dispatches s)
    (hsafe : ∀ n ≤ moves.length, (m.follow (moves.take n)).strands s = false) :
    Minded s (m.follow moves) := by
  induction moves generalizing m with
  | nil => exact h
  | cons move moves ih =>
    have hnext : ∀ n ≤ moves.length, ((m.move move).follow (moves.take n)).strands s = false :=
      fun n hn => hsafe (n + 1) (Nat.succ_le_succ hn)
    have hcrowded := hnext 0 (Nat.zero_le _)
    simp only [strands, Bool.or_eq_false_iff] at hcrowded
    exact ih (h.move (hmoves move mem_cons_self) (hsafe 0 (Nat.zero_le _)) hcrowded.2)
      (fun move hmove => hmoves move (mem_cons_of_mem _ hmove)) hnext

/-- When nothing can go on, no call is pending, or the reader listens to a process that runs. -/
theorem Minded.clear (h : Minded s m) (hready : m.world.ready = [])
    (hleaves : m.leavesBehind s = false) :
    Clear s m.world ∨ ∃ t ∈ m.tasks, (m.world.session s).dispatch.reader = some t.id ∧
      ∃ c count, t.await = some (.output c count) ∧ m.world.host.isRunning c = true := by
  obtain hpending | hsome := h.tended.attended
  · exact .inl hpending
  · obtain ⟨reader, hreader⟩ := Option.isSome_iff_exists.1 hsome
    obtain hserve | ⟨t, ht, rfl, hstands⟩ := h.stationed reader hreader
    · rw [hready] at hserve
      exact absurd hserve not_mem_nil
    · unfold Task.Stands at hstands
      split at hstands
      · next c count hawait =>
        obtain ⟨how, hmem⟩ | ⟨child, hchild, hlistener, hcount⟩ := hstands
        · rw [hready] at hmem
          exact absurd hmem (not_or.2 ⟨not_mem_nil, not_mem_nil⟩)
        · refine .inr ⟨t, ht, hreader, c, count, hawait, ?_⟩
          have hended := (Bool.or_eq_false_iff.1 hcount).2
          unfold Host.isRunning
          rw [hchild]
          by_contra hrunning
          have hgone := (h.tended.proper c child hchild).ended (Bool.eq_false_iff.2 hrunning)
          exact Bool.noConfusion (hended.symm.trans hgone)
      · next c hawait => exact .inl (clear_of_leavesBehind hleaves ht hreader hawait)
      · exact hstands.elim

end Machine

/-- When nothing can go on, every call of which none is pending has come to its end. -/
theorem Machine.Sound.concluded {h : List Act} {m : Machine} (hm : m.Sound s h)
    (hready : m.world.ready = []) (hclear : Clear s m.world) : Concluded h := by
  have hcalls : (Account.replay h).calls = (m.world.session s).dispatch.calls :=
    congrArg Account.calls hm.account_eq.symm
  refine hm.lawful.concluded ?_ ?_ fun id hid => ?_
  · rw [hcalls]
    exact hclear
  · rw [← hm.account_eq]
    unfold World.account
    rw [hready]
    rfl
  · obtain ⟨t, ht, hawait⟩ := (hm.kept.complete id hid).resolve_left nofun
    obtain hwaits | ⟨how, hmem⟩ := hm.kept.informed t ht id hawait
    · rw [hcalls]
      exact hwaits.2
    · rw [hready] at hmem
      exact absurd hmem (not_or.2 ⟨not_mem_nil, not_mem_nil⟩)

/-- Whatever is done with the calls of a session and its process, and whatever happens to the
process: in every state in which nothing can go on and the process of the session has exited, no
call is pending; each call that was waited for has been told its outcome and each continuation that
was not discarded has run just once. The exceptions are runs in which a call may have been stranded
before, and a reader that listens to a running process which the session has lost. -/
theorem no_call_pending_after_exit {m : Machine} (hm : m.Fresh s)
    (hchildren : m.world.host.children = []) {moves : List Move}
    (hmoves : ∀ move ∈ moves, move.Dispatches s)
    (hsafe : ∀ n ≤ moves.length, (m.follow (moves.take n)).strands s = false)
    (hidle : (m.follow moves).world.ready = [])
    (hdead : (m.follow moves).world.isRunning s = false) :
    (((m.follow moves).world.session s).dispatch.pending = [] ∧
      ∃ acts, Chronicle s m moves acts ∧ Concluded (history acts)) ∨
    ∃ t ∈ (m.follow moves).tasks, ((m.follow moves).world.session s).dispatch.reader = some t.id ∧
      ∃ c count, t.await = some (.output c count) ∧ (m.follow moves).world.host.isRunning c = true ∧
        ((m.follow moves).world.session s).transport.child ≠ some c := by
  have hminded := (hm.minded hchildren).follow hmoves hsafe
  have hlast := hsafe moves.length (Nat.le_refl _)
  rw [take_length] at hlast
  simp only [Machine.strands, Bool.or_eq_false_iff] at hlast
  obtain hclear | ⟨t, ht, hreader, c, count, hawait, hrunning⟩ := hminded.clear hidle hlast.1.1
  · obtain ⟨acts, hchronicle, hsound⟩ := hm.chronicle moves
    exact .inl ⟨hclear, acts, hchronicle, hsound.concluded hidle hclear⟩
  · refine .inr ⟨t, ht, hreader, c, count, hawait, hrunning, fun hchild => ?_⟩
    unfold World.isRunning at hdead
    rw [hchild] at hdead
    exact Bool.noConfusion (hdead.symm.trans hrunning)

/-- A compiler is started and does not answer a call with a continuation and one that is waited for;
then it exits. -/
def exitedMoves : List Move :=
  [.change (.reactions [("type-of", [{}, {}])]), .launch 0 (.session 0 .ensure), .turn,
    .launch 1 (.session 0 (.post "a" ⟨"type-of", [.str "x"]⟩)),
    .launch 2 (.session 0 (.rawCall ⟨"type-of", [.str "y"]⟩ none))] ++ List.replicate 6 .turn ++
    .change (.exit 1) :: List.replicate 3 .turn

/-- A compiler that does not heed the request to terminate is read from by someone else when a call
is issued. So the reader loses track and stops it; another call is issued before the compiler is
killed. -/
def strandedMoves : List Move :=
  [.change (.reactions [("type-of", [{}, {}])]),
    .change (.behaviours [{ stubborn := true, greeting := Host.defaultGreeting }]),
    .launch 0 (.session 0 .ensure), .turn, .launch 1 (.process 0 .read), .turn,
    .launch 2 (.session 0 (.post "a" ⟨"type-of", [.str "x"]⟩))] ++
    List.replicate 4 .turn ++ .launch 3 (.session 0 (.post "b" ⟨"type-of", [.str "y"]⟩)) ::
      List.replicate 4 .turn ++ .change (.elapse 5000000000) :: List.replicate 2 .turn

/-- Both calls are told that the compiler died. In the other run a call is stranded: it is issued to
a reader that waits for the exit of the process, and nobody is left to tell it. -/
theorem no_call_pending_after_exit_twoCalls :
    idleMachine.Fresh 0 ∧ (∀ move ∈ exitedMoves, move.Dispatches 0) ∧
    (∀ n ≤ exitedMoves.length, (idleMachine.follow (exitedMoves.take n)).strands 0 = false) ∧
    (idleMachine.follow exitedMoves).world.ready = [] ∧
      (idleMachine.follow exitedMoves).world.isRunning 0 = false ∧
    (∃ acts, Chronicle 0 idleMachine exitedMoves acts ∧ Concluded (history acts)) ∧
    (∀ move ∈ strandedMoves, move.Dispatches 0) ∧
    (idleMachine.follow (strandedMoves.take 14)).leavesBehind 0 = true ∧
    (idleMachine.follow strandedMoves).world.ready = [] ∧
      (idleMachine.follow strandedMoves).world.isRunning 0 = false ∧
    ((idleMachine.follow strandedMoves).world.session 0).dispatch.pending.map Call.id = [2] := by
  have hfresh : idleMachine.Fresh 0 := ⟨Nat.one_pos, rfl, rfl, rfl⟩
  have hmoves : ∀ move ∈ exitedMoves, move.Dispatches 0 := by
    simp [exitedMoves, Move.Dispatches, Operation.Dispatches, SessionRequest.Dispatches]
  have hsafe : ∀ n ≤ exitedMoves.length, (idleMachine.follow (exitedMoves.take n)).strands 0 =
    false := by decide +kernel
  have hidle : (idleMachine.follow exitedMoves).world.ready = [] :=
    isEmpty_iff.1 (by decide +kernel)
  have hdead : (idleMachine.follow exitedMoves).world.isRunning 0 = false := by decide +kernel
  have hwriter : ∀ t ∈ (idleMachine.follow exitedMoves).tasks, t.await = some (.outbox 0) := by
    decide +kernel
  refine ⟨hfresh, hmoves, hsafe, hidle, hdead, ?_, ?_, by decide +kernel,
    isEmpty_iff.1 (by decide +kernel), by decide +kernel, by decide +kernel⟩
  · obtain ⟨-, hconcluded⟩ | ⟨t, ht, -, c, count, hawait, -⟩ :=
      no_call_pending_after_exit hfresh rfl hmoves hsafe hidle hdead
    · exact hconcluded
    · cases (hwriter t ht).symm.trans hawait
  · simp [strandedMoves, Move.Dispatches, Operation.Dispatches, SessionRequest.Dispatches]

end IdeMode
