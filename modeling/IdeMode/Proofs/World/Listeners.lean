import IdeMode.Proofs.World.Parts
import IdeMode.Request.Change
set_option autoImplicit false

/-!
# Who is told of output

Of the tasks that wait for the output of a process one is told when something comes, the listener.
Whatever happens to a process, its listener stays and nothing has come that it could wait for, or it
is queued to go on. So a listener does not miss the end of the output.
-/

namespace IdeMode

open List

namespace Host

/-- A process that has exited sends nothing more, and the listener is one of those who wait. -/
structure Child.Proper (child : Child) : Prop where
  ended : child.isRunning = false → child.ended = true
  listener : ∀ task, child.listener = some task → task ∈ child.readers

/-- Every process is in order. -/
def Proper (h : Host) : Prop := ∀ c child, h.child? c = some child → child.Proper

/-- No two tasks wait for the output of one process. -/
def Uncrowded (h : Host) : Prop := ∀ c child, h.child? c = some child → child.readers.length ≤ 1

/-- The listener stays, and nothing has come for it. -/
structure Child.Stays (child child' : Child) : Prop where
  listener_eq : child'.listener = child.listener
  output_le : child'.output.length ≤ child.output.length
  ended_eq : child'.ended = child.ended

theorem Child.Stays.refl (child : Child) : child.Stays child := ⟨rfl, Nat.le_refl _, rfl⟩

theorem Child.Stays.trans {child₁ child₂ child₃ : Child} (h : child₁.Stays child₂)
    (h' : child₂.Stays child₃) : child₁.Stays child₃ :=
  ⟨h'.listener_eq.trans h.listener_eq, Nat.le_trans h'.output_le h.output_le,
    h'.ended_eq.trans h.ended_eq⟩

theorem Child.Stays.satisfies {child child' : Child} (h : child.Stays child') {count : Nat}
    (hcount : child.satisfies count = false) : child'.satisfies count = false := by
  unfold Child.satisfies at hcount ⊢
  rw [Bool.or_eq_false_iff, decide_eq_false_iff_not] at hcount ⊢
  exact ⟨fun hle => hcount.1 (Nat.le_trans hle h.output_le), h.ended_eq.trans hcount.2⟩

theorem Child.Proper.of_eq {child child' : Child} (h : child.Proper)
    (hstatus : child'.status = child.status) (hended : child'.ended = child.ended)
    (hlistener : child'.listener = child.listener)
    (hreaders : child'.readers = child.readers) : child'.Proper := by
  refine ⟨fun hrunning => ?_, fun task htask => ?_⟩
  · rw [hended]
    exact h.ended (by rw [isRunning, ← hstatus]; exact hrunning)
  · rw [hreaders]
    exact h.listener task (hlistener ▸ htask)

theorem Child.Proper.exit {child : Child} (h : child.Proper) (status : Int) :
    (child.exit status).Proper := by
  unfold Child.exit
  split
  · exact ⟨fun _ => rfl, h.listener⟩
  · exact h

end Host

namespace World

/-- A task listens to a process that has not yet sent what the task waits for. -/
def Listens (w : World) (c count task : Nat) : Prop :=
  ∃ child, w.host.child? c = some child ∧ child.listener = some task ∧ child.satisfies count = false

/-- The same tasks wait for output, and where something has come the listener is queued to go on. -/
structure Alerts (w w' : World) : Prop where
  ready : ∀ e ∈ w.ready, e ∈ w'.ready
  child : ∀ c child, w.host.child? c = some child → ∃ child', w'.host.child? c = some child' ∧
    child'.readers = child.readers ∧
    (child.Stays child' ∨ ∀ task, child.listener = some task → .resume task .woken ∈ w'.ready)
  proper : w.host.Proper → w'.host.Proper
  uncrowded : w.host.Uncrowded → w'.host.Uncrowded

variable {w w' : World}

theorem Alerts.trans {w₁ w₂ w₃ : World} (h : Alerts w₁ w₂) (h' : Alerts w₂ w₃) : Alerts w₁ w₃ := by
  refine ⟨fun e he => h'.ready e (h.ready e he), fun c child hchild => ?_,
    fun hproper => h'.proper (h.proper hproper),
    fun huncrowded => h'.uncrowded (h.uncrowded huncrowded)⟩
  obtain ⟨child₂, hchild₂, hreaders, hkept⟩ := h.child c child hchild
  obtain ⟨child₃, hchild₃, hreaders', hkept'⟩ := h'.child c child₂ hchild₂
  refine ⟨child₃, hchild₃, hreaders'.trans hreaders, ?_⟩
  obtain hstays | htold := hkept
  · obtain hstays' | htold' := hkept'
    · exact .inl (hstays.trans hstays')
    · exact .inr fun task htask => htold' task (hstays.listener_eq.trans htask)
  · exact .inr fun task htask => h'.ready _ (htold task htask)

theorem Alerts.listens (h : Alerts w w') {c count task : Nat} (hlistens : w.Listens c count task) :
    w'.Listens c count task ∨ .resume task .woken ∈ w'.ready := by
  obtain ⟨child, hchild, hlistener, hcount⟩ := hlistens
  obtain ⟨child', hchild', -, hstays | htold⟩ := h.child c child hchild
  · exact .inl ⟨child', hchild', hstays.listener_eq.trans hlistener, hstays.satisfies hcount⟩
  · exact .inr (htold task hlistener)

/-- Processes stay as they are. -/
theorem alerts_of_children (hchildren : w'.host.children = w.host.children)
    (hready : ∀ e ∈ w.ready, e ∈ w'.ready) : Alerts w w' := by
  have hsame : ∀ c, w'.host.child? c = w.host.child? c := fun c => congrArg (·[c]?) hchildren
  refine ⟨hready, fun c child hchild => ?_, fun hproper c child hchild => ?_,
    fun huncrowded c child hchild => ?_⟩
  · exact ⟨child, (hsame c).trans hchild, rfl, .inl (.refl child)⟩
  · exact hproper c child ((hsame c).symm.trans hchild)
  · exact huncrowded c child ((hsame c).symm.trans hchild)

theorem Alerts.refl (w : World) : Alerts w w := alerts_of_children rfl fun _ he => he

theorem alerts_enqueue (w : World) (e : Wake) : Alerts w (w.enqueue e) :=
  alerts_of_children rfl fun _ he => mem_append_left _ he

theorem alerts_foldl {α : Type} {f : World → α → World} (hf : ∀ w a, Alerts w (f w a)) (w : World)
    (l : List α) : Alerts w (l.foldl f w) := Composes.foldl ⟨.refl, .trans⟩ hf w l

theorem child?_modifyChild_of_ne {c k : Nat} (h : c ≠ k) (w : World) (f : Host.Child → Host.Child) :
    (w.modifyChild c f).host.child? k = w.host.child? k := by
  simp only [modifyChild, Host.modifyChild, Host.child?, List.getElem?_modify, if_neg h, id_map']

variable {f : Host.Child → Host.Child}

/-- What holds of every process holds after a change of one that keeps it. -/
theorem forall_child_modifyChild {P : Host.Child → Prop} (c : Nat)
    (hf : ∀ child, P child → P (f child)) (hP : ∀ k child, w.host.child? k = some child → P child)
    (k : Nat) (child : Host.Child) (hchild : (w.modifyChild c f).host.child? k = some child) :
    P child := by
  by_cases hck : c = k
  · subst hck
    rw [child?_modifyChild] at hchild
    obtain ⟨old, hold, rfl⟩ := Option.map_eq_some_iff.1 hchild
    exact hf old (hP c old hold)
  · rw [child?_modifyChild_of_ne hck] at hchild
    exact hP k child hchild

/-- A process changes in a way that does not concern those who wait for its output. -/
theorem alerts_modifyChild (w : World) (c : Nat)
    (hreaders : ∀ child, (f child).readers = child.readers)
    (hstays : ∀ child : Host.Child, child.Stays (f child))
    (hstatus : ∀ child, (f child).status = child.status) : Alerts w (w.modifyChild c f) := by
  refine ⟨fun _ he => he, fun k child hchild => ?_, ?_, ?_⟩
  · by_cases hck : c = k
    · subst hck
      exact ⟨f child, by rw [child?_modifyChild, hchild, Option.map_some], hreaders child,
        .inl (hstays child)⟩
    · exact ⟨child, (child?_modifyChild_of_ne hck w f).trans hchild, rfl, .inl (.refl child)⟩
  · refine forall_child_modifyChild c fun child hproper => ?_
    exact hproper.of_eq (hstatus child) (hstays child).ended_eq (hstays child).listener_eq
      (hreaders child)
  · exact forall_child_modifyChild c fun child hlength => (hreaders child).symm ▸ hlength

/-- Something comes from a process, and its listener is told. -/
theorem alerts_modifyChild_wakeReader (w : World) (c : Nat)
    (hreaders : ∀ child, (f child).readers = child.readers)
    (hlistener : ∀ child, (f child).listener = child.listener)
    (hproper : ∀ child, child.Proper → (f child).Proper) :
    Alerts w ((w.modifyChild c f).wakeReader c) := by
  -- the listener that is told gives up its place
  have htold : ∀ {P : Host.Child → Prop}, (∀ child, P child → P { child with listener := none }) →
      (∀ k child, (w.modifyChild c f).host.child? k = some child → P child) → ∀ k child,
      ((w.modifyChild c f).wakeReader c).host.child? k = some child → P child := by
    intro P hnone hP
    unfold wakeReader
    split
    · exact forall_child_modifyChild c hnone hP
    · exact hP
  refine ⟨fun e he => ?_, fun k child hchild => ?_, fun h => ?_, fun h => ?_⟩
  · exact (stirs_wakeReader (w.modifyChild c f) c).grows.mem_ready he
  · unfold wakeReader
    by_cases hck : c = k
    · subst hck
      have hafter : (w.modifyChild c f).host.child? c = some (f child) := by
        rw [child?_modifyChild, hchild, Option.map_some]
      rw [hafter, Option.bind_some, hlistener child]
      cases htask : child.listener with
      | none => exact ⟨f child, hafter, hreaders child, .inr nofun⟩
      | some task =>
        refine ⟨{ f child with listener := none }, ?_, hreaders child, .inr fun task' htask' => ?_⟩
        · rw [host_wake, child?_modifyChild, hafter, Option.map_some]
        · obtain rfl := Option.some.inj htask'
          exact mem_concat_self
    · have hother : (w.modifyChild c f).host.child? k = some child :=
        (child?_modifyChild_of_ne hck w f).trans hchild
      split
      · exact ⟨child, (child?_modifyChild_of_ne hck _ _).trans hother, rfl, .inl (.refl child)⟩
      · exact ⟨child, hother, rfl, .inl (.refl child)⟩
  · exact htold (fun child hchild => ⟨hchild.ended, nofun⟩) (forall_child_modifyChild c hproper h)
  · refine htold (fun child hchild => hchild)
      (forall_child_modifyChild c (fun child hlength => ?_) h)
    exact (hreaders child).symm ▸ hlength

theorem alerts_wakeWatchers (w : World) (c : Nat) : Alerts w (w.wakeWatchers c) := by
  unfold wakeWatchers
  split
  · refine Alerts.trans ?_ (alerts_foldl (fun w task => alerts_enqueue w _) _ _)
    exact alerts_modifyChild w c (fun _ => rfl)
      (fun child => ⟨rfl, Nat.le_refl _, rfl⟩) fun _ => rfl
  · exact .refl w

theorem alerts_receive (w : World) (c : Nat) (bytes : List UInt8) :
    Alerts w (w.receive c bytes) := by
  unfold receive
  split
  · exact .refl w
  · refine alerts_modifyChild_wakeReader w c ?_ ?_ ?_
    all_goals
      intro child
      unfold Host.Child.send
      split
    · rfl
    · rfl
    · rfl
    · rfl
    · exact id
    · exact fun h => h.of_eq rfl rfl rfl rfl

theorem alerts_closeOutput (w : World) (c : Nat) : Alerts w (w.closeOutput c) :=
  alerts_modifyChild_wakeReader w c (fun _ => rfl) (fun _ => rfl)
    fun _ h => ⟨fun _ => rfl, h.listener⟩

theorem alerts_exit (w : World) (c : Nat) (status : Int) : Alerts w (w.exit c status) := by
  refine Alerts.trans (alerts_modifyChild_wakeReader w c ?_ ?_ fun _ h => h.exit status)
    (alerts_wakeWatchers _ c)
  all_goals
    intro child
    unfold Host.Child.exit
    split <;> rfl

theorem alerts_host (w : World) (deeds : List Host.Deed) (held : List (Nat × String)) :
    Alerts w { w with host := { w.host with deeds := deeds, held := held } } :=
      alerts_of_children rfl fun _ he => he

theorem alerts_signal (w : World) (c : Nat) (terminates : Bool) :
    Alerts w (w.signal c terminates).2 :=
  Composes.signal ⟨.refl, .trans⟩ (fun w _ => alerts_host w _ _)
    (fun w => alerts_exit w c) w terminates

theorem alerts_kill (w : World) (c : Nat) : Alerts w (w.kill c).2 :=
  Composes.kill ⟨.refl, .trans⟩ (fun w _ => alerts_host w _ _) (fun w => alerts_exit w c) w

theorem alerts_writeFault (w : World) (c : Nat) (fault : SystemFault) :
    Alerts w (w.modifyChild c fun child => { child with writeFault := some fault }) :=
  alerts_modifyChild w c (fun _ => rfl) (fun _ => ⟨rfl, Nat.le_refl _, rfl⟩) fun _ => rfl

theorem alerts_reaction (w : World) (c : Nat) (r : Host.Reaction) (id : String) :
    Alerts w ((w.sendReaction c r id).concludeReaction c r) :=
  Composes.reaction ⟨.refl, .trans⟩ (fun w _ => alerts_host w _ _) (fun w => alerts_receive w c)
    (fun w => alerts_closeOutput w c) (fun w => alerts_exit w c)
    (fun w => alerts_writeFault w c) w r id

/-- A process that is started has no listener, and those that are there stay as they are. -/
theorem alerts_spawn (w : World) (command : List String) (directory : String)
    (environment : List (String × String)) :
    Alerts w { w with host := (w.host.spawn command directory environment).2 } := by
  unfold Host.spawn
  dsimp only
  split
  · exact alerts_of_children rfl fun _ he => he
  · split
    · exact alerts_of_children rfl fun _ he => he
    · have hnew : ∀ {P : Host.Child → Prop} {new : Host.Child}, P new →
          (∀ c child, w.host.child? c = some child → P child) → ∀ (c : Nat) (child : Host.Child),
          (w.host.children ++ [new])[c]? = some child → P child := by
        intro P new hnew hP c child hchild
        by_cases hc : c < w.host.children.length
        · exact hP c child ((List.getElem?_append_left hc).symm.trans hchild)
        · rw [mem_singleton.1 (mem_of_getElem? ((List.getElem?_append_right
            (Nat.le_of_not_lt hc)).symm.trans hchild))]
          exact hnew
      refine ⟨fun _ he => he, fun c child hchild => ?_, hnew ?_, hnew ?_⟩
      · refine ⟨child, ?_, rfl, .inl (.refl child)⟩
        exact (List.getElem?_append_left (List.getElem?_eq_some_iff.1 hchild).1).trans hchild
      · have hfresh : ∀ b : Host.Behaviour, Host.Child.Proper
            { pid := Host.firstPid + w.host.children.length, behaviour := b,
              output := b.greeting } := fun b =>
          ⟨fun hrunning => Bool.noConfusion hrunning,
            fun _ htask => absurd htask.symm (Option.some_ne_none _)⟩
        split
        · exact (hfresh _).exit _
        · exact hfresh _
      · split
        · unfold Host.Child.exit
          split <;> exact Nat.zero_le _
        · exact Nat.zero_le _

end World

/-! ## Changes from outside -/

/-- The change leaves files alone. -/
def Change.sparesFiles : Change → Bool
  | .writeFile .. | .deleteFile .. | .makeDirectory .. => false
  | _ => true

/-- What is to come is arranged otherwise, or files are: processes, what was sent, clock and
directory stay. -/
structure Host.Arranges (change : Change) (h h' : Host) : Prop where
  children_eq : h'.children = h.children
  sent_eq : h'.sent = h.sent
  clock_eq : h'.clock = h.clock
  cwd_eq : h'.cwd = h.cwd
  disk_eq : change.sparesFiles = true → h'.disk = h.disk
  reactions : h'.reactions = h.reactions ∨ ∃ table, change = .reactions table ∧
    h'.reactions = table.foldl (fun t r => t.set r.1 r.2) h.reactions

namespace World

/-- The host is arranged, and then processes send something or end. -/
def Befalls (change : Change) (w w' : World) : Prop :=
  ∃ host, w.host.Arranges change host ∧ Stirs { w with host := host } w' ∧
    Alerts { w with host := host } w'

theorem befalls_host {change : Change} {w : World} {host : Host} (h : w.host.Arranges change host) :
    Befalls change w { w with host := host } := ⟨host, h, .refl _, .refl _⟩

theorem befalls_onLatest {change : Change} (hkeeps : ∀ h : Host, h.Arranges change h) {w : World}
    {f : World → Nat → World} (hf : ∀ c, Stirs w (f w c) ∧ Alerts w (f w c)) :
    Befalls change w (w.onLatest f) := by
  refine ⟨w.host, hkeeps _, ?_⟩
  unfold onLatest
  split
  · exact hf _
  · exact ⟨.refl _, .refl _⟩

/-- Time apart, nothing happens to tasks but that they are told of what came. -/
theorem befalls_of_undergo (m : Machine) (change : Change) : (∃ time, change = .elapse time) ∨
    ∃ w, m.undergo change = { m with world := w } ∧ Befalls change m.world w := by
  cases change with
  | elapse time => exact .inl ⟨time, rfl⟩
  | reactions table =>
    exact .inr ⟨_, rfl, befalls_host ⟨rfl, rfl, rfl, rfl, fun _ => rfl, .inr ⟨table, rfl, rfl⟩⟩⟩
  | behaviours list =>
    exact .inr ⟨_, rfl, befalls_host ⟨rfl, rfl, rfl, rfl, fun _ => rfl, .inl rfl⟩⟩
  | send texts bytes =>
    refine .inr ⟨_, rfl, befalls_onLatest (fun _ => ⟨rfl, rfl, rfl, rfl, fun _ => rfl, .inl rfl⟩)
      fun c => ⟨?_, ?_⟩⟩
    · exact (stirs_foldl (fun w t => stirs_receive w c _) _ texts).trans (stirs_receive _ c bytes)
    · exact (alerts_foldl (fun w t => alerts_receive w c _) _ texts).trans
        (alerts_receive _ c bytes)
  | release reverse =>
    refine .inr ⟨_, rfl, { m.world.host with held := [] }, ⟨rfl, rfl, rfl, rfl, fun _ => rfl,
      .inl rfl⟩, ?_, ?_⟩
    · exact stirs_foldl (fun w held => stirs_receive w _ _) _ _
    · exact alerts_foldl (fun w held => alerts_receive w _ _) _ _
  | exit status =>
    exact .inr ⟨_, rfl, befalls_onLatest
        (fun _ => ⟨rfl, rfl, rfl, rfl, fun _ => rfl, .inl rfl⟩) fun c =>
      ⟨stirs_exit _ c status, alerts_exit _ c status⟩⟩
  | close =>
    exact .inr ⟨_, rfl, befalls_onLatest
        (fun _ => ⟨rfl, rfl, rfl, rfl, fun _ => rfl, .inl rfl⟩) fun c =>
      ⟨stirs_closeOutput _ c, alerts_closeOutput _ c⟩⟩
  | writeFault fault =>
    refine .inr ⟨_, rfl, befalls_onLatest (fun _ => ⟨rfl, rfl, rfl, rfl, fun _ => rfl, .inl rfl⟩)
      fun c => ⟨?_, ?_⟩⟩
    · exact stirs_modifyChild _ c fun _ hrunning => hrunning
    · exact alerts_writeFault _ c fault
  | writeFile name bytes =>
    exact .inr ⟨_, rfl, befalls_host ⟨rfl, rfl, rfl, rfl, Bool.noConfusion, .inl rfl⟩⟩
  | deleteFile name =>
    exact .inr ⟨_, rfl, befalls_host ⟨rfl, rfl, rfl, rfl, Bool.noConfusion, .inl rfl⟩⟩
  | makeDirectory name =>
    exact .inr ⟨_, rfl, befalls_host ⟨rfl, rfl, rfl, rfl, Bool.noConfusion, .inl rfl⟩⟩

end World

/-! ## Turns -/

/-- Two tasks differ at most in their deadlines. -/
structure Task.Same (t u : Task) : Prop where
  id_eq : t.id = u.id
  role_eq : t.role = u.role
  await_eq : t.await = u.await
  next_eq : t.next = u.next

theorem Task.Same.refl (t : Task) : t.Same t := ⟨rfl, rfl, rfl, rfl⟩

namespace Machine

/-- The machine whose queue is `rest`, as it is while it serves what came before. -/
abbrev withQueue (m : Machine) (rest : List Wake) : Machine :=
  { m with world := { m.world with ready := rest } }

variable {m : Machine} {task : Nat} {t : Task}

theorem same_expire (task : Nat) (t : Task) :
    Task.Same (if t.id = task then { t with deadline := none } else t) t := by
  split <;> exact ⟨rfl, rfl, rfl, rfl⟩

theorem find?_spec (hfind : m.tasks.find? (fun t => t.id = task) = some t) :
    t ∈ m.tasks ∧ t.id = task :=
  ⟨mem_of_find?_eq_some hfind, by simpa using List.find?_some hfind⟩

theorem find?_of_unique {tasks : List Task} (ht : t ∈ tasks)
    (hunique : ∀ u ∈ tasks, u.id = t.id → u = t) : tasks.find? (fun u => u.id = t.id) = some t := by
  cases hfind : tasks.find? fun u => u.id = t.id with
  | none => exact absurd (decide_eq_true rfl) (List.find?_eq_none.1 hfind t ht)
  | some u => rw [hunique u (mem_of_find?_eq_some hfind) (by simpa using List.find?_some hfind)]

theorem resume_of_none (signal : Signal) (hfind : m.tasks.find? (fun t => t.id = task) = none) :
    m.resume task signal = m := by
  unfold resume
  rw [hfind]

/-- Who is told too early waits for output that is not there. -/
theorem of_isPremature {w : World} {signal : Signal} (h : isPremature w t signal = true) :
    ∃ c count, t.await = some (.output c count) ∧
      ∃ child, w.host.child? c = some child ∧ child.satisfies count = false := by
  unfold isPremature at h
  split at h
  · next c count hawait =>
    refine ⟨c, count, hawait, ?_⟩
    cases hchild : w.host.child? c with
    | none =>
      rw [hchild] at h
      cases h
    | some child =>
      rw [hchild] at h
      exact ⟨child, rfl, by simpa using h⟩
  · cases h

/-- A task that was told of something is no longer wanted, or was told of output too early, or goes
on. -/
theorem resume_of_some (signal : Signal) (hfind : m.tasks.find? (fun t => t.id = task) = some t) :
    let left : Machine :=
      { m with world := acknowledge m.world t, tasks := m.tasks.filter fun t => t.id ≠ task }
    (isDismissed left.world task t.role = true ∧ m.resume task signal = left) ∨
    isDismissed left.world task t.role = false ∧
      ((∃ c count, t.await = some (.output c count) ∧ isPremature left.world t signal = true ∧
        m.resume task signal = { left with
            world := enroll left.world task (.output c count), tasks := left.tasks ++ [t] }) ∨
        isPremature left.world t signal = false ∧
          m.resume task signal = left.advance task t.role (t.next signal)) := by
  unfold resume
  rw [hfind]
  dsimp only
  cases isDismissed (acknowledge m.world t) task t.role with
  | true => exact .inl ⟨rfl, rfl⟩
  | false =>
    refine .inr ⟨rfl, ?_⟩
    cases hpremature : isPremature (acknowledge m.world t) t signal with
    | true =>
      obtain ⟨c, count, hawait, -⟩ := of_isPremature hpremature
      exact .inl ⟨c, count, hawait, rfl, by rw [hawait]; rfl⟩
    | false => exact .inr ⟨rfl, by cases t.await <;> rfl⟩

/-! ## Time -/

theorem mem_insertByDeadline {u : Task} {l : List Task}
    (hu : u ∈ insertByDeadline t l) : u = t ∨ u ∈ l := by
  induction l with
  | nil => exact .inl (mem_singleton.1 hu)
  | cons v l ih =>
    unfold insertByDeadline at hu
    split at hu
    · obtain rfl | hu := mem_cons.1 hu
      · exact .inr mem_cons_self
      · exact (ih hu).imp_right (mem_cons_of_mem _)
    · exact mem_cons.1 hu

theorem mem_tasks_of_dueTasks (ht : t ∈ m.dueTasks) : t ∈ m.tasks := by
  have hfold : ∀ (l due : List Task), t ∈ l.foldl (fun due t => insertByDeadline t due) due →
      t ∈ l ∨ t ∈ due := by
    intro l
    induction l with
    | nil => exact fun due hmem => .inr hmem
    | cons u l ih =>
      intro due hmem
      obtain hmem | hmem := ih _ hmem
      · exact .inl (mem_cons_of_mem _ hmem)
      · obtain rfl | hmem := mem_insertByDeadline hmem
        · exact .inl mem_cons_self
        · exact .inr hmem
  exact (mem_filter.1 ((hfold _ _ ht).resolve_right not_mem_nil)).1

/-- As time passes the clock moves on, and then the tasks that are due are told, one after the
other. -/
theorem elapse_induction {P : Machine → Prop} (time : Int) (hclock :
      P { m with
          world :=
            { m.world with host := { m.world.host with clock := m.world.host.clock + time } } })
    (hexpire : ∀ m t, P m → (∃ u ∈ m.tasks, u.id = t.id ∧ u.await = t.await) → P (m.expire t)) :
    P (m.elapse time) := by
  have hall : ∀ (due : List Task) (m : Machine),
    P m → (∀ t ∈ due, ∃ u ∈ m.tasks, u.id = t.id ∧ u.await = t.await) → P (due.foldl expire m) := by
    intro due
    induction due with
    | nil => exact fun _ hm _ => hm
    | cons t due ih =>
      intro m hm hdue
      refine ih _ (hexpire m t hm (hdue t mem_cons_self)) fun v hv => ?_
      obtain ⟨u, hu, hid, hawait⟩ := hdue v (mem_cons_of_mem _ hv)
      have hsame := same_expire t.id u
      exact ⟨_, mem_map_of_mem hu, hsame.id_eq.trans hid, hsame.await_eq.trans hawait⟩
  exact hall _ _ hclock fun t ht => ⟨t, mem_tasks_of_dueTasks ht, rfl, rfl⟩

end Machine

end IdeMode
