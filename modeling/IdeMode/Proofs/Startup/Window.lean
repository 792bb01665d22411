import IdeMode.Proofs.Calls.Outcomes
import IdeMode.Proofs.Startup.Turns
set_option autoImplicit false

/-!
# While a banner is waited for

One operation has started a process and waits for its banner, and others come meanwhile. As long as
none of them issues a call, nothing keeps the first from reading its banner: it reads just the bytes
that the process sends.
-/

namespace IdeMode.Startup

open Client Prog World List

/-! ## Machines -/

/-- A start that is under way: the session, the process, the operation and its task that waits for
the banner, the banner, what was done to processes so far, and the number of calls so far. -/
structure Start where
  session : Nat
  child : Nat
  task : Nat
  index : Nat
  banner : Banner
  deeds : List Host.Deed
  issued : Nat

/-- A task is an operation that was asked for and has not begun. -/
def Unbegun (s : Nat) (u : Task) : Prop :=
  u.await = none ∧ ∃ index request, u.role = .job index ∧ request ≠ SessionRequest.close ∧
    ∀ signal, u.next signal = Ending.answer <$> request.action s

/-- A task waits for `n` bytes of a banner. Of what arrived, `read` was read, and `rest` is still to
be read of the banner. -/
structure Awaits (σ : Start) (arrived : List UInt8) (m : Machine) (child : Host.Child)
    (task : Task) (n : Nat) (read rest : List UInt8) : Prop where
  process_eq : m.world.host.child? σ.child = some child
  status_eq : child.status = none
  ended_eq : child.ended = false
  readers_eq : child.readers = [σ.task]
  watchers_eq : child.watchers = []
  bytes_eq : σ.banner.bytes = read ++ rest
  arrived_eq : arrived = read ++ child.output
  /-- the task is told when bytes come, or it was told and its turn comes -/
  told : child.listener = some σ.task ∧ child.output.length < n ∨
    child.listener = none ∧ .resume σ.task .woken ∈ m.world.ready
  mem : task ∈ m.tasks
  id_eq : task.id = σ.task
  unique : ∀ u ∈ m.tasks, u.id = σ.task → u = task
  role_eq : task.role = .job σ.index
  await_eq : task.await = some (.output σ.child n)
  count_le : n ≤ rest.length
  next : ∀ w, Ready σ.session σ.child rest n w →
    Safe (opening σ.session σ.banner) (task.next .woken) (Over σ.session σ.banner) w
      (.greeting σ.child rest)

/-- A start was undertaken, and nothing else has been done in its session. -/
structure Undertaken (σ : Start) (arrived : List UInt8) (m : Machine) : Prop where
  child_eq : (m.world.session σ.session).transport.child = some σ.child
  atRest : AtRest (m.world.session σ.session).dispatch
  issued_eq : (m.world.session σ.session).dispatch.stats.issued = σ.issued
  latest : m.world.host.children.length = σ.child + 1
  deeds_eq : m.world.host.deeds = σ.deeds
  agree : Agree arrived σ.banner.bytes
  below : ∀ u ∈ m.tasks, u.id < m.world.nextTask
  queue : ∀ e ∈ m.world.ready, IsNotice e ∨ ∃ u, e = .resume u .woken

/-- A start is under way and undisturbed: its task waits for the banner, and no other task has
begun. -/
structure Opening (σ : Start) (arrived : List UInt8) (m : Machine) : Prop
    extends Undertaken σ arrived m where
  starter : ∃ child task n read rest, Awaits σ arrived m child task n read rest
  others : ∀ u ∈ m.tasks, u.id ≠ σ.task → Unbegun σ.session u

variable {σ : Start} {arrived : List UInt8} {m m' : Machine}

/-- What does not concern the start leaves it under way. -/
theorem Opening.frame (h : Opening σ arrived m) (htasks : m'.tasks = m.tasks)
    (htransport : (m'.world.session σ.session).transport = (m.world.session σ.session).transport)
    (hrest : AtRest (m'.world.session σ.session).dispatch)
    (hissued : (m'.world.session σ.session).dispatch.stats.issued =
      (m.world.session σ.session).dispatch.stats.issued)
    (hchild : m'.world.host.child? σ.child = m.world.host.child? σ.child)
    (hlength : m'.world.host.children.length = m.world.host.children.length)
    (hdeeds : m'.world.host.deeds = m.world.host.deeds)
    (hnextTask : m'.world.nextTask = m.world.nextTask)
    (hmem : .resume σ.task .woken ∈ m.world.ready → .resume σ.task .woken ∈ m'.world.ready)
    (hqueue : ∀ e ∈ m'.world.ready, IsNotice e ∨ ∃ u, e = .resume u .woken) :
    Opening σ arrived m' := by
  obtain ⟨child, task, n, read, rest, hawaits⟩ := h.starter
  refine ⟨⟨htransport ▸ h.child_eq, hrest, hissued.trans h.issued_eq, hlength.trans h.latest,
    hdeeds.trans h.deeds_eq, h.agree, hnextTask ▸ htasks ▸ h.below, hqueue⟩,
    ⟨child, task, n, read, rest, ?_⟩, htasks ▸ h.others⟩
  exact { hawaits with
    process_eq := hchild.trans hawaits.process_eq
    told := hawaits.told.imp id fun htold => ⟨htold.1, hmem htold.2⟩
    mem := htasks ▸ hawaits.mem
    unique := htasks ▸ hawaits.unique }

/-! ## Bytes -/

/-- Bytes of one process are nothing to another, and nothing is done to either. -/
theorem receive_keeps (w : World) (c : Nat) (bytes : List UInt8) :
    (w.receive c bytes).host.deeds = w.host.deeds ∧
      ∀ k ≠ c, (w.receive c bytes).host.child? k = w.host.child? k := by
  have hwake : ∀ w : World, (w.wakeReader c).host.deeds = w.host.deeds ∧
      ∀ k ≠ c, (w.wakeReader c).host.child? k = w.host.child? k := by
    intro w
    unfold wakeReader
    split
    · exact ⟨rfl, fun k hk => child?_modifyChild_of_ne (Ne.symm hk) w _⟩
    · exact ⟨rfl, fun _ _ => rfl⟩
  unfold World.receive
  split
  · exact ⟨rfl, fun _ _ => rfl⟩
  · refine ⟨(hwake _).1, fun k hk => ((hwake _).2 k hk).trans ?_⟩
    exact child?_modifyChild_of_ne (Ne.symm hk) w _

variable {w : World}

/-- A task that waits for output is told when some comes; one that was told before is not told
again. -/
theorem receive_self {c t : Nat} {child : Host.Child} {bytes : List UInt8}
    (hbytes : bytes.isEmpty = false) (hchild : w.host.child? c = some child)
    (hended : child.ended = false)
    (htold : child.listener = some t ∨ child.listener = none ∧ .resume t .woken ∈ w.ready) :
    (w.receive c bytes).host.child? c =
      some { child with output := child.output ++ bytes, listener := none } ∧
      .resume t .woken ∈ (w.receive c bytes).ready := by
  have hsent : (w.modifyChild c fun child => child.send bytes).host.child? c =
      some { child with output := child.output ++ bytes } := by
    rw [child?_modifyChild, hchild, Option.map_some]
    simp [Host.Child.send, hended]
  unfold World.receive wakeReader
  simp only [hbytes, Bool.false_eq_true, if_false, hsent, Option.bind_some]
  rcases htold with hlistener | ⟨hlistener, hmem⟩
  · rw [hlistener]
    refine ⟨?_, mem_concat_self⟩
    rw [host_wake, child?_modifyChild, hsent, Option.map_some]
  · rw [hlistener]
    refine ⟨?_, hmem⟩
    rw [hsent, ← hlistener]

/-- The bytes that a process gets if some are sent. -/
def bytesFor (c c' : Nat) (bytes : List UInt8) : List UInt8 := if c' = c then bytes else []

theorem Opening.receive (h : Opening σ arrived m) (c : Nat) (bytes : List UInt8)
    (hagree : Agree (arrived ++ bytesFor σ.child c bytes) σ.banner.bytes) :
    Opening σ (arrived ++ bytesFor σ.child c bytes)
      { m with world := m.world.receive c bytes } := by
  have hstirs := stirs_receive m.world c bytes
  obtain ⟨hdeeds, hother⟩ := receive_keeps m.world c bytes
  obtain ⟨told, hready⟩ := hstirs.ready_eq
  have hsession : (m.world.receive c bytes).session σ.session = m.world.session σ.session := by
    unfold World.session
    rw [hstirs.sessions_eq]
  have hqueue : ∀ e ∈ (m.world.receive c bytes).ready, IsNotice e ∨ ∃ u, e = .resume u .woken := by
    intro e he
    rw [hready] at he
    rcases mem_append.1 he with he | he
    · exact h.queue e he
    · obtain ⟨u, -, rfl⟩ := mem_map.1 he
      exact .inr ⟨u, rfl⟩
  by_cases hc : c = σ.child
  · subst hc
    have hall : bytesFor σ.child σ.child bytes = bytes := if_pos rfl
    rw [hall] at hagree ⊢
    cases hbytes : bytes.isEmpty with
    | true =>
      rw [isEmpty_iff.1 hbytes, append_nil]
      exact h
    | false =>
      obtain ⟨child, task, n, read, rest, hawaits⟩ := h.starter
      obtain ⟨hchild, hmem⟩ :=
        receive_self hbytes hawaits.process_eq hawaits.ended_eq (hawaits.told.imp And.left id)
      refine ⟨⟨hsession ▸ h.child_eq, hsession ▸ h.atRest, hsession ▸ h.issued_eq,
        hstirs.length_eq.trans h.latest, hdeeds.trans h.deeds_eq, hagree,
        hstirs.nextTask_eq ▸ h.below, hqueue⟩, ⟨{ child with
          output := child.output ++ bytes, listener := none }, task, n, read, rest, ?_⟩, h.others⟩
      exact { hawaits with
        process_eq := hchild
        arrived_eq := by rw [hawaits.arrived_eq, append_assoc]
        told := .inr ⟨rfl, hmem⟩ }
  · have hnone : bytesFor σ.child c bytes = [] := if_neg hc
    rw [hnone, append_nil]
    apply h.frame
    · rfl
    · exact congrArg Session.transport hsession
    · exact hsession ▸ h.atRest
    · rw [hsession]
    · exact hother σ.child (Ne.symm hc)
    · exact hstirs.length_eq
    · exact hdeeds
    · exact hstirs.nextTask_eq
    · intro hmem
      rw [hready]
      exact mem_append_left _ hmem
    · exact hqueue

/-- Bytes are sent one piece after the other. -/
theorem Opening.receiveAll {κ : Type} (h : Opening σ arrived m) (target : κ → Nat)
    (bytes : κ → List UInt8) (pieces : List κ) (hagree : Agree (arrived ++
      pieces.flatMap fun piece => bytesFor σ.child (target piece) (bytes piece)) σ.banner.bytes) :
    Opening σ (arrived ++ pieces.flatMap fun piece => bytesFor σ.child (target piece) (bytes piece))
      { m with
        world :=
          pieces.foldl (fun w piece => w.receive (target piece) (bytes piece)) m.world } := by
  induction pieces generalizing m arrived with
  | nil =>
    rw [flatMap_nil, append_nil]
    exact h
  | cons piece pieces ih =>
    rw [flatMap_cons, ← append_assoc] at hagree ⊢
    exact ih (h.receive _ _ hagree.of_append) hagree

/-! ## Changes -/

/-- The process neither exits nor ends its output. -/
def Endures : Change → Prop
  | .exit _ | .close => False
  | _ => True

/-- The bytes that a process sends in a change. -/
def sentBy (c : Nat) (w : World) : Change → List UInt8
  | .send texts bytes =>
    if w.host.latest? = some c then texts.flatMap Host.messageBytes ++ bytes else []
  | .release reverse => (if reverse then w.host.held.reverse else w.host.held).flatMap fun held =>
    bytesFor c held.1 (Host.messageBytes held.2)
  | _ => []

/-- An entry of the queue tells a task that the time for its wait ran out. -/
def isLate : Wake → Bool
  | .resume _ .expired | .relay .. => true
  | _ => false

/-- Nobody is told that the time for a wait ran out. -/
def OnTime (m : Machine) : Prop := ∀ e ∈ m.world.ready, isLate e = false

instance (m : Machine) : Decidable (OnTime m) :=
  inferInstanceAs (Decidable (∀ e ∈ m.world.ready, isLate e = false))

/-- A task that is not late already waits for what it waits for. -/
theorem suspend_of_onTime {t : Task} {on : Await} (h : OnTime (m.suspend t on)) :
    m.suspend t on = { m with
        world := Machine.enroll m.world t.id on,
          tasks := m.tasks ++ [{ t with await := some on }] } := by
  unfold Machine.suspend at h ⊢
  dsimp only at h ⊢
  split at h
  · exact Bool.noConfusion (h _ mem_concat_self)
  · next hexpired => rw [if_neg hexpired, if_neg hexpired]

theorem ready_expireAll (due : List Task) (m : Machine) : (due.foldl Machine.expire m).world.ready =
      m.world.ready ++ due.map fun u => .resume u.id .expired := by
  have hgiveUp : ∀ (w : World) (t : Nat) (on : Await), (Machine.giveUp w t on).ready = w.ready := by
    intro w t on
    cases on <;> rfl
  have hexpire : ∀ (m : Machine) (u : Task),
      (m.expire u).world.ready = m.world.ready ++ [.resume u.id .expired] := by
    intro m u
    unfold Machine.expire
    cases u.await with
    | none => rfl
    | some on => exact congrArg (· ++ _) (hgiveUp m.world u.id on)
  induction due generalizing m with
  | nil => simp
  | cons u due ih => rw [foldl_cons, ih, hexpire, map_cons, append_assoc, singleton_append]

/-- A change of the host that does not concern processes leaves the start under way. -/
theorem Opening.host {host : Host} (h : Opening σ arrived m)
    (hchildren : host.children = m.world.host.children) (hdeeds : host.deeds = m.world.host.deeds) :
    Opening σ arrived { m with world := { m.world with host := host } } := by
  apply h.frame
  · rfl
  · rfl
  · exact h.atRest
  · rfl
  · unfold Host.child?
    rw [hchildren]
  · exact congrArg List.length hchildren
  · exact hdeeds
  · rfl
  · exact id
  · exact h.queue

/-- Whatever happens from outside leaves the start under way, and the bytes that are sent arrive. -/
theorem Opening.undergo {change : Change} (h : Opening σ arrived m) (hendures : Endures change)
    (hontime : OnTime (m.undergo change))
    (hagree : Agree (arrived ++ sentBy σ.child m.world change) σ.banner.bytes) :
    Opening σ (arrived ++ sentBy σ.child m.world change) (m.undergo change) := by
  have hlatest : m.world.host.latest? = some σ.child := by
    unfold Host.latest?
    rw [if_neg (by rw [isEmpty_iff_length_eq_zero, h.latest]; omega), h.latest, Nat.add_sub_cancel]
  have hquiet : sentBy σ.child m.world change = [] → Opening σ arrived (m.undergo change) →
      Opening σ (arrived ++ sentBy σ.child m.world change) (m.undergo change) := by
    intro hnone hopening
    rw [hnone, append_nil]
    exact hopening
  cases change with
  | send texts bytes =>
    have hsent : sentBy σ.child m.world (.send texts bytes) = texts.flatMap Host.messageBytes ++
      bytes := if_pos hlatest
    have hself : ∀ bytes, bytesFor σ.child σ.child bytes = bytes := fun _ => if_pos rfl
    rw [hsent, ← append_assoc] at hagree ⊢
    have htexts : Opening σ (arrived ++ texts.flatMap Host.messageBytes) { m with
        world :=
          texts.foldl (fun w text => w.receive σ.child (Host.messageBytes text)) m.world } := by
      have hall := h.receiveAll (fun _ => σ.child) Host.messageBytes texts
      simp only [hself] at hall
      exact hall hagree.of_append
    have hall := htexts.receive σ.child bytes
    rw [hself] at hall
    unfold Machine.undergo onLatest
    rw [hlatest]
    exact hall hagree
  | release reverse =>
    have hreleased : Opening σ arrived
        { m with world := { m.world with host := { m.world.host with held := [] } } } :=
      h.host rfl rfl
    exact hreleased.receiveAll Prod.fst (fun held => Host.messageBytes held.2)
      (if reverse then m.world.host.held.reverse else m.world.host.held) hagree
  | writeFault fault =>
    apply hquiet rfl
    obtain ⟨child, task, n, read, rest, hawaits⟩ := h.starter
    unfold Machine.undergo onLatest
    rw [hlatest]
    refine { h with
      latest := (length_modify ..).trans h.latest
      starter := ⟨{ child with writeFault := some fault }, task, n, read, rest, ?_⟩ }
    exact
      { hawaits with process_eq := by rw [child?_modifyChild, hawaits.process_eq, Option.map_some] }
  | elapse time =>
    apply hquiet rfl
    have hlater : Opening σ arrived { m with
        world :=
          { m.world with host := { m.world.host with clock := m.world.host.clock + time } } } :=
          h.host rfl rfl
    unfold Machine.undergo Machine.elapse at hontime ⊢
    dsimp only at hontime ⊢
    generalize Machine.dueTasks _ = due at hontime ⊢
    cases due with
    | nil => exact hlater
    | cons u due =>
      have hmem : Wake.resume u.id .expired ∈
        ((u :: due).foldl Machine.expire { m with world := { m.world with
          host := { m.world.host with clock := m.world.host.clock + time } } }).world.ready := by
        rw [ready_expireAll]
        exact mem_append_right _ mem_cons_self
      exact Bool.noConfusion (hontime _ hmem)
  | exit status => exact hendures.elim
  | close => exact hendures.elim
  | reactions table => exact hquiet rfl (h.host rfl rfl)
  | behaviours list => exact hquiet rfl (h.host rfl rfl)
  | writeFile name bytes => exact hquiet rfl (h.host rfl rfl)
  | deleteFile name => exact hquiet rfl (h.host rfl rfl)
  | makeDirectory name => exact hquiet rfl (h.host rfl rfl)

/-! ## Operations -/

variable {request : SessionRequest} {more : List Wake}

/-- An operation that is asked for leaves the start under way. -/
theorem Opening.launch (h : Opening σ arrived m) (hrequest : request ≠ .close) (index : Nat) :
    Opening σ arrived (m.launch index (request.action σ.session)) := by
  obtain ⟨child, task, n, read, rest, hawaits⟩ := h.starter
  refine ⟨{ h with below := ?_, queue := ?_ }, ⟨child, task, n, read, rest, ?_⟩, ?_⟩
  · intro u hu
    rcases mem_append.1 hu with hu | hu
    · exact Nat.lt_succ_of_lt (h.below u hu)
    · obtain rfl := mem_singleton.1 hu
      exact Nat.lt_succ_self _
  · intro e he
    rcases mem_append.1 he with he | he
    · exact h.queue e he
    · exact .inr ⟨_, mem_singleton.1 he⟩
  · refine { hawaits with
      told := hawaits.told.imp id fun htold => ⟨htold.1, mem_append_left _ htold.2⟩
      mem := mem_append_left _ hawaits.mem
      unique := ?_ }
    intro u hu hid
    rcases mem_append.1 hu with hu | hu
    · exact hawaits.unique u hu hid
    · obtain rfl := mem_singleton.1 hu
      have hbelow := h.below task hawaits.mem
      rw [hawaits.id_eq, ← hid] at hbelow
      exact absurd hbelow (Nat.lt_irrefl _)
  · intro u hu hne
    rcases mem_append.1 hu with hu | hu
    · exact h.others u hu hne
    · obtain rfl := mem_singleton.1 hu
      exact ⟨rfl, index, request, rfl, hrequest, fun _ => rfl⟩

/-- Things done aside leave the start under way. -/
theorem Opening.aside (h : Opening σ arrived m) (haside : Aside σ.session m.world w) :
    Opening σ arrived { m with world := w } := by
  obtain ⟨disk, hdisk⟩ := haside.host_eq
  obtain ⟨more, hready, hmore⟩ := haside.ready_eq
  apply h.frame
  · rfl
  · exact haside.transport_eq
  · exact haside.rest h.atRest
  · exact haside.issued_eq
  · rw [hdisk]
    rfl
  · exact congrArg List.length haside.children_eq
  · rw [hdisk]
  · exact haside.nextTask_eq
  · intro hmem
    rw [hready]
    exact mem_append_left _ hmem
  · intro e he
    replace he : e ∈ w.ready := he
    rw [hready] at he
    exact (mem_append.1 he).elim (h.queue e) fun he => .inl (hmore e he)

/-- A continuation that runs is nothing to a start. -/
theorem aside_settle (s t : Nat) (w : World) (addressee : Addressee) (outcome : Outcome) :
    Aside s w (w.settle t addressee outcome) := by
  unfold World.settle
  split
  · exact .report w _
  · exact .report w _
  · next d generation r =>
    have hlink := link_recordLoad (w.session t) d generation
    refine Aside.trans ?_ (.report _ _)
    exact .modifySession (congrArg Prod.fst hlink) (congrArg (·.2.1) hlink)
  · exact (aside_loadFault w t _ _).trans (.report _ _)
  · exact .refl w

/-! ## Turns -/

/-- A start is over: all of the banner has arrived, and its task goes on. -/
structure Started (σ : Start) (arrived : List UInt8) (m : Machine) : Prop where
  arrived : σ.banner.bytes <+: arrived
  hailed : Hailed σ.session σ.child σ.banner σ.deeds m.world
  gone : ∀ u ∈ m.tasks, u.id = σ.task → ∀ c n, u.await ≠ some (.output c n)

/-- Another operation has issued a call while the start waits for the banner. -/
structure Overtaken (σ : Start) (arrived : List UInt8) (m : Machine) : Prop where
  child_eq : (m.world.session σ.session).transport.child = some σ.child
  starter : ∃ child task n read rest, Awaits σ arrived m child task n read rest
  issued_eq : (m.world.session σ.session).dispatch.stats.issued = σ.issued + 1
  pending_eq : ∃ call, (m.world.session σ.session).dispatch.pending = [call]

theorem Opening.present (h : Opening σ arrived m) : σ.session < m.world.sessions.length := by
  apply Nat.lt_of_not_le
  intro hle
  have hserves := h.child_eq
  rw [World.session, List.getElem?_eq_none hle] at hserves
  cases hserves

theorem Opening.isRunning (h : Opening σ arrived m) : m.world.isRunning σ.session = true := by
  obtain ⟨child, task, n, read, rest, hawaits⟩ := h.starter
  simp [World.isRunning, h.child_eq, Host.isRunning, hawaits.process_eq, Host.Child.isRunning,
    hawaits.status_eq]

theorem Opening.same (h : Opening σ arrived m) (hworld : m'.world = m.world)
    (htasks : m'.tasks = m.tasks) : Opening σ arrived m' := by
  apply h.frame htasks
  all_goals rw [hworld]
  · exact h.atRest
  · exact id
  · exact h.queue

theorem Opening.goes (h : Opening σ arrived m) (hrequest : request ≠ .close) :
    Goes σ.session m.world ((Ending.answer <$> request.action σ.session).run m.world).1
      ((Ending.answer <$> request.action σ.session).run m.world).2 := by
  have hgood : Good σ.session σ.banner m.world .idle := ⟨h.present, h.atRest, .inl h.isRunning⟩
  exact goes_of_safe (safe_over_map _ (safe_sessionRequest hrequest hgood)) h.isRunning

variable {index : Nat}

theorem Opening.overtaken {call : Call} (h : Opening σ arrived m)
    (hissues : Issues σ.session m.world w call) (waiting : Table Nat Nat)
    (hhost : m'.world.host = w.host) (hready : m'.world.ready = w.ready)
    (htransport : (m'.world.session σ.session).transport = (w.session σ.session).transport)
    (hdispatch : (m'.world.session σ.session).dispatch =
      { (w.session σ.session).dispatch with waiting := waiting })
    (htasks : ∀ u ∈ m.tasks, u ∈ m'.tasks) (hnew : ∀ u ∈ m'.tasks, u.id = σ.task → u ∈ m.tasks) :
    Overtaken σ arrived m' := by
  obtain ⟨child, task, n, read, rest, hawaits⟩ := h.starter
  have hserved := hissues.served h.present h.atRest
  obtain ⟨disk, hdisk⟩ := hserved.host_eq
  obtain ⟨more, hqueue⟩ := hserved.ready_eq
  refine ⟨?_, ⟨child, task, n, read, rest, ?_⟩, ?_, call, ?_⟩
  · rw [htransport, hserved.transport_eq]
    exact h.child_eq
  · refine { hawaits with
      process_eq := ?_
      told := hawaits.told.imp id fun htold => ⟨htold.1, ?_⟩
      mem := htasks task hawaits.mem
      unique := fun u hu hid => hawaits.unique u (hnew u hu hid) hid }
    · rw [hhost, hdisk]
      exact hawaits.process_eq
    · rw [hready, hqueue]
      exact mem_append_left _ htold.2
  · rw [hdispatch]
    exact hserved.issued_eq.trans (congrArg (· + 1) h.issued_eq)
  · rw [hdispatch]
    exact hserved.pending_eq

/-- Another operation has its turn: it leaves the start under way and ends, or it issues a call. -/
theorem Opening.advance {id : Nat} (h : Opening σ arrived m) (hrequest : request ≠ .close)
    (hid : id ≠ σ.task) (index : Nat)
    (hontime : OnTime (m.advance id (.job index) (Ending.answer <$> request.action σ.session))) :
    Opening σ arrived (m.advance id (.job index) (Ending.answer <$> request.action σ.session)) ∨
      Overtaken σ arrived (m.advance id (.job index)
        (Ending.answer <$> request.action σ.session)) := by
  have hgoes := h.goes hrequest
  unfold Machine.advance at hontime ⊢
  generalize (Ending.answer <$> request.action σ.session : Action Ending).run m.world = run
    at hgoes hontime ⊢
  obtain ⟨halt, w⟩ := run
  cases hgoes with
  | @ends r w haside =>
    dsimp only
    rw [Machine.finish_job]
    exact .inl ((h.aside haside).same rfl rfl)
  | @posts r w call hissues =>
    dsimp only
    rw [Machine.finish_job]
    exact .inr (h.overtaken hissues _ rfl rfl rfl rfl (fun _ hu => hu) (fun _ hu _ => hu))
  | @calls deadline next w call hissues =>
    dsimp only at hontime ⊢
    rw [suspend_of_onTime hontime]
    have hpresent : σ.session < w.sessions.length :=
      (hissues.served h.present h.atRest).length_eq ▸ h.present
    have hdispatch : ((Machine.enroll w id (.outcome σ.session call.id)).session
      σ.session).dispatch = { (w.session σ.session).dispatch with
          waiting := (w.session σ.session).dispatch.waiting.set call.id id } :=
      congrArg Session.dispatch (session_modifySession_self hpresent _)
    refine .inr (h.overtaken hissues _ rfl rfl (transport_modifyDispatch ..) hdispatch
      (fun u hu => mem_append_left _ hu) ?_)
    intro u hu heq
    rcases mem_append.1 hu with hu | hu
    · exact hu
    · rw [mem_singleton.1 hu] at heq
      exact absurd heq hid

/-- The task of the start has its turn: nobody waits for output. -/
structure Hearing (σ : Start) (arrived : List UInt8) (m : Machine) (child : Host.Child)
    (read rest : List UInt8) : Prop extends Undertaken σ arrived m where
  process_eq : m.world.host.child? σ.child = some child
  status_eq : child.status = none
  ended_eq : child.ended = false
  readers_eq : child.readers = []
  listener_eq : child.listener = none
  watchers_eq : child.watchers = []
  bytes_eq : σ.banner.bytes = read ++ rest
  arrived_eq : arrived = read ++ child.output
  others : ∀ u ∈ m.tasks, u.id ≠ σ.task ∧ Unbegun σ.session u
  task_lt : σ.task < m.world.nextTask

section Hearing

variable {child : Host.Child} {read rest : List UInt8} {n : Nat}

theorem Hearing.agree_rest (h : Hearing σ arrived m child read rest) : Agree child.output rest := by
  have hagree := h.agree
  rw [h.bytes_eq, h.arrived_eq, agree_append_left] at hagree
  exact hagree

theorem Hearing.feeds (h : Hearing σ arrived m child read rest) :
    Feeds σ.session σ.child rest m.world :=
  ⟨h.child_eq, h.atRest, child, h.process_eq, h.status_eq, h.ended_eq, h.listener_eq, h.agree_rest⟩

/-- The task takes bytes of the banner. -/
theorem Hearing.take (h : Hearing σ arrived m child read rest) (houtput : n ≤ child.output.length)
    (hrest : n ≤ rest.length) : Hearing σ arrived
      { m with
        world :=
          m.world.modifyChild σ.child fun child => { child with output := child.output.drop n } }
      { child with output := child.output.drop n } (read ++ rest.take n) (rest.drop n) := by
  refine { h with
    latest := (length_modify ..).trans h.latest
    process_eq := ?_
    bytes_eq := ?_
    arrived_eq := ?_ }
  · rw [child?_modifyChild, h.process_eq, Option.map_some]
  · rw [append_assoc, take_append_drop]
    exact h.bytes_eq
  · rw [← h.agree_rest.take_eq houtput hrest, append_assoc, take_append_drop]
    exact h.arrived_eq

/-- The task waits for more. -/
theorem Hearing.listen {task : Task} (h : Hearing σ arrived m child read rest)
    (hid : task.id = σ.task) (hrole : task.role = .job σ.index)
    (hawait : task.await = some (.output σ.child n))
    (hshort : child.output.length < n) (hcount : n ≤ rest.length)
    (hnext : ∀ w, Ready σ.session σ.child rest n w →
      Safe (opening σ.session σ.banner) (task.next .woken) (Over σ.session σ.banner) w
        (.greeting σ.child rest)) : Opening σ arrived
      { m with
        world := Machine.enroll m.world σ.task (.output σ.child n),
          tasks := m.tasks ++ [task] } := by
  refine ⟨{ h with latest := (length_modify ..).trans h.latest, below := ?_ },
    ⟨child.listen σ.task, task, n, read, rest, ?_⟩, ?_⟩
  · intro u hu
    rcases mem_append.1 hu with hu | hu
    · exact h.below u hu
    · rw [mem_singleton.1 hu, hid]
      exact h.task_lt
  · refine ⟨?_, h.status_eq, h.ended_eq, ?_, h.watchers_eq, h.bytes_eq, h.arrived_eq,
      .inl ⟨rfl, hshort⟩, mem_concat_self, hid, ?_, hrole, hawait, hcount, hnext⟩
    · show (m.world.modifyChild σ.child _).host.child? σ.child = _
      rw [child?_modifyChild, h.process_eq, Option.map_some]
    · show child.readers ++ [σ.task] = _
      rw [h.readers_eq, nil_append]
    · intro u hu heq
      rcases mem_append.1 hu with hu | hu
      · exact absurd heq (h.others u hu).1
      · exact mem_singleton.1 hu
  · intro u hu hne
    rcases mem_append.1 hu with hu | hu
    · exact (h.others u hu).2
    · rw [mem_singleton.1 hu] at hne
      exact absurd hid hne

/-- The task goes on with what it was told of: it waits for more of the banner, or the start is
over. -/
theorem Hearing.advance {next : Action Ending} (h : Hearing σ arrived m child read rest)
    (hnext : Safe (opening σ.session σ.banner) next (Over σ.session σ.banner) m.world
      (.greeting σ.child rest)) (hontime : OnTime (m.advance σ.task (.job σ.index) next)) :
    Opening σ arrived (m.advance σ.task (.job σ.index) next) ∨
      Started σ arrived (m.advance σ.task (.job σ.index) next) := by
  have hhears := hears_of_safe hnext h.feeds h.process_eq
  unfold Machine.advance at hontime ⊢
  generalize next.run m.world = run at hhears hontime ⊢
  obtain ⟨halt, w⟩ := run
  cases hhears with
  | @waits n k deadline next' hrest houtput hmore hshort hnext' =>
    refine .inl ?_
    dsimp only at hontime ⊢
    rw [suspend_of_onTime hontime]
    exact (h.take houtput hrest).listen rfl rfl rfl hshort hmore hnext'
  | @starts halt w hread hhailed hhalt =>
    refine .inr ?_
    have harrived : σ.banner.bytes <+: arrived := by
      rw [h.bytes_eq, h.arrived_eq, prefix_append_right_inj]
      rcases h.agree_rest with hagree | hagree
      · exact (hagree.eq_of_length_le hread).symm ▸ prefix_rfl
      · exact hagree
    rw [h.deeds_eq] at hhailed
    cases halt with
    | finished r =>
      dsimp only
      rw [Machine.finish_job]
      exact ⟨harrived, hhailed, fun u hu hid => absurd hid (h.others u hu).1⟩
    | waiting on deadline next' =>
      obtain ⟨call, rfl⟩ := hhalt on deadline next' rfl
      refine ⟨harrived, ?_, fun u hu hid => ?_⟩
      · unfold Machine.suspend
        dsimp only
        split
        · exact hhailed.of_parts (session_modifySession_feature Session.transport rfl _) rfl rfl
        · exact hhailed.of_parts (session_modifySession_feature Session.transport rfl _) rfl rfl
      · rcases mem_append.1 hu with hu | hu
        · exact absurd hid (h.others u hu).1
        · rw [mem_singleton.1 hu]
          nofun

end Hearing

/-- An operation that was told of what it waits for goes on. -/
theorem resume_job {u : Task} (hu : u ∈ m.tasks) (hunique : ∀ v ∈ m.tasks, v.id = u.id → v = u)
    (hrole : u.role = .job index)
    (hdue : Machine.isPremature (Machine.acknowledge m.world u) u .woken = false) :
    m.resume u.id .woken = Machine.advance { m with
      world := Machine.acknowledge m.world u
      tasks := m.tasks.filter fun t => t.id ≠ u.id } u.id (.job index) (u.next .woken) := by
  unfold Machine.resume
  rw [Machine.find?_of_unique hu hunique]
  dsimp only
  rw [hrole, if_neg (by simp [Machine.isDismissed]), hdue]
  cases u.await <;> rfl

/-- What is done to a start that is under way in a turn of another task. -/
theorem Opening.without (h : Opening σ arrived m) {u : Nat} (hne : u ≠ σ.task) :
    Opening σ arrived { m with tasks := m.tasks.filter fun t => t.id ≠ u } := by
  obtain ⟨child, task, n, read, rest, hawaits⟩ := h.starter
  refine { h with
    starter := ⟨child, task, n, read, rest, ?_⟩
    others := fun v hv => h.others v (mem_of_mem_filter hv)
    below := fun v hv => h.below v (mem_of_mem_filter hv) }
  refine { hawaits with
    mem := mem_filter.2 ⟨hawaits.mem, ?_⟩
    unique := fun v hv => hawaits.unique v (mem_of_mem_filter hv) }
  rw [hawaits.id_eq]
  exact decide_eq_true (Ne.symm hne)

/-- The entry at the front of the queue is taken out; it does not concern the start. -/
theorem Opening.dequeue {e : Wake} (h : Opening σ arrived m) (hready : m.world.ready = e :: more)
    (hne : e ≠ .resume σ.task .woken) : Opening σ arrived (m.withQueue more) := by
  apply h.frame
  · rfl
  · rfl
  · exact h.atRest
  · rfl
  · rfl
  · rfl
  · rfl
  · rfl
  · intro hmem
    rw [hready] at hmem
    exact (mem_cons.1 hmem).resolve_left (Ne.symm hne)
  · intro e' he'
    exact h.queue e' (hready ▸ mem_cons_of_mem _ he')

/-- Another operation begins. -/
theorem Opening.begin {u : Nat} {t : Task} (h : Opening σ arrived m) (hne : u ≠ σ.task)
    (hfind : m.tasks.find? (fun t => t.id = u) = some t) (hindex : t.role = .job index)
    (hontime : OnTime (m.resume u .woken)) :
    Opening σ arrived (m.resume u .woken) ∨ Overtaken σ arrived (m.resume u .woken) := by
  obtain ⟨ht, hid⟩ := Machine.find?_spec hfind
  obtain ⟨hawait, -, request, -, hrequest, hnext⟩ := h.others t ht (hid ▸ hne)
  have hresume : m.resume u .woken =
    Machine.advance { m with tasks := m.tasks.filter fun t => t.id ≠ u } u (.job index)
      (Ending.answer <$> request.action σ.session) := by
    unfold Machine.resume Machine.acknowledge
    rw [hfind]
    dsimp only
    rw [hawait, hindex, hnext .woken, if_neg (by simp [Machine.isDismissed])]
  rw [hresume] at hontime ⊢
  exact (h.without hne).advance hrequest hne index hontime

/-- The task of the start has its turn. -/
theorem Opening.hear (h : Opening σ arrived m)
    (hready : m.world.ready = .resume σ.task .woken :: more)
    (hontime : OnTime (Machine.resume (m.withQueue more) σ.task .woken)) :
    Opening σ arrived (Machine.resume (m.withQueue more) σ.task .woken) ∨
      Started σ arrived (Machine.resume (m.withQueue more) σ.task .woken) := by
  obtain ⟨child, task, n, read, rest, hawaits⟩ := h.starter
  have hfind : m.tasks.find? (fun t => t.id = σ.task) = some task :=
    hawaits.id_eq ▸ Machine.find?_of_unique hawaits.mem
      fun u hu heq => hawaits.unique u hu (heq.trans hawaits.id_eq)
  have hhearing : Hearing σ arrived { m with
      world := Machine.acknowledge { m.world with ready := more } task
      tasks := m.tasks.filter fun t => t.id ≠ σ.task }
      { child with readers := [], listener := none } read rest := by
    have hleave : child.leave σ.task = { child with readers := [], listener := none } := by
      simp [Host.Child.leave, hawaits.readers_eq]
    unfold Machine.acknowledge
    rw [hawaits.await_eq, hawaits.id_eq]
    refine ⟨{ h with latest := (length_modify ..).trans h.latest, below := ?_, queue := ?_ },
      ?_, hawaits.status_eq, hawaits.ended_eq, rfl, rfl, hawaits.watchers_eq, hawaits.bytes_eq,
      hawaits.arrived_eq, ?_, ?_⟩
    · exact fun u hu => h.below u (mem_of_mem_filter hu)
    · exact fun e he => h.queue e (hready ▸ mem_cons_of_mem _ he)
    · rw [child?_modifyChild, ← hleave]
      exact congrArg (Option.map _) hawaits.process_eq
    · intro u hu
      obtain ⟨hu, hne⟩ := mem_filter.1 hu
      exact ⟨of_decide_eq_true hne, h.others u hu (of_decide_eq_true hne)⟩
    · exact hawaits.id_eq ▸ h.below task hawaits.mem
  have hpremature : Machine.isPremature
    (Machine.acknowledge { m.world with ready := more } task) task .woken =
      decide (child.output.length < n) := by
    unfold Machine.isPremature
    rw [hawaits.await_eq]
    dsimp only
    rw [hhearing.process_eq, Option.map_some, Option.getD_some, Host.Child.satisfies,
      hawaits.ended_eq, Bool.or_false, ← decide_not]
    exact decide_eq_decide.2 Nat.not_le
  unfold Machine.resume at hontime ⊢
  rw [hfind] at hontime ⊢
  dsimp only at hontime ⊢
  rw [hawaits.role_eq, hawaits.await_eq, if_neg (by simp [Machine.isDismissed])] at hontime ⊢
  dsimp only at hontime ⊢
  rw [hpremature] at hontime ⊢
  by_cases hshort : child.output.length < n
  · rw [if_pos (decide_eq_true hshort)]
    exact .inl (hhearing.listen hawaits.id_eq hawaits.role_eq hawaits.await_eq hshort
      hawaits.count_le hawaits.next)
  · have hnot : ¬ decide (child.output.length < n) = true :=
      fun hlt => hshort (of_decide_eq_true hlt)
    rw [if_neg hnot] at hontime ⊢
    refine hhearing.advance (hawaits.next _ ?_) hontime
    exact ⟨_, hhearing.process_eq, .inl ⟨hhearing.feeds, Nat.le_of_not_lt hshort⟩⟩

/-- A continuation has its turn. -/
theorem Opening.notice {e : Wake} (h : Opening σ arrived m) (hready : m.world.ready = e :: more)
    (hnotice : IsNotice e) : Opening σ arrived (Machine.serve (m.withQueue more) e) := by
  cases e with
  | settle s call outcome => exact (h.dequeue hready nofun).aside (aside_settle ..)
  | skip label => exact (h.dequeue hready nofun).aside (.report ..)
  | serve task service => exact hnotice.elim
  | resume task signal => exact hnotice.elim
  | relay task signal => exact hnotice.elim

/-- In a turn a start stays under way, or it comes to its end, or another operation issues a
call. -/
theorem Opening.turn (h : Opening σ arrived m) (hturn : m.turn = some m') (hontime : OnTime m') :
    Opening σ arrived m' ∨ Started σ arrived m' ∨ Overtaken σ arrived m' := by
  unfold Machine.turn at hturn
  split at hturn
  · cases hturn
  · next e more hready =>
    cases hturn
    rcases h.queue e (hready ▸ mem_cons_self) with hnotice | ⟨u, rfl⟩
    · exact .inl (h.notice hready hnotice)
    · by_cases hu : u = σ.task
      · subst hu
        exact (h.hear hready hontime).imp id .inl
      · have hne : Wake.resume u .woken ≠ .resume σ.task .woken :=
          fun heq => hu (Wake.resume.inj heq).1
        have hstill := h.dequeue hready hne
        cases hfind : m.tasks.find? (fun t => t.id = u) with
        | none =>
          rw [← Machine.resume_of_none (m := m.withQueue more) .woken hfind] at hstill
          exact .inl hstill
        | some t =>
          obtain ⟨ht, rfl⟩ := Machine.find?_spec hfind
          obtain ⟨-, index, -, hindex, -⟩ := h.others t ht hu
          exact (hstill.begin hu hfind hindex hontime).imp id .inr

end IdeMode.Startup
