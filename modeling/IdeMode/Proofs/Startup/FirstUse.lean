import IdeMode.Proofs.Calls.Attendance
import IdeMode.Proofs.Sexp.RoundTrip
import IdeMode.Proofs.Startup.Window
set_option autoImplicit false

/-!
# The first use of a session by several operations

An operation finds no process, starts one and waits for its banner; others come while it waits. As
long as they issue no call, no other process is started and the banner is read as if nobody else
were there. A call that is issued before the banner is read has the loop started that reads
messages. The loop finds the output of the process occupied, so it gives up and stops the process.

Others that come before the process is there find none either, and each of them starts one.
-/

namespace IdeMode.Startup

open Client Prog World List

variable {s c index : Nat} {b : Banner} {σ : Start} {arrived : List UInt8} {m m' : Machine}

/-! ## Runs -/

/-- A move that begins nothing but operations on one session, which do not close it, and lets the
process live. -/
def Bides (s : Nat) : Move → Prop
  | .turn => True
  | .launch _ operation => ∃ request, operation = .session s request ∧ request ≠ .close
  | .change change => Endures change

/-- The bytes that a process sends in a move. -/
def sentIn (c : Nat) (m : Machine) : Move → List UInt8
  | .turn | .launch _ _ => []
  | .change change => sentBy c m.world change

/-- The bytes that a process sends in a run. -/
def sends (c : Nat) (m : Machine) : List Move → List UInt8
  | [] => []
  | move :: moves => sentIn c m move ++ sends c (m.move move) moves

theorem Opening.move {move : Move} (h : Opening σ arrived m) (hbides : Bides σ.session move)
    (hontime : OnTime (m.move move))
    (hagree : Agree (arrived ++ sentIn σ.child m move) σ.banner.bytes) :
    Opening σ (arrived ++ sentIn σ.child m move) (m.move move) ∨
      Started σ (arrived ++ sentIn σ.child m move) (m.move move) ∨
      Overtaken σ (arrived ++ sentIn σ.child m move) (m.move move) := by
  cases move with
  | turn =>
    rw [sentIn, append_nil]
    unfold Machine.move at hontime ⊢
    cases hturn : m.turn with
    | none => exact .inl h
    | some m' =>
      rw [hturn] at hontime
      exact h.turn hturn hontime
  | launch index operation =>
    obtain ⟨request, rfl, hrequest⟩ := hbides
    rw [sentIn, append_nil]
    exact .inl (h.launch hrequest index)
  | change change => exact .inl (h.undergo hbides hontime hagree)

/-- In a run the start stays under way, unless at some point it has come to its end or another
operation has issued a call. -/
theorem Opening.follow {moves : List Move} (h : Opening σ arrived m)
    (hbides : ∀ move ∈ moves, Bides σ.session move)
    (hontime : ∀ k ≤ moves.length, OnTime (m.follow (moves.take k)))
    (hagree : Agree (arrived ++ sends σ.child m moves) σ.banner.bytes) :
    Opening σ (arrived ++ sends σ.child m moves) (m.follow moves) ∨ ∃ k ≤ moves.length,
      Started σ (arrived ++ sends σ.child m (moves.take k)) (m.follow (moves.take k)) ∨
      Overtaken σ (arrived ++ sends σ.child m (moves.take k)) (m.follow (moves.take k)) := by
  induction moves generalizing m arrived with
  | nil =>
    rw [sends, append_nil]
    exact .inl h
  | cons move moves ih =>
    rw [sends, ← append_assoc] at hagree ⊢
    have hone : arrived ++ sends σ.child m ((move :: moves).take 1) =
        arrived ++ sentIn σ.child m move := by
      rw [take_succ_cons, take_zero, sends, sends, append_nil]
    rcases h.move (hbides move mem_cons_self) (hontime 1 (Nat.succ_le_succ (Nat.zero_le _)))
      hagree.of_append with hopening | hend
    · have hnext := ih hopening (fun move hmove => hbides move (mem_cons_of_mem _ hmove))
        (fun k hk => hontime (k + 1) (Nat.succ_le_succ hk)) hagree
      refine hnext.imp id ?_
      rintro ⟨k, hk, hend⟩
      refine ⟨k + 1, Nat.succ_le_succ hk, ?_⟩
      rw [take_succ_cons, sends, ← append_assoc]
      exact hend
    · refine .inr ⟨1, Nat.succ_le_succ (Nat.zero_le _), ?_⟩
      rw [hone]
      exact hend

/-! ## The beginning -/

/-- Nobody is at work, the session has no process, and the next process that is started sends a
banner before anything else. -/
structure Vacant (s : Nat) (b : Banner) (m : Machine) : Prop where
  present : s < m.world.sessions.length
  tasks_eq : m.tasks = []
  ready_eq : m.world.ready = []
  atRest : AtRest (m.world.session s).dispatch
  stopped : m.world.isRunning s = false
  expects : Expects b m.world

/-- An operation begins on a machine whose queue is empty. -/
def begun (s index : Nat) (request : SessionRequest) (m : Machine) : Machine :=
  m.follow [.launch index (.session s request), .turn]

theorem Vacant.good (h : Vacant s b m) :
    Good s b { m.world with nextTask := m.world.nextTask + 1, ready := [] } .idle :=
  ⟨h.present, h.atRest, .inr h.expects⟩

/-- The task of an operation that was just asked for. -/
def newTask (s index : Nat) (request : SessionRequest) (m : Machine) : Task :=
  ⟨m.world.nextTask, .job index, none, none, fun _ => Ending.answer <$> request.action s⟩

variable {request : SessionRequest}

/-- Where the queue is empty, an operation that is asked for has the next turn. -/
theorem begun_eq (hready : m.world.ready = []) :
    begun s index request m = Machine.resume { m with
      world := { m.world with nextTask := m.world.nextTask + 1, ready := [] }
      tasks := m.tasks ++ [newTask s index request m] } m.world.nextTask .woken := by
  show ((m.launch index (request.action s)).turn).getD (m.launch index (request.action s)) = _
  have hqueue : (m.launch index (request.action s)).world.ready =
      [.resume m.world.nextTask .woken] := by
    show m.world.ready ++ [Wake.resume m.world.nextTask .woken] = _
    rw [hready, nil_append]
  unfold Machine.turn
  rw [hqueue]
  rfl

/-- The operation that finds no process and has to wait for output has started a process, and waits
for its banner. -/
theorem Vacant.opening {first : SessionRequest} {t : Task} {n : Nat} (hm : Vacant s b m)
    (hfirst : first ≠ .close) (hontime : OnTime (begun s index first m))
    (ht : t ∈ (begun s index first m).tasks) (hawait : t.await = some (.output c n)) :
    (∃ command directory environment, (begun s index first m).world.host.deeds =
        m.world.host.deeds ++ [.spawn command directory environment]) ∧
      Opening ⟨s, c, t.id, index, b, (begun s index first m).world.host.deeds,
        (m.world.session s).dispatch.stats.issued⟩ (nextBehaviour m.world.host).greeting
        (begun s index first m) := by
  have hbegun : begun s index first m = Machine.advance { m with
        world := { m.world with nextTask := m.world.nextTask + 1, ready := [] }, tasks := [] }
        m.world.nextTask (.job index) (Ending.answer <$> first.action s) := by
    rw [begun_eq hm.ready_eq, hm.tasks_eq]
    have hresume := resume_job (m := { m with
      world := { m.world with nextTask := m.world.nextTask + 1, ready := [] },
        tasks := [newTask s index first m] }) (u := newTask s index first m) (mem_singleton_self _)
      (fun v hv _ => mem_singleton.1 hv) rfl rfl
    refine hresume.trans ?_
    simp [newTask, Machine.acknowledge]
  have hsafe := safe_over_map Ending.answer (safe_sessionRequest hfirst hm.good)
  rw [hbegun] at hontime ht ⊢
  unfold Machine.advance at hontime ht ⊢
  generalize hrun : (Ending.answer <$> first.action s : Action Ending).run
    { m.world with nextTask := m.world.nextTask + 1, ready := [] } = run at hontime ht ⊢
  obtain ⟨halt, w⟩ := run
  cases halt with
  | finished r =>
    dsimp only at ht
    rw [Machine.finish_job] at ht
    exact absurd ht not_mem_nil
  | waiting on deadline next =>
    dsimp only at hontime ht ⊢
    rw [suspend_of_onTime hontime] at ht ⊢
    obtain rfl := mem_singleton.1 ht
    obtain rfl := Option.some.inj hawait
    obtain ⟨read, rest, child, hlaunched, hfeeds, hcount, hshort, hnext⟩ :=
      launched_of_safe hsafe hm.expects hrun
    obtain ⟨more, hready, hmore⟩ := hlaunched.ready_eq
    have hfresh := hlaunched.fresh
    refine ⟨hlaunched.deeds_eq, ⟨hfeeds.child_eq, hfeeds.atRest, hlaunched.issued_eq, ?_,
      rfl, hm.expects.2, ?_, ?_⟩, ⟨child.listen m.world.nextTask,
        ⟨m.world.nextTask, .job index, some (.output c n), deadline, next⟩, n, read, rest, ?_⟩, ?_⟩
    · show (w.host.children.modify c _).length = c + 1
      rw [length_modify, hlaunched.children_eq, length_append, length_singleton, hlaunched.child_eq]
    · intro u hu
      rw [mem_singleton.1 hu]
      show m.world.nextTask < w.nextTask
      rw [hlaunched.nextTask_eq]
      exact Nat.lt_succ_self _
    · intro e he
      replace he : e ∈ w.ready := he
      rw [hready] at he
      exact .inl (hmore e he)
    · refine
        ⟨?_, by rw [hfresh]; rfl, by rw [hfresh]; rfl, by rw [hfresh]; rfl, by rw [hfresh]; rfl,
          hlaunched.bytes_eq, hlaunched.greeting_eq, .inl ⟨rfl, hshort⟩, mem_singleton_self _, rfl,
        fun u hu _ => mem_singleton.1 hu, rfl, rfl, hcount, hnext⟩
      show (w.modifyChild c _).host.child? c = _
      rw [child?_modifyChild, hlaunched.child?, Option.map_some]
    · intro u hu hne
      exact absurd (congrArg Task.id (mem_singleton.1 hu)) hne

/-! ## Reading from a process that is occupied -/

/-- A process is there, and a task listens to its output, of which there is less than a header. -/
structure Occupied (c t : Nat) (child : Host.Child) (w : World) : Prop where
  process_eq : w.host.child? c = some child
  status_eq : child.status = none
  ended_eq : child.ended = false
  listener_eq : child.listener = some t
  watchers_eq : child.watchers = []
  short : child.output.length < Wire.headerSize
  heeds : child.behaviour.signalFault = none ∧ child.behaviour.stubborn = false

variable {w : World} {t : Nat} {child : Host.Child}

/-- What becomes of a process that is asked to terminate and heeds it. -/
def terminated (child : Host.Child) : Host.Child :=
  { child with status := some (-15), ended := true, listener := none, watchers := [] }

/-- A process that heeds the request to terminate exits, and the task that listens to its output is
told. -/
theorem Occupied.signal (h : Occupied c t child w) : ∃ host, w.signal c true =
      (none, { w with host := host, ready := w.ready ++ [.resume t .woken] }) ∧
      host.child? c = some (terminated child) ∧
        host.deeds = w.host.deeds ++ [.terminate child.pid] := by
  have hexit : ∀ w : World, Occupied c t child w → ∃ host, w.exit c (-15) =
      { w with host := host, ready := w.ready ++ [.resume t .woken] } ∧
        host.child? c = some (terminated child) ∧ host.deeds = w.host.deeds := by
    intro w h
    have hexited : (w.modifyChild c fun child => child.exit (-15)).host.child? c =
        some { child with status := some (-15), ended := true } := by
      rw [child?_modifyChild, h.process_eq, Option.map_some]
      simp [Host.Child.exit, Host.Child.isRunning, h.status_eq]
    have hwake : ((w.modifyChild c fun child => child.exit (-15)).wakeReader c) =
        ((w.modifyChild c fun child => child.exit (-15)).modifyChild c
          fun child => { child with listener := none }).wake t := by
      unfold wakeReader
      rw [hexited]
      simp only [Option.bind_some, h.listener_eq]
    have htold : (((w.modifyChild c fun child => child.exit (-15)).modifyChild c
        fun child => { child with listener := none }).wake t).host.child? c =
          some { child with status := some (-15), ended := true, listener := none } := by
      rw [host_wake, child?_modifyChild, hexited, Option.map_some]
    unfold World.exit
    rw [hwake]
    unfold wakeWatchers
    rw [htold]
    simp only [h.watchers_eq, foldl_nil]
    refine ⟨_, rfl, ?_, rfl⟩
    exact (child?_modifyChild _ c _).trans (htold ▸ rfl)
  unfold World.signal
  rw [h.process_eq]
  simp only [h.heeds.1, h.heeds.2, Bool.not_false, Bool.and_self, if_true]
  obtain ⟨host, hexit, hchild, hdeeds⟩ :=
    hexit (w.logDeed (.terminate child.pid)) { h with process_eq := h.process_eq }
  exact ⟨host, congrArg _ hexit, hchild, hdeeds⟩

/-- A process that was started is the latest one, and the session has no other. -/
structure Spawned (s c : Nat) (w w' : World) : Prop where
  child_eq : c = w.host.children.length
  serves : (w'.session s).transport = { (w.session s).transport with child := some c }
  children_eq : ∃ child, w'.host.children = w.host.children ++ [child]
  deeds_eq :
    w'.host.deeds = w.host.deeds ++ [.spawn [(w.session s).transport.executable, modeOption]
    (w.session s).transport.directory (w.session s).transport.environment]
  length_eq : w'.sessions.length = w.sessions.length

end IdeMode.Startup
