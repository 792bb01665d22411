import IdeMode.Client.Tools
set_option autoImplicit false

/-!
# The scheduler

Tasks take turns. A turn serves the entry at the front of the queue: it lets one task run up to its
next wait or its end. A loop that goes on does so at once, before anything else in the queue. When
the queue is empty nothing happens until something changes from outside.

A task that waits with a deadline is told when the clock passes it.
-/

namespace IdeMode

/-- What an operation answers. -/
inductive Answer where
  | nothing
  | flag (b : Bool)
  | text (s : String)
  | message (m : Message)
  | response (r : Response)
  /-- a response that was also shown to the user -/
  | shown (r : Response)
  | edit (e : Edit)
  | completion (c : Option Completion)
  | output (pieces : List String)
  | warnings (ws : List Warning)
  | stats (s : Stats)
  /-- whether a document is dirty, loaded and stale -/
  | standing (dirty loaded stale : Bool)
  deriving Repr

/-- What a task is for. -/
inductive Role where
  /-- an operation, by its number -/
  | job (index : Nat)
  /-- a loop -/
  | loop (service : Service)
  deriving DecidableEq, Repr

/-- How a task ends: an operation with an answer, a round of a loop with what comes next. -/
inductive Ending where
  | answer (a : Answer)
  | round (r : Client.Round)
  deriving Repr

/-- A task that waits. -/
structure Task where
  id : Nat
  role : Role
  await : Option Await
  deadline : Option Int
  next : Signal → Action Ending

/-- The world, the tasks that wait in it, and the operations that have ended. -/
structure Machine where
  world : World
  tasks : List Task := []
  finished : List (Nat × Result Answer) := []

namespace Machine

/-! ## Waiting -/

/-- Notes in the world that a task waits. -/
def enroll (w : World) (task : Nat) : Await → World
  | .outcome s call => w.modifyDispatch s fun d => { d with waiting := d.waiting.set call task }
  | .output c _ => w.modifyChild c fun child => child.listen task
  | .exit c => w.modifyChild c fun child => { child with watchers := child.watchers ++ [task] }
  | .outbox s => w.modifyDispatch s fun d => { d with writerIdle := true }

/-- Ends the wait of a task whose time ran out. The outcome of a call is fixed from then on. -/
def giveUp (w : World) (task : Nat) : Await → World
  | .outcome s call => w.modifyDispatch s fun d =>
    { d with waiting := d.waiting.erase call, outcomes := d.outcomes.set call .expired }
  | .output c _ => w.modifyChild c fun child => child.leave task
  | .exit c =>
    w.modifyChild c fun child => { child with watchers := child.watchers.filter fun t => t ≠ task }
  | .outbox s => w.modifyDispatch s fun d => { d with writerIdle := false }

/-- Suspends a task. If its deadline has already passed it goes on in the turn after the next. -/
def suspend (m : Machine) (task : Task) (on : Await) : Machine :=
  let expired := task.deadline.any (· ≤ m.world.host.clock)
  let world := if expired then (giveUp m.world task.id on).enqueue (.relay task.id .expired)
    else enroll m.world task.id on
  let task := { task with await := some on, deadline := if expired then none else task.deadline }
  { m with world := world, tasks := m.tasks ++ [task] }

/-! ## Running -/

/-- A loop is no longer wanted by its session. -/
def isDismissed (w : World) (task : Nat) : Role → Bool
  | .job _ => false
  | .loop (.reader s) => (w.session s).dispatch.reader ≠ some task
  | .loop (.writer s) => (w.session s).dispatch.writer ≠ some task

/-- A loop has ended. -/
def retire (w : World) : Service → World
  | .reader s => w.modifyDispatch s fun d => { d with reader := none }
  | .writer s => w.modifyDispatch s fun d => { d with writer := none, writerIdle := false }

/-- A task has ended. -/
def finish (m : Machine) (task : Nat) (role : Role) (r : Result Ending) : Machine :=
  match role, r with
  | .job index, .ok (.answer a) => { m with finished := m.finished ++ [(index, .ok a)] }
  | .job index, .ok (.round _) => { m with finished := m.finished ++ [(index, .ok .nothing)] }
  | .job index, .error f => { m with finished := m.finished ++ [(index, .error f)] }
  | .loop service, .ok (.round .again) =>
    { m with world := { m.world with ready := .serve task service :: m.world.ready } }
  | .loop service, _ => { m with world := retire m.world service }

/-- Runs a program of a task up to its next wait or its end. -/
def advance (m : Machine) (task : Nat) (role : Role) (p : Action Ending) : Machine :=
  match p.run m.world with
  | (.finished r, w) => finish { m with world := w } task role r
  | (.waiting on deadline next, w) =>
    suspend { m with world := w } ⟨task, role, none, deadline, next⟩ on

/-- What a task was told of is not yet what it waits for: there is output, but not enough of it. -/
def isPremature (w : World) (t : Task) (signal : Signal) : Bool :=
  match t.await, signal with
  | some (.output c count),
    .woken => !((w.host.child? c).map fun child => child.satisfies count).getD true
  | _, _ => false

/-- A task that was told of output has heard of it. -/
def acknowledge (w : World) (t : Task) : World :=
  match t.await with
  | some (.output c _) => w.modifyChild c fun child => child.leave t.id
  | _ => w

/-- Lets a suspended task go on; if it was told too early it waits again. -/
def resume (m : Machine) (task : Nat) (signal : Signal) : Machine :=
  match m.tasks.find? fun t => t.id = task with
  | none => m
  | some t =>
    let m := { m with world := acknowledge m.world t, tasks := m.tasks.filter fun t => t.id ≠ task }
    if isDismissed m.world task t.role then m
    else
      match t.await with
      | some on =>
        if isPremature m.world t signal then
          { m with world := enroll m.world task on, tasks := m.tasks ++ [t] }
        else advance m task t.role (t.next signal)
      | none => advance m task t.role (t.next signal)

/-- Serves one entry of the queue. -/
def serve (m : Machine) : Wake → Machine
  | .serve task service =>
    if isDismissed m.world task (.loop service) then m
    else advance m task (.loop service) (Ending.round <$> Client.serve service)
  | .resume task signal => resume m task signal
  | .relay task signal => { m with world := m.world.enqueue (.resume task signal) }
  | .settle s call outcome => { m with world := m.world.settle s call.addressee outcome }
  | .skip label => { m with world := m.world.report (.settled label (.ok none)) }

/-- One turn; none if the queue is empty. -/
def turn (m : Machine) : Option Machine :=
  match m.world.ready with
  | [] => none
  | e :: rest => some (serve { m with world := { m.world with ready := rest } } e)

/-- Takes turns until the queue is empty, at most `bound` of them. -/
def settle (bound : Nat) (m : Machine) : Machine :=
  match bound with
  | 0 => m
  | bound + 1 =>
    match m.turn with
    | none => m
    | some m => settle bound m

/-! ## From outside -/

/-- Begins an operation. -/
def launch (m : Machine) (index : Nat) (p : Action Answer) : Machine :=
  let task := m.world.nextTask
  let world := { m.world with nextTask := task + 1 }.wake task
  { m with
    world := world
    tasks := m.tasks ++ [⟨task, .job index, none, none, fun _ => Ending.answer <$> p⟩] }

/-- Puts a task behind those with an earlier or equal deadline. -/
def insertByDeadline (t : Task) : List Task → List Task
  | [] => [t]
  | u :: rest =>
    if (u.deadline.getD 0) ≤ (t.deadline.getD 0) then u :: insertByDeadline t rest
      else t :: u :: rest

/-- The tasks whose deadline has passed, the earliest first. -/
def dueTasks (m : Machine) : List Task :=
  (m.tasks.filter fun t =>
      t.deadline.any (· ≤ m.world.host.clock) && !isDismissed m.world t.id t.role).foldl
    (fun due t => insertByDeadline t due) []

/-- Tells a task that its time ran out. -/
def expire (m : Machine) (t : Task) : Machine :=
  let world := match t.await with
    | some on => giveUp m.world t.id on
    | none => m.world
  { m with
    world := world.enqueue (.resume t.id .expired)
    tasks := m.tasks.map fun u => if u.id = t.id then { u with deadline := none } else u }

/-- Moves the clock on, and tells the tasks whose time has run out. -/
def elapse (m : Machine) (t : Int) : Machine :=
  let m :=
    { m with
      world := { m.world with host := { m.world.host with clock := m.world.host.clock + t } } }
  m.dueTasks.foldl expire m

end Machine

end IdeMode
