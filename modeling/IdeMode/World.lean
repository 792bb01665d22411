import IdeMode.Host.Basic
import IdeMode.Prog
import IdeMode.Session.Basic
set_option autoImplicit false

/-!
# The world of the client

Everything that programs share: the host, the sessions, the registry of named sessions, and the
queue of tasks that can go on. The queue is served from the front and filled at the back, so tasks
go on in the order in which what they waited for happened.
-/

namespace IdeMode

/-- What a program can wait for. -/
inductive Await where
  /-- the outcome of a call -/
  | outcome (session call : Nat)
  /-- a number of bytes of a process's output, or the end of it -/
  | output (child count : Nat)
  /-- the exit of a process -/
  | exit (child : Nat)
  /-- something to write -/
  | outbox (session : Nat)
  deriving DecidableEq, Repr

/-- A loop that serves a session. -/
inductive Service where
  | reader (session : Nat)
  | writer (session : Nat)
  deriving DecidableEq, Repr

/-- An entry of the queue. -/
inductive Wake where
  /-- a loop begins a round -/
  | serve (task : Nat) (service : Service)
  /-- a task goes on -/
  | resume (task : Nat) (signal : Signal)
  /-- a task goes on after everything that is queued now -/
  | relay (task : Nat) (signal : Signal)
  /-- the continuation of a call runs -/
  | settle (session : Nat) (call : Call) (outcome : Outcome)
  /-- the continuation of a load that was not needed runs -/
  | skip (label : String)
  deriving Repr

/-- Something that is reported as it happens. -/
inductive Event where
  /-- a call with a continuation was issued: its number, whether it has a continuation, whether it
  is over -/
  | issued (label : String) (id : Nat) (hasContinuation finished : Bool)
  /-- a load with a continuation was issued, or was not needed -/
  | loading (label : String) (id : Option Nat)
  /-- a continuation ran -/
  | settled (label : String) (r : Result (Option Response))
  /-- a failed load left diagnostics for a file -/
  | diagnostics (path : Path)
  /-- a notice arrived -/
  | observed (m : Message)
  deriving Repr

/-- A named session. -/
structure Entry where
  session : Nat
  /-- when it was made, in billionths of a second -/
  started : Int
  /-- when it was last used -/
  lastUsed : Int
  directory : Path
  environment : Option (List (String × String)) := none
  deriving Repr

/-- The named sessions, in the order in which they were made. -/
structure Registry where
  entries : Table String Entry := []
  /-- when idle sessions were last looked for; long before the clock started -/
  lastPrune : Int := -1000000000000000000
  /-- holes in inserted text become fields -/
  snippets : Bool := false
  deriving Repr

/-- Everything that programs share. -/
structure World where
  host : Host
  sessions : List Session := []
  registry : Registry := {}
  ready : List Wake := []
  /-- the number of the next task -/
  nextTask : Nat := 0
  events : List Event := []
  deriving Repr

/-- An operation of the client. -/
abbrev Action (α : Type) : Type := Prog World Await α

namespace World

/-! ## Parts -/

/-- A session by its place. -/
def session (w : World) (s : Nat) : Session := w.sessions[s]?.getD {}

/-- Changes a session. -/
def modifySession (w : World) (s : Nat) (f : Session → Session) : World :=
  { w with sessions := w.sessions.modify s f }

/-- Changes the dispatcher of a session. -/
def modifyDispatch (w : World) (s : Nat) (f : Dispatch → Dispatch) : World :=
  w.modifySession s fun session => { session with dispatch := f session.dispatch }

/-- Changes the transport of a session. -/
def modifyTransport (w : World) (s : Nat) (f : Transport → Transport) : World :=
  w.modifySession s fun session => { session with transport := f session.transport }

/-- Changes a process. -/
def modifyChild (w : World) (c : Nat) (f : Host.Child → Host.Child) : World :=
  { w with host := w.host.modifyChild c f }

/-- Adds a session. -/
def addSession (w : World) (s : Session) : Nat × World :=
  (w.sessions.length, { w with sessions := w.sessions ++ [s] })

/-- The session's process has not exited. -/
def isRunning (w : World) (s : Nat) : Bool :=
  match (w.session s).transport.child with
  | some c => w.host.isRunning c
  | none => false

/-- Reports an event. -/
def report (w : World) (e : Event) : World := { w with events := w.events ++ [e] }

/-! ## The queue -/

/-- Puts an entry at the end of the queue. -/
def enqueue (w : World) (e : Wake) : World := { w with ready := w.ready ++ [e] }

/-- Lets a task go on. -/
def wake (w : World) (task : Nat) : World := w.enqueue (.resume task .woken)

/-- Starts a loop. -/
def startService (w : World) (service : Service) : Nat × World :=
  (w.nextTask, { w with nextTask := w.nextTask + 1 }.enqueue (.serve w.nextTask service))

/-! ## Processes -/

/-- Wakes the task that is to be told of a process's output. -/
def wakeReader (w : World) (c : Nat) : World :=
  match (w.host.child? c).bind Host.Child.listener with
  | some task => (w.modifyChild c fun child => { child with listener := none }).wake task
  | none => w

/-- Wakes the tasks that wait for the exit of a process. -/
def wakeWatchers (w : World) (c : Nat) : World :=
  match w.host.child? c with
  | some child =>
    child.watchers.foldl World.wake (w.modifyChild c fun child => { child with watchers := [] })
  | none => w

/-- A process sends bytes. -/
def receive (w : World) (c : Nat) (bytes : List UInt8) : World :=
  if bytes.isEmpty then w else (w.modifyChild c fun child => child.send bytes).wakeReader c

/-- The output of a process ends. -/
def closeOutput (w : World) (c : Nat) : World := (w.modifyChild c Host.Child.close).wakeReader c

/-- A process exits. -/
def exit (w : World) (c : Nat) (status : Int) : World :=
  ((w.modifyChild c fun child => child.exit status).wakeReader c).wakeWatchers c

/-- Logs something done to a process. -/
def logDeed (w : World) (d : Host.Deed) : World :=
  { w with host := { w.host with deeds := w.host.deeds ++ [d] } }

/-- Signals the group of a process; a signal to terminate ends one that heeds it. The system may
refuse. -/
def signal (w : World) (c : Nat) (terminates : Bool) : Option SystemFault × World :=
  match w.host.child? c with
  | none => (none, w)
  | some child =>
    let w := w.logDeed (if terminates then .terminate child.pid else .interrupt child.pid)
    match child.behaviour.signalFault with
    | some fault => (some fault, w)
    | none => (none, if terminates && !child.behaviour.stubborn then w.exit c (-15) else w)

/-- Kills a process; the answer is whether it was there. -/
def kill (w : World) (c : Nat) : Bool × World :=
  match w.host.child? c with
  | none => (false, w)
  | some child => (!child.behaviour.killFault, (w.logDeed (.kill child.pid)).exit c (-9))

/-! ## Documents -/

/-- Reads a document again; if it cannot be read it stays as it is. -/
def rereadDocument (w : World) (s d : Nat) : World :=
  match ((w.session s).buffer d).reread w.host.disk with
  | .ok (_, b) => w.modifySession s fun session => session.adopt d b
  | .error _ => w

/-- Reads the documents of a name again. -/
def rereadNamed (w : World) (s : Nat) (name : String) : World :=
  match (w.session s).findDocument? name with
  | some d => w.rereadDocument s d
  | none => w

/-! ## Requests -/

/-- Puts a file where it is to be. -/
def placeFile (w : World) (name : String) (bytes : List UInt8) : World :=
  { w with host := { w.host with disk := w.host.disk.place (w.host.cwd.resolve name) bytes } }

/-- Places the files that a process writes; the owners of buffers read theirs again. -/
def updateFiles (w : World) (s : Nat) (r : Host.Reaction) : World :=
  r.rereads.foldl (fun w name => w.rereadNamed s name)
    (r.files.foldl (fun w f => w.placeFile f.1 f.2) w)

/-- A process sends its messages, unless they are kept back, and then its bytes. -/
def sendReaction (w : World) (c : Nat) (r : Host.Reaction) (id : String) : World :=
  let texts := r.texts.map (Host.fillId id)
  let w :=
    if r.held then
      { w with host := { w.host with held := w.host.held ++ texts.map fun t => (c, t) } }
    else texts.foldl (fun w t => w.receive c (Host.messageBytes t)) w
  w.receive c r.bytes

/-- The output of a process ends, it exits, or writing to it fails. -/
def concludeReaction (w : World) (c : Nat) (r : Host.Reaction) : World :=
  let w := if r.ends then w.closeOutput c else w
  let w := match r.exits with
    | some status => w.exit c status
    | none => w
  match r.writeFault with
  | some fault => w.modifyChild c fun child => { child with writeFault := some fault }
  | none => w

/-- A process reacts to a request with a number. -/
def react (w : World) (s c : Nat) (r : Host.Reaction) (id : String) : World :=
  ((w.updateFiles s r).sendReaction c r id).concludeReaction c r

/-- Writes a frame to a process, which reacts to it. -/
def transmit (w : World) (s c : Nat) (payload : String) : World :=
  let text := String.ofList (Wire.frame payload)
  let body := payload.toList ++ ['\n']
  let (r, host) := w.host.takeReaction (Host.requestTag body)
  let host := { host with sent := host.sent ++ [⟨c, text⟩] }
  { w with host := host }.react s c r (Host.requestId body)

/-! ## Calls -/

/-- Tells whoever issued a call its outcome. A waiter is told once: an outcome that it has not yet
taken is not replaced. -/
def deliver (w : World) (s : Nat) (call : Call) (outcome : Outcome) : World :=
  match call.addressee with
  | .waiter =>
    let d := (w.session s).dispatch
    if (d.outcomes.get? call.id).isSome then w
    else
      let w := w.modifyDispatch s fun d =>
        { d with outcomes := d.outcomes.set call.id outcome, waiting := d.waiting.erase call.id }
      match d.waiting.get? call.id with
      | some task => w.wake task
      | none => w
  | _ => w.enqueue (.settle s call outcome)

/-- Tells the outcomes of several calls, in order. -/
def deliverAll (w : World) (s : Nat) (settled : List (Call × Outcome)) : World :=
  settled.foldl (fun w p => w.deliver s p.1 p.2) w

/-- Starts the loop that writes, unless it runs. -/
def ensureWriter (w : World) (s : Nat) : World :=
  if (w.session s).dispatch.writer.isSome then w
  else
    let (task, w) := w.startService (.writer s)
    w.modifyDispatch s fun d => { d with writer := some task }

/-- Starts the loop that reads, unless it runs. -/
def ensureReader (w : World) (s : Nat) : World :=
  if (w.session s).dispatch.reader.isSome then w
  else
    let (task, w) := w.startService (.reader s)
    w.modifyDispatch s fun d => { d with reader := some task }

/-- Starts the loops of a session that do not run. -/
def ensureServices (w : World) (s : Nat) : World := (w.ensureWriter s).ensureReader s

/-- Issues a command on a session, and wakes its writer. -/
def issue (w : World) (s : Nat) (command : Command) (addressee : Addressee) : Call × World :=
  let w := w.ensureServices s
  let (call, d) := (w.session s).dispatch.issue command addressee
  let w := w.modifyDispatch s fun _ => { d with writerIdle := false }
  match d.writer with
  | some task => (call, if d.writerIdle then w.wake task else w)
  | none => (call, w)

/-- Settles the call of a session that a reply answers. -/
def settleReply (w : World) (s : Nat) (id : Option Int) (ok : Bool) (payload : List Value) :
    World :=
  let (settled, d) := (w.session s).dispatch.settleReply id ok payload
  (w.modifyDispatch s fun _ => d).deliverAll s settled.toList

/-- Settles every pending call of a session with an outage. -/
def settlePending (w : World) (s : Nat) (outage : Outage) : World :=
  let (settled, d) := (w.session s).dispatch.settlePending outage
  (w.modifyDispatch s fun _ => d).deliverAll s settled

/-- Drops every pending call of a session and dismisses its loops, which end when their turn
comes. -/
def discard (w : World) (s : Nat) : World :=
  let old := (w.session s).dispatch
  let (settled, d) := old.discard
  let w := (w.modifyDispatch s fun _ => d).deliverAll s settled
  (old.reader.toList ++ old.writer.toList).foldl World.wake w

/-! ## Diagnostics -/

/-- Tells the listeners of a session that a failed load left diagnostics. -/
def announceDiagnostics (w : World) (s : Nat) (p : Path) : World :=
  { w with events := w.events ++ List.replicate (w.session s).listeners (.diagnostics p) }

/-- The fault of a load whose call failed; any other fault stays as it is. -/
def loadFault (w : World) (s : Nat) (p : Path) (f : Fault) : Fault × World :=
  match f with
  | .callFailed diagnostic => (.loadFailed diagnostic p, w.announceDiagnostics s p)
  | f => (f, w)

/-- Runs the continuation of a call. -/
def settle (w : World) (s : Nat) (addressee : Addressee) (outcome : Outcome) : World :=
  match addressee, outcome with
  | .continuation label, .answered r => w.report (.settled label (.ok (some r)))
  | .continuation label, .failed f => w.report (.settled label (.error f))
  | .load label d generation, .answered r =>
    (w.modifySession s fun session => session.recordLoad d generation).report
      (.settled label (.ok (some r)))
  | .load label d _, .failed f =>
    let (f, w) := w.loadFault s ((w.session s).buffer d).path f
    w.report (.settled label (.error f))
  | _, _ => w

end World

end IdeMode
