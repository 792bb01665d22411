import IdeMode.Client.Process
set_option autoImplicit false

/-!
# Calls

Commands are issued with or without waiting for their outcome. Two loops serve a session: one writes
commands in the order in which they were issued, the other reads messages, hands replies to the
calls they answer and takes note of everything else.
-/

namespace IdeMode.Client

/-! ## Issuing -/

/-- The fault of a call whose time ran out. -/
def timeoutFault (limit : Option Duration) (tag : String) : Fault :=
  .callFailed ("TIMEOUT after " ++ ((limit.map Duration.text).getD "") ++ "s waiting for " ++ tag)

/-- Issues a command. -/
def submit (s : Nat) (command : Command) (addressee : Addressee) : Action Call :=
  modifyGet fun w => w.issue s command addressee

/-- Takes the outcome of a call that was waited for. -/
def takeOutcome (s id : Nat) : Action Outcome := do
  let outcome := ((← session s).dispatch.outcomes.get? id).getD .expired
  modify fun w => w.modifyDispatch s fun d => { d with outcomes := d.outcomes.erase id }
  return outcome

/-- Waits for the outcome of a call. -/
def awaitOutcome (s id : Nat) (limit : Option Duration) : Action Outcome := do
  let deadline ← limit.mapM deadlineIn
  let _ ← Prog.await (.outcome s id) deadline
  takeOutcome s id

/-- What a call comes to by its outcome; one whose time ran out is no longer pending. -/
def conclude (s id : Nat) (limit : Option Duration) (tag : String) : Outcome → Action Response
  | .answered r => return r
  | .failed f => throw f
  | .expired => do
    modify fun w => w.modifyDispatch s fun d => d.remove id
    throw (timeoutFault limit tag)

/-- Issues a command and waits for its reply. -/
def call (s : Nat) (command : Command) (limit : Option Duration) : Action Response := do
  unless ← isRunning s do throw (.unavailable .notRunning)
  let issued ← submit s command .waiter
  conclude s issued.id limit command.tag (← awaitOutcome s issued.id limit)

/-- Issues a command whose outcome a continuation is told; without a running process it fails at
once. -/
def post (s : Nat) (command : Command) (addressee : Addressee) : Action (Call × Bool) := do
  if ← isRunning s then
    let issued ← submit s command addressee
    return (issued, false)
  else
    let (refused, d) := (← session s).dispatch.refuse command addressee
    modify fun w =>
      (w.modifyDispatch s fun _ => d).deliver s refused (.failed (.unavailable .notRunning))
    return (refused, true)

/-- Drops every pending call. -/
def discard (s : Nat) : Action Unit := modify fun w => w.discard s

/-! ## Serving -/

/-- Whether a loop goes on. -/
inductive Round where
  | again
  | over
  deriving DecidableEq, Repr

/-- Notes a message in a session, and reports it where someone observes. -/
def takeNote (s : Nat) (m : Message) : Action Unit := do
  let session ← session s
  let noted ← Prog.ofResult (session.notice (← get).host.cwd m)
  modifySession s fun _ => noted
  if session.observed then modify fun w => w.report (.observed m)

/-- Hands a reply to the call that it answers, and takes note of any other message. -/
def takeIn (s : Nat) (m : Message) : Action Unit := do
  match m with
  | .reply id ok payload => modify fun w => w.settleReply s id ok payload
  | m => takeNote s m

/-- One round of reading. What cannot be understood is skipped; the end of the output fails every
pending call; and where the output cannot be followed any more, the process is stopped as well. -/
def readRound (s : Nat) : Action Round := do
  match ← (receiveMessage s none).attempt with
  | .ok m =>
    takeIn s m
    return .again
  | .error (.unavailable outage) =>
    modify fun w => w.settlePending s outage
    return .over
  | .error fault =>
    if fault.isReported then return .again
    modify fun w => w.settlePending s .lostSync
    stop s
    return .over

/-- The next call to write, waiting for one if need be. -/
def nextOutgoing (s : Nat) : Action (Option Call) := do
  if (← session s).dispatch.outbox.isEmpty then
    let _ ← Prog.await (.outbox s) none
  let (next, d) := (← session s).dispatch.takeOutbox
  modify fun w => w.modifyDispatch s fun _ => d
  return next

/-- One round of writing. A call that is over is not written; an outage fails every pending call. -/
def writeRound (s : Nat) : Action Round := do
  match ← nextOutgoing s with
  | none => return .again
  | some call =>
    if !(← session s).dispatch.isPending call.id then return .again
    match (call.command.request call.id).encode with
    | .error obstacle => throw obstacle.fault
    | .ok text =>
      match ← (sendMessage s text).attempt with
      | .ok () => return .again
      | .error (.unavailable outage) =>
        modify fun w => w.settlePending s outage
        return .again
      | .error fault => throw fault

/-- One round of a loop. -/
def serve : Service → Action Round
  | .reader s => readRound s
  | .writer s => writeRound s

end IdeMode.Client
