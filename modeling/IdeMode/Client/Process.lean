import IdeMode.World
set_option autoImplicit false

/-!
# The compiler process

Starting a compiler and reading its banner, exchanging frames with it, and stopping it. A process is
asked to terminate and is killed if it has not exited five seconds later.
-/

namespace IdeMode.Client

/-! ## Looking at the world -/

/-- A session. -/
def session (s : Nat) : Action Session := return (← get).session s

/-- Changes a session. -/
def modifySession (s : Nat) (f : Session → Session) : Action Unit :=
  modify fun w => w.modifySession s f

/-- The session's process has not exited. -/
def isRunning (s : Nat) : Action Bool := return (← get).isRunning s

/-- The point in time that lies a duration ahead. -/
def deadlineIn (t : Duration) : Action Int := return (← get).host.clock + t.nanos

/-! ## Reading -/

/-- What is there to read: the bytes asked for, their lack, or neither yet. -/
def available (child : Host.Child) (count : Nat) : Option (Option (List UInt8)) :=
  if count ≤ child.output.length then some (some (child.output.take count))
  else if child.ended then some none
  else none

/-- Takes bytes from the output of a process if they are there. If the output ends before, what is
left of it is lost. -/
def takeOutput (c count : Nat) : Action (Option (List UInt8)) := do
  match (← get).host.child? c with
  | none => throw .processGone
  | some child =>
    match available child count with
    | none => return none
    | some (some bytes) =>
      modify fun w => w.modifyChild c fun child => { child with output := child.output.drop count }
      return some bytes
    | some none =>
      modify fun w => w.modifyChild c fun child => { child with output := [] }
      throw (.unavailable .died)

/-- Reads exactly `count` bytes of the output of a process, waiting for them if need be. No task may
begin to wait while another is to be told of output. -/
def readExactly (c count : Nat) (deadline : Option Int) : Action (List UInt8) := do
  match ← takeOutput c count with
  | some bytes => return bytes
  | none =>
    if (((← get).host.child? c).bind Host.Child.listener).isSome then throw .streamBusy
    match ← Prog.await (.output c count) deadline with
    | .expired => throw .timedOut
    | .woken => return (← takeOutput c count).getD []

/-- The process of a session, which may have exited. -/
def process (s : Nat) : Action Nat := do
  match (← session s).transport.child with
  | some c => return c
  | none => throw .processGone

/-- Reads characters of UTF-8 text until `missing` more have come; `read` holds those that came, and
`pending` the sequence that is open. Every character is at least one byte, so as many bytes as
characters are missing are asked for at a time. Four times the number of characters is always enough
for `bound`. -/
def readText (s : Nat) (deadline : Option Int) (bound : Nat) (missing : Int)
    (pending : Option Text.Utf8.Sequence) (read : List Char) : Action (List Char) :=
  match bound with
  | 0 => return read
  | bound + 1 => do
    if missing ≤ 0 then return read
    let c ← process s
    let bytes ← readExactly c missing.toNat deadline
    let (cs, pending) := Text.Utf8.feed pending bytes
    readText s deadline bound (missing - cs.length) pending (read ++ cs)

/-- Reads the text of one frame. -/
def receiveText (s : Nat) (deadline : Option Int) : Action (List Char) := do
  match (← session s).transport.child with
  | none => throw (.unavailable .notRunning)
  | some c =>
    let header ← readExactly c Wire.headerSize deadline
    match Wire.parseHeader header with
    | .error fault => throw (.malformed (.header fault))
    | .ok count => readText s deadline (4 * count.toNat + 1) count none []

/-- What a text is understood as. -/
def understand (text : List Char) : Result Message :=
  match Message.ofText text with
  | .ok m => .ok m
  | .error fault => .error (.malformed fault)

/-- Reads one message. -/
def receiveMessage (s : Nat) (deadline : Option Int) : Action Message := do
  Prog.ofResult (understand (← receiveText s deadline))

/-! ## Writing -/

/-- Writes one frame. It is taken at once: that the pipe may be full, and the writer has to wait, is
left out. -/
def sendMessage (s : Nat) (payload : String) : Action Unit := do
  match (← session s).transport.child with
  | none => throw (.unavailable .notRunning)
  | some c =>
    unless (← get).host.isRunning c do throw (.unavailable .notRunning)
    modify fun w => w.transmit s c payload
    match ((← get).host.child? c).bind Host.Child.writeFault with
    | none => return
    | some fault =>
      modify fun w => w.modifyChild c fun child => { child with writeFault := none }
      match fault with
      | .brokenPipe | .connectionReset => throw (.unavailable .died)
      | fault => throw (.system fault)

/-! ## Starting and stopping -/

/-- The option that puts the compiler into the mode for editors. -/
def modeOption : String := "--ide-mode"

/-- Starts a process for a session. The process is there at once: the time in which it is created,
and in which others go on, is left out. -/
def spawn (s : Nat) : Action Nat := do
  let t := (← session s).transport
  let (spawned, host) := (← get).host.spawn [t.executable, modeOption] t.directory t.environment
  modify fun w => { w with host := host }
  match spawned with
  | .missing => throw (.unavailable (.notFound t.executable))
  | .denied => throw (.system .permission)
  | .started c =>
    modify fun w => w.modifyTransport s fun t => { t with child := some c }
    return c

/-- Reads the banner of a process that was just started. -/
def readBanner (s : Nat) (limit : Duration) : Action Message := do
  if limit.nanos ≤ 0 then throw .timedOut
  receiveMessage s (some (← deadlineIn limit))

/-- Notes the version that a compiler has announced. -/
def greet (s : Nat) (banner : Message) : Action String := do
  match banner with
  | .banner (major :: minor :: _) =>
    modify fun w => w.modifyTransport s fun t => { t with version := some (major, minor) }
  | _ => pure ()
  let c ← process s
  let pid := (((← get).host.child? c).map Host.Child.pid).getD 0
  return "Idris started (PID " ++ toString pid ++ ")"

/-- Starts a compiler and waits for its banner. -/
def start (s : Nat) (limit : Duration) : Action String := do
  if ← isRunning s then return "Idris already running"
  let _ ← spawn s
  greet s (← readBanner s limit)

/-- The time that a compiler has for its banner. -/
def startLimit : Duration := .whole 30

/-- The time that a process has to terminate. -/
def stopLimit : Duration := .whole 5

/-- Signals the group of a process. That the group is gone or may not be signalled does not
matter. -/
def signal (c : Nat) (terminates : Bool) : Action Unit := do
  let (fault, w) := (← get).signal c terminates
  set w
  match fault with
  | none | some .noSuchProcess | some .permission => return
  | some fault => throw (.system fault)

/-- Interrupts the compiler. -/
def interrupt (s : Nat) : Action Unit := do
  if ← isRunning s then signal (← process s) false

/-- Kills the session's process. -/
def killProcess (s : Nat) : Action Unit := do
  let c ← process s
  let (_, w) := (← get).kill c
  set w

/-- Asks a process to terminate, waits for its exit, and kills it if that takes too long. A process
that is killed is gone at once: the time up to its exit is left out. -/
def terminate (s c : Nat) : Action Unit := do
  signal c true
  if (← get).host.isRunning c then
    match ← Prog.await (.exit c) (some (← deadlineIn stopLimit)) with
    | .woken => return
    | .expired => killProcess s

/-- Stops the compiler. -/
def stop (s : Nat) : Action Unit := do
  match (← session s).transport.child with
  | some c => if (← get).host.isRunning c then terminate s c
  | none => pure ()
  modify fun w => w.modifyTransport s fun t => { t with child := none, version := none }

end IdeMode.Client
