import IdeMode.Client.Calls
set_option autoImplicit false

/-!
# Loading

A compiler is started when it is first needed, moved to the directory of a file, and told to load
the file if the file is not the program that it holds. A load in flight never counts as loaded, and
one during which the file was changed does not count afterwards either.
-/

namespace IdeMode.Client

/-! ## The life of a session -/

/-- Starts the compiler if it does not run; the answer is its start message, if it was started. -/
def ensureRunning (s : Nat) : Action (Option String) := do
  if ← isRunning s then return none
  modifySession s fun session => { session with loaded := none, cwd := none }
  return some (← start s startLimit)

/-- Stops the compiler and drops every pending call. -/
def close (s : Nat) : Action Unit := do
  discard s
  stop s
  modifySession s fun session => { session with loaded := none, cwd := none, prompt := none }

/-- Issues a command with the session's own time limit unless another is given. -/
def sessionCall (s : Nat) (command : Command) (limit : Option Duration) : Action Response := do
  call s command (Duration.orElse limit (← session s).callLimit)

/-- Evaluates an expression. -/
def evaluate (s : Nat) (expression : String) (limit : Option Duration) : Action Response := do
  let _ ← ensureRunning s
  modifySession s fun session => { session with output := [] }
  sessionCall s ⟨"interpret", [.str expression]⟩ limit

/-- Moves the compiler to a directory; the answer is whether it had to be moved. -/
def switchDirectory (s : Nat) (p : Path) : Action Bool := do
  if (← session s).cwd = some p ∧ (← isRunning s) then return false
  let _ ← ensureRunning s
  if (← session s).cwd = some p then return false
  let _ ← sessionCall s ⟨"interpret", [.str (":cd " ++ p.text)]⟩ none
  modifySession s fun session => { session with cwd := some p }
  return true

/-! ## Loads -/

/-- The path of a document. -/
def pathOf (s d : Nat) : Action Path := return ((← session s).buffer d).path

/-- Gets ready for a load: the command for it, and the generation of the document. -/
def beginLoad (s d : Nat) : Action (Command × Nat) := do
  modifySession s fun session => session.watch d
  let p ← pathOf s d
  modifySession s fun session => session.resetWarnings (some p)
  let _ ← switchDirectory s p.parent
  modifySession s fun session => { session with loaded := none }
  return (⟨"load-file", [.str p.name]⟩, (← session s).generation p)

/-- Loads a document. -/
def load (s d : Nat) : Action Response := do
  let (command, generation) ← beginLoad s d
  match ← (call s command (← session s).loadLimit).attempt with
  | .ok r =>
    modifySession s fun session => session.recordLoad d generation
    return r
  | .error f =>
    let (f, w) := (← get).loadFault s (← pathOf s d) f
    set w
    throw f

/-- Loads a document unless the compiler holds it; the answer is whether it was loaded. -/
def ensureLoaded (s d : Nat) : Action Bool := do
  if !(← session s).isStale (← pathOf s d) then return false
  let _ ← load s d
  return true

/-- Like `ensureLoaded`, but a continuation is told the outcome of the load; the answer is the
number of the call. -/
def postLoad (s d : Nat) (label : String) : Action (Option Nat) := do
  if !(← session s).isStale (← pathOf s d) then
    modify fun w => w.enqueue (.skip label)
    return none
  let (command, generation) ← beginLoad s d
  let (issued, _) ← post s command (.load label d generation)
  return some issued.id

/-! ## Documents -/

/-- Opens a file as a document under a name, or finds the document opened under that name. -/
def openDocument (s : Nat) (name : String) : Action Nat := do
  match (← session s).findDocument? name with
  | some d => return d
  | none =>
    let host := (← get).host
    unless Path.isName name do throw .badValue
    let b ← Prog.ofResult (Buffer.ofDisk host.disk (host.cwd.resolve name))
    let (d, opened) := (← session s).addDocument name b
    modifySession s fun _ => opened
    return d

/-- Reads a document again; the answer is whether it changed. -/
def reread (s d : Nat) : Action Bool := do
  let (changed, b) ← Prog.ofResult (((← session s).buffer d).reread (← get).host.disk)
  modifySession s fun session => session.adopt d b
  return changed

/-- Takes over an edit of a document and of the disk. -/
def commit (s d : Nat) (b : Buffer) (disk : Disk) : Action Unit := do
  modify fun w => { w with host := { w.host with disk := disk } }
  modifySession s fun session => session.adopt d b

/-- Replaces a range of a document. -/
def replace (s d : Nat) (start finish : Int) (text : List Char) : Action Unit := do
  let (b, disk) ← Prog.ofResult
    (((← session s).buffer d).replace (← get).host.disk start finish text)
  commit s d b disk

end IdeMode.Client
