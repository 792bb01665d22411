import IdeMode.Buffer.Basic
import IdeMode.Duration
import IdeMode.Protocol.Warning
import IdeMode.Session.Dispatch
set_option autoImplicit false

/-!
# Sessions

A session owns one compiler process. The compiler holds exactly one loaded program, and loading is
expensive, so the session remembers which buffer that is and whether the buffer changed since:
`isStale` tells when a buffer has to be loaded before a command may rely on it.

A buffer is known to a session by its place among the session's documents. Whether it is dirty, and
how often it was changed, is kept by its path.
-/

namespace IdeMode

/-- A buffer that a session has opened. -/
structure Document where
  /-- the name under which it was opened -/
  name : String
  buffer : Buffer
  /-- the session marks it dirty when it changes -/
  watched : Bool := false
  deriving Repr, Inhabited

/-- The process side of a session: how a compiler is started, and the one that was. -/
structure Transport where
  /-- the directory to start in, as it is spelled -/
  directory : String := "."
  /-- variables added to the environment -/
  environment : List (String × String) := []
  executable : String := "idris"
  /-- the process, which may have exited -/
  child : Option Nat := none
  /-- the protocol version of its banner -/
  version : Option (Value × Value) := none
  deriving Repr

/-- A session. -/
structure Session where
  transport : Transport := {}
  dispatch : Dispatch := {}
  loadLimit : Option Duration := none
  callLimit : Option Duration := none
  /-- the compiler's working directory, as far as it is known -/
  cwd : Option Path := none
  /-- the document that the compiler holds -/
  loaded : Option Nat := none
  prompt : Option String := none
  /-- the latest pieces of text that the compiler printed -/
  output : List String := []
  dirty : Table Path Bool := []
  /-- how often each buffer was marked dirty -/
  generations : Table Path Nat := []
  documents : List Document := []
  /-- the diagnostics in the order of their arrival, each with the file it is about -/
  warnings : List (Path × Warning) := []
  /-- how many listeners are told when a failed load has left diagnostics -/
  listeners : Nat := 0
  /-- notices are also reported to an observer -/
  observed : Bool := false
  deriving Repr

namespace Session

/-- The most pieces of printed text that are kept. -/
def keptOutput : Nat := 1000

/-! ## Documents -/

/-- A document by its place. -/
def document? (s : Session) (d : Nat) : Option Document := s.documents[d]?

/-- The buffer of a document. -/
def buffer (s : Session) (d : Nat) : Buffer := ((s.document? d).map Document.buffer).getD default

/-- The place of the document opened under a name. -/
def findDocument? (s : Session) (name : String) : Option Nat :=
  s.documents.findIdx? fun d => d.name = name

/-- Opens a document. -/
def addDocument (s : Session) (name : String) (b : Buffer) : Nat × Session :=
  (s.documents.length, { s with documents := s.documents ++ [{ name := name, buffer := b }] })

/-- Replaces the buffer of a document. -/
def setBuffer (s : Session) (d : Nat) (b : Buffer) : Session :=
  { s with documents := s.documents.modify d fun doc => { doc with buffer := b } }

/-- From now on the document is marked dirty when it changes. -/
def watch (s : Session) (d : Nat) : Session :=
  { s with documents := s.documents.modify d fun doc => { doc with watched := true } }

/-! ## Dirty and loaded -/

/-- The path of the loaded document. -/
def loadedPath? (s : Session) : Option Path := s.loaded.map fun d => (s.buffer d).path

/-- The document at a path changed since it was last loaded, or was never loaded. -/
def isDirty (s : Session) (p : Path) : Bool := (s.dirty.get? p).getD true

/-- The compiler holds the document at a path. -/
def isLoaded (s : Session) (p : Path) : Bool := s.loadedPath? = some p

/-- The document at a path has to be loaded before a command may rely on it. -/
def isStale (s : Session) (p : Path) : Bool := s.isDirty p || !s.isLoaded p

/-- How often the document at a path was marked dirty. -/
def generation (s : Session) (p : Path) : Nat := (s.generations.get? p).getD 0

/-- Marks the document at a path dirty; it is no longer loaded. -/
def noteChange (s : Session) (p : Path) : Session :=
  let s' :=
    { s with dirty := s.dirty.set p true, generations := s.generations.set p (s.generation p + 1) }
  if s.isLoaded p then { s' with loaded := none } else s'

/-- Marks a document clean and loaded. -/
def noteLoaded (s : Session) (d : Nat) : Session :=
  { s with dirty := s.dirty.set (s.buffer d).path false, loaded := some d }

/-- Takes over a buffer after an operation on it; if the operation announced a change and the
document is watched, the document is dirty. -/
def adopt (s : Session) (d : Nat) (b : Buffer) : Session :=
  let s' := s.setBuffer d b
  match s.document? d with
  | some doc => if doc.watched ∧ doc.buffer.revision ≠ b.revision then s'.noteChange b.path else s'
  | none => s'

/-- Records a load that succeeded; it counts only if the document was not changed since it was
issued. -/
def recordLoad (s : Session) (d : Nat) (generation : Nat) : Session :=
  if s.generation (s.buffer d).path = generation then s.noteLoaded d else s

/-! ## Diagnostics -/

/-- Forgets the diagnostics of a file, or all of them. -/
def resetWarnings (s : Session) (p : Option Path) : Session :=
  match p with
  | none => { s with warnings := [] }
  | some p => { s with warnings := s.warnings.filter fun w => w.1 ≠ p }

/-- The diagnostics of a file, or all of them. -/
def warningsFor (s : Session) (p : Option Path) : List Warning :=
  match p with
  | none => s.warnings.map Prod.snd
  | some p => (s.warnings.filter fun w => w.1 = p).map Prod.snd

/-- Keeps a diagnostic; its file name is taken relative to a directory. -/
def addWarning (s : Session) (base : Path) (w : Warning) : Result Session :=
  if Path.isName w.file then .ok { s with warnings := s.warnings ++ [(base.resolve w.file, w)] }
  else .error .badValue

/-! ## Notices -/

/-- Keeps a piece of printed text; the oldest gives way when there are too many. -/
def addOutput (s : Session) (text : String) : Session :=
  let output := s.output ++ [text]
  { s with output := output.drop (output.length - keptOutput) }

/-- Takes note of a message that is no reply. `cwd` is the directory in which names are resolved
while the compiler's own is unknown. -/
def notice (s : Session) (cwd : Path) (m : Message) : Result Session :=
  match m with
  | .notice "warning" _ payload =>
    match Warning.ofValue payload with
    | .ok w => s.addWarning (s.cwd.getD cwd) w
    | .error _ => .ok s
  | .notice "write-string" _ payload => .ok (s.addOutput payload.text)
  | .notice "set-prompt" _ payload => .ok { s with prompt := some payload.text }
  | _ => .ok s

end Session

end IdeMode
