import IdeMode.Host.Child
import IdeMode.Table
import IdeMode.Wire.Frame
set_option autoImplicit false

/-!
# The host

The system that the client runs on: its files, its clock, the processes it started, and how coming
processes and requests will be answered. It keeps a log of everything that was written to a process
and of every process that was started or signalled.
-/

namespace IdeMode

namespace Host

/-- Something that was done to a process. -/
inductive Deed where
  /-- an attempt to start one: the command line, the directory as it was given, and added
  variables -/
  | spawn (command : List String) (directory : String) (environment : List (String × String))
  | interrupt (pid : Nat)
  | terminate (pid : Nat)
  | kill (pid : Nat)
  deriving DecidableEq, Repr

/-- A text that was written to a process. -/
structure Sent where
  child : Nat
  text : String
  deriving DecidableEq, Repr

end Host

/-- The system that the client runs on. -/
structure Host where
  /-- the directory in which relative names are resolved -/
  cwd : Path
  disk : Disk := {}
  /-- time since the start, in billionths of a second -/
  clock : Int := 0
  /-- how coming processes behave -/
  behaviours : List Host.Behaviour := []
  /-- how coming requests are answered, by their keyword -/
  reactions : Table String (List Host.Reaction) := []
  children : List Host.Child := []
  /-- messages kept back, each with its process -/
  held : List (Nat × String) := []
  deeds : List Host.Deed := []
  sent : List Host.Sent := []
  deriving Repr

namespace Host

/-- The number of the first process. -/
def firstPid : Nat := 1001

/-- A process by its place among those started. -/
def child? (h : Host) (c : Nat) : Option Child := h.children[c]?

/-- Changes a process. -/
def modifyChild (h : Host) (c : Nat) (f : Child → Child) : Host :=
  { h with children := h.children.modify c f }

/-- The process was started and has not exited. -/
def isRunning (h : Host) (c : Nat) : Bool := ((h.child? c).map Child.isRunning).getD false

/-- The process that was started last. -/
def latest? (h : Host) : Option Nat :=
  if h.children.isEmpty then none else some (h.children.length - 1)

/-- What becomes of an attempt to start a process. -/
inductive Spawned where
  | started (child : Nat)
  | missing
  | denied
  deriving DecidableEq, Repr

/-- The bytes of a message as a compiler sends it. -/
def messageBytes (text : String) : List UInt8 := Wire.frameBytes text

/-- The greeting of a compiler of protocol version 1.0. -/
def defaultGreeting : List UInt8 := messageBytes "(:protocol-version 1 0)"

/-- Starts a process with the next behaviour. -/
def spawn (h : Host) (command : List String) (directory : String)
    (environment : List (String × String)) : Spawned × Host :=
  let b := h.behaviours.head?.getD { greeting := defaultGreeting }
  let h := { h with
    behaviours := h.behaviours.drop 1
    deeds := h.deeds ++ [.spawn command directory environment] }
  if b.missing then (.missing, h)
  else if b.denied then (.denied, h)
  else
    let c : Child := { pid := firstPid + h.children.length, behaviour := b, output := b.greeting }
    let c := match b.exits with
      | some status => c.exit status
      | none => c
    (.started h.children.length, { h with children := h.children ++ [c] })

/-- The keyword of a request: what follows its first three characters up to a space or a
parenthesis. -/
def requestTag (body : List Char) : String :=
  String.ofList ((body.drop 3).takeWhile fun c => c != ' ' && c != ')')

/-- The number of a request: what stands between its last space and its last parenthesis. -/
def requestId (body : List Char) : String :=
  let tail := (body.reverse.takeWhile (· != ' ')).reverse
  String.ofList (tail.reverse.dropWhile (· != ')')).reverse.dropLast

/-- How a request is answered when nothing was arranged for it. -/
def defaultReaction (tag : String) : Reaction :=
  if tag = "load-file" ∨ tag = "interpret" then { texts := ["(:return (:ok \"\") @ID)"] }
  else { texts := ["(:return (:error \"unexpected command " ++ tag ++ "\") @ID)"] }

/-- Takes the next reaction to a request with a keyword. -/
def takeReaction (h : Host) (tag : String) : Reaction × Host :=
  match h.reactions.get? tag with
  | some (r :: rest) => (r, { h with reactions := h.reactions.set tag rest })
  | _ => (defaultReaction tag, h)

/-- A message with the number of its request filled in. -/
def fillId (id text : String) : String := text.replace "@ID" id

end Host

end IdeMode
