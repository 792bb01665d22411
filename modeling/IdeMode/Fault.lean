import IdeMode.Protocol.Message
import IdeMode.Storage.Disk
set_option autoImplicit false

/-!
# Faults

Everything that can go wrong in an operation, by cause. `Fault.isReported` tells the faults of
editing with a compiler, which are reported to the user as such, from those that end an operation
outright.
-/

namespace IdeMode

/-- Why no compiler answers. -/
inductive Outage where
  | notRunning
  /-- the executable does not exist -/
  | notFound (executable : String)
  /-- its output ended -/
  | died
  /-- its output could not be followed any more -/
  | lostSync
  /-- the session was closed -/
  | closed
  deriving DecidableEq, Repr

/-- The wording of an outage. -/
def Outage.message : Outage → String
  | .notRunning => "Idris not running"
  | .notFound executable => "Idris executable not found: " ++ executable
  | .died => "Idris process died unexpectedly"
  | .lostSync => "Lost sync with the Idris process"
  | .closed => "Idris session closed"

/-- Why the system refused something. -/
inductive SystemFault where
  | permission
  | noSuchProcess
  | brokenPipe
  | connectionReset
  /-- any other refusal, by its name -/
  | other (name : String)
  deriving DecidableEq, Repr

/-- What went wrong. -/
inductive Fault where
  | unavailable (outage : Outage)
  /-- there is no identifier at the point -/
  | noTarget (line column : Int)
  /-- the hole is no longer on its line -/
  | vanished (hole : String)
  /-- the compiler rejected the file -/
  | loadFailed (diagnostic : String) (path : Path)
  /-- the compiler answered with an error, or not in time -/
  | callFailed (diagnostic : String)
  /-- a selection is needed -/
  | choiceRequired (candidates : List String) (round : Nat)
  | malformed (cause : Malformed)
  /-- there is no such line among `count` lines -/
  | noLine (line : Int) (count : Nat)
  /-- an index beyond a table -/
  | outOfTable
  /-- a range that does not lie in a text of `length` characters -/
  | badRange (start finish : Int) (length : Nat)
  /-- a value without a written form -/
  | unwritable (v : Value)
  /-- a value nested too deeply to be written -/
  | tooDeep
  | file (cause : FileFault)
  | system (cause : SystemFault)
  /-- the start of a process took too long -/
  | timedOut
  /-- a number or name that is not acceptable -/
  | badValue
  /-- text was expected and something else was there -/
  | notText
  /-- the process was taken away while it was in use -/
  | processGone
  /-- two readers want the same output -/
  | streamBusy
  deriving Repr

namespace Fault

/-- The fault is one of editing with a compiler. -/
def isReported : Fault → Bool
  | .unavailable _ | .noTarget .. | .vanished _ | .loadFailed .. | .callFailed
    _ | .choiceRequired .. => true
  | .malformed (.sexp .hugeInteger) | .malformed (.sexp .tooDeep) => false
  | .malformed _ => true
  | _ => false

/-- The wording of a fault. -/
def message : Fault → String
  | .unavailable outage => outage.message
  | .noTarget line column =>
    "No identifier at line " ++ toString line ++ ", column " ++ toString column
  | .vanished hole => "Metavariable ?" ++ hole ++ " no longer on this line"
  | .loadFailed diagnostic _ => "Load failed: " ++ diagnostic
  | .callFailed diagnostic => diagnostic
  | .choiceRequired candidates _ => "Choose one of: " ++ ", ".intercalate candidates
  | .malformed cause => cause.message
  | .noLine line count => "Line " ++ toString line ++ " out of range (1-" ++ toString count ++ ")"
  | .outOfTable => "Index out of range"
  | .badRange start finish length =>
    "Bad range " ++ toString start ++ ":" ++ toString finish ++ " (length " ++
      toString length ++ ")"
  | .unwritable v => "Cannot encode " ++ v.kindName ++ ": " ++ v.quoted
  | .tooDeep => "Nested too deeply"
  | .file _ => "File unusable"
  | .system _ => "Refused by the system"
  | .timedOut => "Timed out"
  | .badValue => "Unacceptable value"
  | .notText => "Not a text"
  | .processGone => "Process gone"
  | .streamBusy => "Output already being read"

end Fault

/-- The fault of writing a value in spite of an obstacle. -/
def Value.Obstacle.fault : Value.Obstacle → Fault
  | .unwritable v => .unwritable v
  | .tooDeep => .tooDeep

/-- A computation that may fail with a fault. -/
abbrev Result (α : Type) : Type := Except Fault α

end IdeMode
