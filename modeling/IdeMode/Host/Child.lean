import IdeMode.Fault
set_option autoImplicit false

/-!
# Compiler processes

A process that the client started: the output it has not yet read, and whether it has exited. How a
process behaves is given in advance: a `Behaviour` for its start and for signals, and a `Reaction`
to each request that is written to it.
-/

namespace IdeMode.Host

/-- How a process behaves from its start on. -/
structure Behaviour where
  /-- there is no such executable -/
  missing : Bool := false
  /-- it may not be executed -/
  denied : Bool := false
  /-- what it sends at once -/
  greeting : List UInt8 := []
  /-- it exits at once -/
  exits : Option Int := none
  /-- it does not heed the request to terminate -/
  stubborn : Bool := false
  /-- signals to its group are refused -/
  signalFault : Option SystemFault := none
  /-- it is gone just when it is killed -/
  killFault : Bool := false
  deriving Repr

/-- How a process answers a request. -/
structure Reaction where
  /-- files that it writes -/
  files : List (String × List UInt8) := []
  /-- buffers that their owner reads again meanwhile -/
  rereads : List String := []
  /-- messages that it sends -/
  texts : List String := []
  /-- the messages are kept back until they are released -/
  held : Bool := false
  /-- raw bytes that it sends -/
  bytes : List UInt8 := []
  /-- its output ends -/
  ends : Bool := false
  exits : Option Int := none
  /-- writing to it fails after the request went through -/
  writeFault : Option SystemFault := none
  deriving Repr

/-- A process. -/
structure Child where
  pid : Nat
  behaviour : Behaviour
  /-- the output that was not yet read -/
  output : List UInt8 := []
  /-- there will be no more output -/
  ended : Bool := false
  /-- the exit status -/
  status : Option Int := none
  /-- what the next write to it fails with -/
  writeFault : Option SystemFault := none
  /-- the tasks that wait for output -/
  readers : List Nat := []
  /-- the one of them that is told when output comes -/
  listener : Option Nat := none
  /-- the tasks that wait for the exit, in order -/
  watchers : List Nat := []
  deriving Repr

namespace Child

/-- The process has not exited. -/
def isRunning (c : Child) : Bool := c.status.isNone

/-- The process sends bytes; after the end of its output they are lost. -/
def send (c : Child) (bytes : List UInt8) : Child :=
  if c.ended then c else { c with output := c.output ++ bytes }

/-- The output ends. -/
def close (c : Child) : Child := { c with ended := true }

/-- The process exits, unless it has. -/
def exit (c : Child) (status : Int) : Child :=
  if c.isRunning then { c with status := some status, ended := true } else c

/-- A reader that needs `count` bytes can go on: they are there, or nothing more will come. -/
def satisfies (c : Child) (count : Nat) : Bool := count ≤ c.output.length || c.ended

/-- A task begins to wait for output, and is the one that is told. -/
def listen (c : Child) (task : Nat) : Child :=
  { c with readers := c.readers ++ [task], listener := some task }

/-- A task no longer waits for output. Whichever task was to be told is no longer told either. -/
def leave (c : Child) (task : Nat) : Child :=
  if c.readers.contains task then { c with readers := c.readers.erase task, listener := none }
    else c

end Child

end IdeMode.Host
