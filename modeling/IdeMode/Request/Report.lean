import IdeMode.Request.Change
set_option autoImplicit false

/-!
# Step by step

A machine is driven in steps. A step begins an operation or lets something happen, and then
everything runs until nothing more can happen by itself. The report of a step says what it answered,
which earlier operations ended, and what was written, started, signalled, announced and changed on
disk meanwhile.
-/

namespace IdeMode

/-- What a step does. -/
inductive Work where
  | change (c : Change)
  | operation (p : Action Answer)

/-- What came of a step. -/
structure Report where
  /-- the answer; none while the operation still waits -/
  result : Option (Result Answer)
  /-- the earlier operations that ended, by their number -/
  finished : List (Nat × Result Answer)
  sent : List Host.Sent
  deeds : List Host.Deed
  events : List Event
  /-- the files that changed, by their name in the working directory, and their new bytes -/
  files : List (String × Option (List UInt8))
  deriving Repr

namespace Report

/-- Puts the end of an operation before those with greater numbers. -/
def insertFinished (e : Nat × Result Answer) :
    List (Nat × Result Answer) → List (Nat × Result Answer)
  | [] => [e]
  | f :: rest => if e.1 < f.1 then e :: f :: rest else f :: insertFinished e rest

/-- The report of a step with a number, from the machine before it and the machine after it. -/
def between (index : Nat) (isChange : Bool) (old new : Machine) : Report :=
  let ended := new.finished.drop old.finished.length
  let before := old.world
  let after := new.world
  { result :=
      if isChange then some (.ok .nothing) else (ended.find? fun e => e.1 = index).map Prod.snd
    finished := (ended.filter fun e => e.1 ≠ index).foldl (fun l e => insertFinished e l) []
    sent := after.host.sent.drop before.host.sent.length
    deeds := after.host.deeds.drop before.host.deeds.length
    events := after.events.drop before.events.length
    files := (Disk.changes before.host.disk after.host.disk).filterMap fun f =>
      (before.host.cwd.relativeTo? f.1).map fun name => (name, f.2) }

end Report

/-- Takes a step with a number, at most `bound` turns long. -/
def Machine.step (bound : Nat) (m : Machine) (index : Nat) (work : Work) : Report × Machine :=
  match work with
  | .change c =>
    let new := (m.undergo c).settle bound
    (Report.between index true m new, new)
  | .operation p =>
    let new := (m.launch index p).settle bound
    (Report.between index false m new, new)

end IdeMode
