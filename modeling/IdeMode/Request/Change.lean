import IdeMode.Machine
set_option autoImplicit false

/-!
# Changes from outside

What can happen to the client that is not its own doing: a compiler sends something or exits, time
passes, files change.
-/

namespace IdeMode

/-- Something that happens from outside. Where a process is meant, it is the one started last. -/
inductive Change where
  /-- how coming requests with these keywords are answered -/
  | reactions (table : List (String × List Host.Reaction))
  /-- how coming processes behave -/
  | behaviours (list : List Host.Behaviour)
  /-- the process sends messages, then bytes -/
  | send (texts : List String) (bytes : List UInt8)
  /-- the messages that were kept back are sent, each by its process, in order or in reverse -/
  | release (reverse : Bool)
  | exit (status : Int)
  /-- the output of the process ends -/
  | close
  /-- the next write to the process fails -/
  | writeFault (fault : SystemFault)
  /-- time passes, in billionths of a second -/
  | elapse (time : Int)
  | writeFile (name : String) (bytes : List UInt8)
  | deleteFile (name : String)
  | makeDirectory (name : String)
  deriving Repr

namespace World

/-- Changes the process that was started last. -/
def onLatest (w : World) (f : World → Nat → World) : World :=
  match w.host.latest? with
  | some c => f w c
  | none => w

/-- Sends the messages that were kept back. -/
def release (w : World) (reverse : Bool) : World :=
  let held := if reverse then w.host.held.reverse else w.host.held
  let w := { w with host := { w.host with held := [] } }
  held.foldl (fun w h => w.receive h.1 (Host.messageBytes h.2)) w

/-- Changes the disk. -/
def modifyDisk (w : World) (f : Disk → Disk) : World :=
  { w with host := { w.host with disk := f w.host.disk } }

end World

/-- Lets something happen. -/
def Machine.undergo (m : Machine) : Change → Machine
  | .elapse time => m.elapse time
  | .reactions table =>
    { m with world := { m.world with host := { m.world.host with
      reactions := table.foldl (fun t r => t.set r.1 r.2) m.world.host.reactions } } }
  | .behaviours list =>
    { m with world := { m.world with host := { m.world.host with behaviours := list } } }
  | .send texts bytes =>
    { m with world := m.world.onLatest fun w c =>
      (texts.foldl (fun w t => w.receive c (Host.messageBytes t)) w).receive c bytes }
  | .release reverse => { m with world := m.world.release reverse }
  | .exit status => { m with world := m.world.onLatest fun w c => w.exit c status }
  | .close => { m with world := m.world.onLatest World.closeOutput }
  | .writeFault fault =>
    { m with world := m.world.onLatest fun w c =>
      w.modifyChild c fun child => { child with writeFault := some fault } }
  | .writeFile name bytes => { m with world := m.world.placeFile name bytes }
  | .deleteFile name =>
    { m with world := m.world.modifyDisk fun d => d.delete (m.world.host.cwd.resolve name) }
  | .makeDirectory name =>
    { m with world := m.world.modifyDisk fun d => d.makeDirectory (m.world.host.cwd.resolve name) }

end IdeMode
