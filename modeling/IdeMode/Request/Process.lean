import IdeMode.Machine
set_option autoImplicit false

/-!
# Requests to a process

The operations on a compiler process alone, without a dispatcher.
-/

namespace IdeMode

/-- A request to the process of a session. -/
inductive ProcessRequest where
  | start (limit : Duration)
  /-- start it for the length of a scope -/
  | enter
  /-- stop it at the end of a scope -/
  | leave
  | write (text : String)
  | read
  | interrupt
  | stop
  deriving Repr

/-- The operation that a request asks for. -/
def ProcessRequest.action (s : Nat) : ProcessRequest → Action Answer
  | .start limit => .text <$> Client.start s limit
  | .enter => do
    let _ ← Client.start s Client.startLimit
    return .flag true
  | .leave => do
    Client.stop s
    return .nothing
  | .write text => do
    Client.sendMessage s text
    return .nothing
  | .read => .message <$> Client.receiveMessage s none
  | .interrupt => do
    Client.interrupt s
    return .nothing
  | .stop => do
    Client.stop s
    return .nothing

end IdeMode
