import IdeMode.Fault
import IdeMode.Protocol.Command
import IdeMode.Protocol.Response
import IdeMode.Table
set_option autoImplicit false

/-!
# Dispatch

Every command gets a fresh number, and a reply is matched to its command by that number, whatever
the order in which replies arrive. Commands wait in an outbox until they are written; those that
were issued and not yet answered are pending.

A call ends in one of two ways. It is settled, by its reply or by an outage, and then whoever issued
it is told; or it is dropped, because its time ran out or the session was closed.
-/

namespace IdeMode

/-- Who is told the outcome of a call. -/
inductive Addressee where
  /-- the task that waits for it -/
  | waiter
  /-- a continuation, known by a label -/
  | continuation (label : String)
  /-- the continuation of a load: its label, the buffer that is loaded, and the buffer's generation
  at issue -/
  | load (label : String) (document : Nat) (generation : Nat)
  deriving DecidableEq, Repr

/-- A command that was issued. -/
structure Call where
  id : Nat
  command : Command
  addressee : Addressee
  deriving Repr

namespace Call

/-- Nobody waits for the call; a continuation runs when it is settled. -/
def hasContinuation (c : Call) : Bool :=
  match c.addressee with
  | .waiter => false
  | _ => true

end Call

/-- How a call ended. -/
inductive Outcome where
  | answered (r : Response)
  | failed (f : Fault)
  /-- its time ran out before it was settled -/
  | expired
  deriving Repr

/-- The outcome of a call that the compiler replied to. -/
def Outcome.ofReply (ok : Bool) (payload : List Value) : Outcome :=
  if ok then .answered (Response.ofPayload payload)
    else .failed (.callFailed (Message.failureText payload))

/-- Counters of a dispatcher. -/
structure Stats where
  issued : Nat := 0
  completed : Nat := 0
  failed : Nat := 0
  /-- replies to no pending call -/
  stray : Nat := 0
  byTag : Table String Nat := []
  deriving Repr

/-- The state of a dispatcher. -/
structure Dispatch where
  nextId : Nat := 1
  /-- the calls that were issued and not yet settled or dropped, in the order of their numbers -/
  pending : List Call := []
  /-- the calls that were issued and not yet taken up for writing -/
  outbox : List Call := []
  stats : Stats := {}
  /-- the task that writes commands -/
  writer : Option Nat := none
  /-- the writer waits for something to write -/
  writerIdle : Bool := false
  /-- the task that reads messages -/
  reader : Option Nat := none
  /-- the tasks that wait for a call, by its number -/
  waiting : Table Nat Nat := []
  /-- outcomes that their waiter has not yet taken -/
  outcomes : Table Nat Outcome := []
  deriving Repr

namespace Dispatch

/-- The call was issued and neither settled nor dropped. -/
def isPending (d : Dispatch) (id : Nat) : Bool := d.pending.any fun c => c.id = id

/-- The pending call with the number that a reply carries. -/
def find? (d : Dispatch) (id : Option Int) : Option Call :=
  match id with
  | some n => d.pending.find? fun c => Int.ofNat c.id = n
  | none => none

/-- Takes a call off the pending ones. -/
def remove (d : Dispatch) (id : Nat) : Dispatch :=
  { d with pending := d.pending.filter fun c => c.id ≠ id }

/-- Issues a command: it gets a number, counts as pending and waits in the outbox. -/
def issue (d : Dispatch) (command : Command) (addressee : Addressee) : Call × Dispatch :=
  let call : Call := ⟨d.nextId, command, addressee⟩
  let count := (d.stats.byTag.get? command.tag).getD 0
  (call, { d with
    nextId := d.nextId + 1
    pending := d.pending ++ [call]
    outbox := d.outbox ++ [call]
    stats :=
      { d.stats with
        issued := d.stats.issued + 1, byTag := d.stats.byTag.set command.tag (count + 1) } })

/-- Turns a command down at once: it gets a number and counts as failed, but is never pending. -/
def refuse (d : Dispatch) (command : Command) (addressee : Addressee) : Call × Dispatch :=
  (⟨d.nextId, command, addressee⟩,
    { d with nextId := d.nextId + 1, stats := { d.stats with failed := d.stats.failed + 1 } })

/-- Settles the call that a reply answers; a reply to no pending call only counts as stray. -/
def settleReply (d : Dispatch) (id : Option Int) (ok : Bool) (payload : List Value) :
    Option (Call × Outcome) × Dispatch :=
  match d.find? id with
  | none => (none, { d with stats := { d.stats with stray := d.stats.stray + 1 } })
  | some call =>
    let stats := if ok then { d.stats with completed := d.stats.completed + 1 }
      else { d.stats with failed := d.stats.failed + 1 }
    (some (call, .ofReply ok payload), { d.remove call.id with stats := stats })

/-- Settles every pending call with an outage. -/
def settlePending (d : Dispatch) (outage : Outage) : List (Call × Outcome) × Dispatch :=
  (d.pending.map fun c => (c, .failed (.unavailable outage)),
    { d with pending := [], stats := { d.stats with failed := d.stats.failed + d.pending.length } })

/-- Drops every pending call and everything that was to be written; those who wait are told that the
session is closed, and continuations do not run. -/
def discard (d : Dispatch) : List (Call × Outcome) × Dispatch :=
  ((d.pending.filter fun c => !c.hasContinuation).map fun c => (c, .failed (.unavailable .closed)),
    { d with pending := [], outbox := [], writer := none, writerIdle := false, reader := none })

/-- Takes the next call from the outbox. -/
def takeOutbox (d : Dispatch) : Option Call × Dispatch :=
  match d.outbox with
  | [] => (none, d)
  | c :: rest => (some c, { d with outbox := rest })

end Dispatch

end IdeMode
