import IdeMode.Sexp.Parser
import IdeMode.Sexp.Printer
import IdeMode.Wire.Frame
set_option autoImplicit false

/-!
# Messages

What the compiler sends: its banner, replies to requests, and notices of all kinds. A message is a
list that starts with an atom; the atom less its first character names the kind.
-/

namespace IdeMode

/-- Why something that was received cannot be understood. -/
inductive Malformed where
  /-- not a value -/
  | sexp (fault : Sexp.Fault)
  /-- not a header -/
  | header (fault : Wire.HeaderFault)
  /-- a value that is no message -/
  | notMessage (v : Value)
  /-- a message with too few parts -/
  | tooShort (head : String)
  /-- a reply that is neither a success nor a failure -/
  | badPayload (kind : String)
  /-- a warning without a file, two positions and a text -/
  | badWarning (v : Value)
  deriving Repr

/-- The wording of a fault. -/
def Malformed.message : Malformed → String
  | .sexp fault => fault.message
  | .header fault => fault.message
  | .notMessage v => "Not an IDE message: " ++ v.quoted
  | .tooShort head => "Malformed " ++ head ++ " message"
  | .badPayload kind => "Malformed " ++ kind ++ " payload"
  | .badWarning v => "Malformed warning: " ++ v.quoted

/-- One message of the compiler. -/
inductive Message where
  /-- the banner, with the parts of the protocol version -/
  | banner (version : List Value)
  /-- the reply to a request -/
  | reply (id : Option Int) (ok : Bool) (payload : List Value)
  /-- a preliminary result -/
  | output (id : Option Int) (ok : Bool) (payload : List Value)
  /-- anything else, such as a warning or a piece of printed text -/
  | notice (kind : String) (id : Option Int) (payload : Value)
  deriving Repr

namespace Message

/-- The word for the kind of a message. -/
def kind : Message → String
  | .banner _ => "protocol-version"
  | .reply .. => "return"
  | .output .. => "output"
  | .notice kind _ _ => kind

/-- The request number that the message carries, if it carries one. -/
def id : Message → Option Int
  | .banner _ => none
  | .reply id _ _ => id
  | .output id _ _ => id
  | .notice _ id _ => id

/-- The content of the message. -/
def payload : Message → Value
  | .banner version => .list version
  | .reply _ _ payload => .list payload
  | .output _ _ payload => .list payload
  | .notice _ _ payload => payload

/-- A reply or a preliminary result may report a failure. -/
def ok : Message → Bool
  | .reply _ ok _ => ok
  | .output _ ok _ => ok
  | _ => true

/-- The message is the reply to a request. -/
def isReply : Message → Bool
  | .reply .. => true
  | _ => false

/-- Whether the content of a reply is a success, and the rest of it; none if it is neither success
nor failure. -/
def verdict? : Value → Option (Bool × List Value)
  | .list (head :: rest) =>
    match head.bare? with
    | some ":ok" => some (true, rest)
    | some ":error" => some (false, rest)
    | _ => none
  | _ => none

/-- The request number at the end of a message: its last part, if that is an integer. -/
def trailingId? (parts : List Value) : Option Int :=
  match parts.getLast? with
  | some (.int n) => some n
  | _ => none

/-- The message that a value is. -/
def ofValue (v : Value) : Except Malformed Message :=
  match v with
  | .list (.sym head :: rest) =>
    let kind := String.ofList (head.toList.drop 1)
    if kind = "protocol-version" then .ok (.banner rest)
    else
      match rest with
      | content :: _ :: _ =>
        let id := trailingId? rest
        if kind = "return" then
          match verdict? content with
          | some (ok, payload) => .ok (.reply id ok payload)
          | none => .error (.badPayload kind)
        else if kind = "output" then
          match verdict? content with
          | some (ok, payload) => .ok (.output id ok payload)
          | none => .error (.badPayload kind)
        else .ok (.notice kind id content)
      | _ => .error (.tooShort head)
  | v => .error (.notMessage v)

/-- The message that a text writes. -/
def ofText (cs : List Char) : Except Malformed Message :=
  match Sexp.decode cs with
  | .ok v => ofValue v
  | .error fault => .error (.sexp fault)

/-- The text of a failure: its first part if that is a text, and else all of it, written out. That
its lists may nest deeper than writing has room for is left out. -/
def failureText (payload : List Value) : String :=
  match payload.head?.bind Value.bare? with
  | some s => s
  | none => String.ofList (Value.list payload).print

end Message

end IdeMode
