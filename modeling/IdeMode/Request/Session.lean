import IdeMode.Machine
set_option autoImplicit false

/-!
# Requests to a session

The operations on one session, and on documents that are opened when they are first named.
-/

namespace IdeMode

/-- An editing command. -/
inductive EditCommand where
  | caseSplit
  | addClause (proof : Bool)
  | addMissing
  | makeWith
  | proofSearch (hints : List String)
  | refine (variant : String) (stem : String) (choices : List String)
  deriving Repr

/-- A request about a document. -/
inductive DocumentRequest where
  /-- load it unless the compiler holds it -/
  | ensureLoaded
  | load
  | postLoad (label : String)
  | watch
  | noteChange
  | noteLoaded
  /-- asks whether it is dirty, loaded and stale -/
  | query
  | replace (start finish : Int) (text : String)
  | reread
  | typeOf (line column : Int) (name : Option String)
  | edit (command : EditCommand) (line column : Int) (snippets : Bool)
  | complete (line column : Int)
  deriving Repr

/-- A request to a session. -/
inductive SessionRequest where
  /-- start the compiler if it does not run -/
  | ensure
  | close
  /-- a call with the session's own limit unless another is given -/
  | call (command : Command) (limit : Option Duration)
  /-- a call with just the limit that is given -/
  | rawCall (command : Command) (limit : Option Duration)
  | post (label : String) (command : Command)
  | discard
  | switch (directory : String)
  | evaluate (expression : String) (limit : Option Duration)
  /-- what the compiler printed -/
  | output
  /-- one more listener for diagnostics -/
  | listen
  | warnings (file : Option String)
  | resetWarnings (file : Option String)
  | addWarning (value : Value) (directory : Option String)
  | stats
  | document (name : String) (request : DocumentRequest)
  deriving Repr

namespace Client

/-- Runs an editing command at a point. -/
def perform (s d : Nat) (e : Editor) (line column : Int) : EditCommand → Action Edit
  | .caseSplit => caseSplit s d e line column
  | .addClause proof => addClause s d e line column proof
  | .addMissing => addMissing s d e line column
  | .makeWith => makeWith s d e line column
  | .proofSearch hints => proofSearch s d e line column hints
  | .refine variant stem choices =>
    match Variant.ofText? variant with
    | some v => refine s d e line column v stem choices
    | none => throw .badValue

end Client

/-- The operation that a request about a document asks for. -/
def DocumentRequest.action (s d : Nat) : DocumentRequest → Action Answer
  | .ensureLoaded => .flag <$> Client.ensureLoaded s d
  | .load => .response <$> Client.load s d
  | .postLoad label => do
    let id ← Client.postLoad s d label
    modify fun w => w.report (.loading label id)
    return .nothing
  | .watch => do
    Client.modifySession s fun session => session.watch d
    return .nothing
  | .noteChange => do
    let p ← Client.pathOf s d
    Client.modifySession s fun session => session.noteChange p
    return .nothing
  | .noteLoaded => do
    Client.modifySession s fun session => session.noteLoaded d
    return .nothing
  | .query => do
    let p ← Client.pathOf s d
    let session ← Client.session s
    return .standing (session.isDirty p) (session.isLoaded p) (session.isStale p)
  | .replace start finish text => do
    Client.replace s d start finish text.toList
    return .nothing
  | .reread => .flag <$> Client.reread s d
  | .typeOf line column name => do
    Client.modifySession s fun session => session.watch d
    .shown <$> Client.typeOf s d line column name
  | .edit command line column snippets => do
    Client.modifySession s fun session => session.watch d
    .edit <$> Client.perform s d (Editor.ofFlag snippets) line column command
  | .complete line column => do
    Client.modifySession s fun session => session.watch d
    .completion <$> Client.complete s d line column

/-- The operation that a request to a session asks for. -/
def SessionRequest.action (s : Nat) : SessionRequest → Action Answer
  | .ensure => do
    match ← Client.ensureRunning s with
    | some message => return .text message
    | none => return .nothing
  | .close => do
    Client.close s
    return .nothing
  | .call command limit => .response <$> Client.sessionCall s command limit
  | .rawCall command limit => .response <$> Client.call s command limit
  | .post label command => do
    let (issued, finished) ← Client.post s command (.continuation label)
    modify fun w => w.report (.issued label issued.id issued.hasContinuation finished)
    return .nothing
  | .discard => do
    Client.discard s
    return .nothing
  | .switch directory => do .flag <$> Client.switchDirectory s (← Client.resolve directory)
  | .evaluate expression limit => .response <$> Client.evaluate s expression limit
  | .output => do return .output (← Client.session s).output
  | .listen => do
    Client.modifySession s fun session => { session with listeners := session.listeners + 1 }
    return .nothing
  | .warnings file => do
    let p ← file.mapM Client.resolve
    return .warnings ((← Client.session s).warningsFor p)
  | .resetWarnings file => do
    let p ← file.mapM Client.resolve
    Client.modifySession s fun session => session.resetWarnings p
    return .nothing
  | .addWarning value directory => do
    match Warning.ofValue value with
    | .error fault => throw (.malformed fault)
    | .ok w =>
      let base ← Client.resolve (directory.getD ".")
      let added ← Prog.ofResult ((← Client.session s).addWarning base w)
      Client.modifySession s fun _ => added
      return .nothing
  | .stats => do return .stats (← Client.session s).dispatch.stats
  | .document name request => do request.action s (← Client.openDocument s name)

end IdeMode
