import IdeMode.Client.Editing
set_option autoImplicit false

/-!
# Tools

What a user can ask for, by the name of a session and of a file. A session is made when it is first
named, and its compiler is started when it is first needed. A file is read again on every use, so a
change made elsewhere is seen. Sessions that nobody used for two hours are stopped, which is looked
after every five minutes at most.

Every tool answers with a text. Faults of editing with a compiler are part of that text; any other
fault ends the tool.
-/

namespace IdeMode.Client

/-- The time after which an unused session is stopped, in billionths of a second. -/
def idleLimit : Int := 7200 * Duration.second

/-- The least time between two searches for unused sessions. -/
def pruneEvery : Int := 300 * Duration.second

/-- The time that a call has, unless another is given. -/
def defaultCallLimit : Duration := .whole 30

/-- The time that a load has. -/
def defaultLoadLimit : Duration := .whole 300

/-! ## Sessions -/

/-- Changes the registry. -/
def modifyRegistry (f : Registry → Registry) : Action Unit :=
  modify fun w => { w with registry := f w.registry }

/-- The session of a name. -/
def entryNamed (name : String) : Action (Option Entry) := return (← get).registry.entries.get? name

/-- The time. -/
def now : Action Int := return (← get).host.clock

/-- Stops the sessions of these names that are still unused. -/
def pruneAll : List String → Action Unit
  | [] => return
  | name :: rest => do
    match ← entryNamed name with
    | none => pruneAll rest
    | some e =>
      if (← now) - e.lastUsed ≤ idleLimit then pruneAll rest
      else
        modifyRegistry fun r => { r with entries := r.entries.erase name }
        close e.session
        pruneAll rest

/-- Stops the sessions that nobody used for long, unless that was just looked after. -/
def prune : Action Unit := do
  let time ← now
  if time - (← get).registry.lastPrune < pruneEvery then return
  modifyRegistry fun r => { r with lastPrune := time }
  let idle := (← get).registry.entries.filter fun e => idleLimit < time - e.2.lastUsed
  pruneAll (idle.map Prod.fst)

/-- Makes a session for a directory and gives it a name. -/
def openSession (name : String) (directory : Path) (environment : Option (List (String × String))) :
    Action Entry := do
  let transport : Transport := { directory := directory.text, environment := environment.getD [] }
  let (s, w) := (← get).addSession
    { transport, loadLimit := some defaultLoadLimit, callLimit := some defaultCallLimit }
  set w
  let time ← now
  let e : Entry := ⟨s, time, time, directory, environment⟩
  modifyRegistry fun r => { r with entries := r.entries.set name e }
  return e

/-- Notes the time at which a session is used. -/
def touch (name : String) (e : Entry) : Action Entry := do
  let e := { e with lastUsed := ← now }
  modifyRegistry fun r =>
    { r with entries := r.entries.update name fun old => { old with lastUsed := e.lastUsed } }
  return e

/-- The session of a name, made if there is none; it counts as used. -/
def entryFor (name : String) (directory : Option Path) : Action Entry := do
  prune
  let e ← match ← entryNamed name with
    | some e => pure e
    | none => do openSession name (directory.getD (← get).host.cwd) none
  touch name e

/-- The path that a file name means. -/
def resolve (name : String) : Action Path := do
  unless Path.isName name do throw .badValue
  return (← get).host.cwd.resolve name

/-- The document of a session for a path: opened and watched if it is new, and else read again. -/
def documentAt (s : Nat) (p : Path) : Action Nat := do
  match (← session s).findDocument? p.text with
  | some d =>
    let _ ← reread s d
    return d
  | none =>
    let d ← openDocument s p.text
    modifySession s fun session => session.watch d
    return d

/-- A document of a named session for a file. -/
structure Desk where
  session : Nat
  document : Nat

/-- The desk for a file, in a named session. -/
def desk (file name : String) : Action Desk := do
  let p ← resolve file
  let e ← entryFor name (some p.parent)
  return ⟨e.session, ← documentAt e.session p⟩

/-! ## Texts -/

/-- A diagnostic: its place, and its message line by line. Only a text can be shown. -/
def warningLines (w : Warning) : Result (List String) :=
  match w.message.bare? with
  | none => .error .notText
  | some message =>
    .ok ((w.file ++ ":" ++ w.start.1.text ++ ":" ++ w.start.2.text ++ "-" ++
      w.finish.1.text ++ ":" ++ w.finish.2.text ++ ":") ::
      (Text.messageLines message).map ("  " ++ ·))

/-- The diagnostics of a file, or all of them. -/
def warningsText (s : Nat) (p : Option Path) : Action String := do
  let lines ← Prog.ofResult (((← session s).warningsFor p).mapM warningLines)
  return "\n".intercalate lines.flatten

/-- The text of a fault, with the diagnostics of a failed load. -/
def faultText (s : Option Nat) (f : Fault) : Action String := do
  match f, s with
  | .choiceRequired candidates round, _ =>
    return "CHOICE NEEDED (round " ++ toString round ++ "):\n" ++
      "\n".intercalate (candidates.map ("  " ++ ·)) ++
      "\nCall again with choices=[...previous choices, your choice]."
  | .loadFailed _ p, some s =>
    let details ← warningsText s (some p)
    return "ERROR: " ++ f.message ++ (if details.isEmpty then "" else "\n" ++ details)
  | f, _ => return "ERROR: " ++ f.message

/-- Runs a tool on a file and shows its faults: a file that is missing, and the faults of editing
with a compiler. -/
def onFile {α : Type} (file name : String) (action : Desk → Action α)
    (present : Desk → α → Action String) : Action String := do
  match ← (desk file name).attempt with
  | .error f => shown none f
  | .ok k =>
    match ← (action k).attempt with
    | .error f => shown (some k.session) f
    | .ok a => present k a
where
  /-- The text of a fault that is shown; any other goes on. -/
  shown (s : Option Nat) (f : Fault) : Action String :=
    match f with
    | .file .missing => return "ERROR: File not found: " ++ file
    | f => if f.isReported then faultText s f else throw f

/-- The holes that an edit left. -/
def fieldLines (b : Buffer) (fields : List Field) : List String :=
  if fields.isEmpty then []
  else
    "" :: "Holes to fill:" :: fields.map fun f =>
      let (line, column) := b.position f.offset
      "  " ++ toString f.number ++ ": " ++ f.default ++ " (line " ++ toString line ++ " col " ++
        toString column ++ ")"

/-- What an edit did. -/
def editText (k : Desk) (e : Edit) : Action String := do
  let b := (← session k.session).buffer k.document
  let messages := "\n".intercalate e.messages
  return "\n".intercalate ([e.command ++ " at line " ++ toString e.line ++ ":", e.text] ++
    (if 1 < e.rounds then ["[" ++ toString e.rounds ++ " rounds]"] else []) ++
    fieldLines b e.fields ++
    (if messages.isEmpty then [] else ["", messages]))

/-- Runs an editing command on a file. -/
def editFile (file name : String) (command : Desk → Editor → Action Edit) : Action String :=
  onFile file name (fun k => do command k (Editor.ofFlag (← get).registry.snippets)) editText

/-- A text filled up with spaces on the right. -/
def padRight (width : Nat) (s : String) : String :=
  s ++ String.ofList (List.replicate (width - s.length) ' ')

/-- An age in billionths of a second: seconds, whole minutes, or hours with one decimal. -/
def ageText (age : Int) : String :=
  let seconds := (age / Duration.second).toNat
  if seconds < 60 then toString seconds ++ "s"
  else if seconds < 3600 then toString (seconds / 60) ++ "m"
  else oneDecimal seconds 3600 ++ "h"

/-- A directory in a column of the overview: of a long one only the end. -/
def directoryColumn (p : Path) : String :=
  let cs := p.text.toList
  if 40 < cs.length then "..." ++ String.ofList (cs.drop (cs.length - 37)) else p.text

/-! ## The tools -/

/-- Two environments hold the same variables. -/
def sameEnvironment (a b : Option (List (String × String))) : Bool :=
  match a, b with
  | none, none => true
  | some a, some b => a.length == b.length && a.all fun v => b.contains v
  | _, _ => false

/-- Starts a session's compiler in a directory. -/
def startIn (name : String) (e : Entry) (p : Path) : Action String := do
  match ← (do
      let message ← ensureRunning e.session
      let _ ← switchDirectory e.session p
      return message : Action (Option String)).attempt with
  | .ok message =>
    return "Session '" ++ name ++ "' started. " ++ message.getD "" ++ "\nWorkdir: " ++ p.text
  | .error f => if f.isReported then return "ERROR starting Idris: " ++ f.message else throw f

/-- Starts a session. -/
def startTool (directory name : String) (environment : Option (List (String × String))) :
    Action String := do
  let p ← resolve directory
  if !(← get).host.disk.holds p then return "ERROR: Working directory does not exist: " ++ directory
  match ← entryNamed name with
  | none => startIn name (← openSession name p environment) p
  | some e =>
    if ← isRunning e.session then
      return "Session '" ++ name ++ "' already running.\nWorkdir: " ++ e.directory.text
    if sameEnvironment e.environment environment ∧ e.directory = p then startIn name e p
    else
      close e.session
      startIn name (← openSession name p environment) p

/-- One line of the overview. -/
def sessionLine (name : String) (e : Entry) : Action String := do
  let w ← get
  let session := w.session e.session
  let status := if w.isRunning e.session then "running" else "stopped"
  let loaded := (session.loaded.map fun d => (session.buffer d).fileName).getD "(none)"
  return padRight 12 name ++ " " ++ padRight 42 (directoryColumn e.directory) ++ " " ++
    padRight 7 (ageText ((← now) - e.started)) ++ " " ++ padRight 8 status ++ " " ++ loaded

/-- Lists the sessions. -/
def sessionsTool : Action String := do
  prune
  let entries := (← get).registry.entries
  if entries.isEmpty then return "No active sessions."
  let lines ← entries.mapM fun e => sessionLine e.1 e.2
  return "\n".intercalate
    ("SESSION      WORKDIR                                    AGE     STATUS   LOADED" ::
      String.ofList (List.replicate 100 '-') :: lines)

/-- Stops a session. -/
def stopTool (name : String) : Action String := do
  match ← entryNamed name with
  | none => return "Session '" ++ name ++ "' not found."
  | some e =>
    modifyRegistry fun r => { r with entries := r.entries.erase name }
    close e.session
    return "Session '" ++ name ++ "' stopped."

/-- Evaluates an expression; what the compiler printed meanwhile comes first. -/
def evaluateTool (expression name : String) (limit : Duration) : Action String := do
  let e ← entryFor name none
  let limit := Duration.clamp (.whole 1) (.whole 600) limit
  match ← (evaluate e.session expression (some limit)).attempt with
  | .error f => if f.isReported then faultText (some e.session) f else throw f
  | .ok r =>
    let output := String.join (← session e.session).output
    modifySession e.session fun session => { session with output := [] }
    return output ++ r.text

/-- Loads a file. -/
def loadTool (file : String) (force : Bool) (name : String) : Action String :=
  onFile file name
    (fun k => do
      if force then
        let _ ← load k.session k.document
        return true
      else ensureLoaded k.session k.document)
    fun k loaded => do
      let b := (← session k.session).buffer k.document
      let status :=
        if loaded then "Loaded " ++ b.fileName else b.fileName ++ " already loaded (unchanged)"
      let warnings ← warningsText k.session (some b.path)
      return if warnings.isEmpty then status else status ++ "\n\n" ++ warnings

/-- Shows the diagnostics of a file, or all of them. -/
def warningsTool (file : Option String) (name : String) : Action String := do
  match ← entryNamed name with
  | none => return "ERROR: Session '" ++ name ++ "' not found."
  | some e =>
    let p ← match file with
      | some f => if f.isEmpty then pure none else some <$> resolve f
      | none => pure none
    let text ← warningsText e.session p
    return if text.isEmpty then "No warnings." else text

/-- Shows the type of a name. -/
def typeOfTool (file : String) (line column : Int) (target : Option String)
    (name : String) : Action String :=
  onFile file name (fun k => typeOf k.session k.document line column target)
    fun _ r => return r.text

/-- Completes a name. -/
def completeTool (file : String) (line column : Int) (name : String) : Action String :=
  onFile file name (fun k => complete k.session k.document line column) fun _ completion =>
    match completion with
    | none => return "No completions."
    | some c =>
      return "Completions for '" ++ c.stem ++ "':\n" ++
        "\n".intercalate (c.candidates.map ("  " ++ ·))

/-- Refines a hole. -/
def refineTool (file : String) (line column : Int) (variant stem : String) (choices : List String)
    (name : String) : Action String :=
  match Variant.ofText? variant with
  | none =>
    return "ERROR: variant must be one of plain, prefix, recursive (got '" ++ variant ++ "')"
  | some v => editFile file name fun k e => refine k.session k.document e line column v stem choices

/-- Interrupts every compiler; what the system refuses does not matter. -/
def interruptAll : List Entry → Action Unit
  | [] => return
  | e :: rest => do
    match ← (interrupt e.session).attempt with
    | .ok () => pure ()
    | .error (.system _) => pure ()
    | .error f => throw f
    interruptAll rest

end IdeMode.Client
