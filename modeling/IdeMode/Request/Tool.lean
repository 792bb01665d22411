import IdeMode.Request.Session
set_option autoImplicit false

/-!
# Requests for tools

The tools by name, with their arguments. `session` is the name of the session that a tool works
with.
-/

namespace IdeMode

/-- A request for a tool. -/
inductive ToolRequest where
  | start (directory name : String) (environment : Option (List (String × String)))
  | sessions
  | stop (session : String)
  | evaluate (expression session : String) (limit : Duration)
  | load (file : String) (force : Bool) (session : String)
  | warnings (file : Option String) (session : String)
  | typeOf (file : String) (line column : Int) (name : Option String) (session : String)
  | edit (file : String) (command : EditCommand) (line column : Int) (session : String)
  | complete (file : String) (line column : Int) (session : String)
  /-- interrupt every compiler -/
  | interruptAll
  /-- whether holes in inserted text become fields -/
  | snippets (on : Bool)
  deriving Repr

/-- The operation that a request for a tool asks for. -/
def ToolRequest.action : ToolRequest → Action Answer
  | .start directory name environment => .text <$> Client.startTool directory name environment
  | .sessions => .text <$> Client.sessionsTool
  | .stop session => .text <$> Client.stopTool session
  | .evaluate expression session limit => .text <$> Client.evaluateTool expression session limit
  | .load file force session => .text <$> Client.loadTool file force session
  | .warnings file session => .text <$> Client.warningsTool file session
  | .typeOf file line column name session =>
    .text <$> Client.typeOfTool file line column name session
  | .edit file (.refine variant stem choices) line column session =>
    .text <$> Client.refineTool file line column variant stem choices session
  | .edit file command line column session =>
    .text <$> Client.editFile file session
      fun k e => Client.perform k.session k.document e line column command
  | .complete file line column session => .text <$> Client.completeTool file line column session
  | .interruptAll => do
    Client.interruptAll ((← get).registry.entries.map Prod.snd)
    return .nothing
  | .snippets on => do
    Client.modifyRegistry fun r => { r with snippets := on }
    return .nothing

end IdeMode
