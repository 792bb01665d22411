import IdeMode.Text.Numeral
set_option autoImplicit false

/-!
# The command line

Options choose how the server is reached; a `serve` command may stand among them. A long option may
be cut to any beginning that fits no other option, and takes its value from the next argument or
after an equals sign.

The options after `serve` are read on their own, from the defaults on, and replace those before it.
-/

namespace IdeMode.CommandLine

/-- How the server is reached. -/
structure Options where
  transport : String := "stdio"
  port : Int := 8000
  host : String := "127.0.0.1"
  verbose : Bool := false
  snippets : Bool := false
  deriving DecidableEq, Repr

/-- Why the command line runs no server. -/
inductive Exit where
  /-- help was asked for -/
  | help
  /-- the arguments make no sense -/
  | usage
  deriving DecidableEq, Repr

/-- The status with which the program ends. -/
def Exit.code : Exit → Nat
  | .help => 0
  | .usage => 2

/-- The options by their meaning. -/
inductive Name where
  | help
  | transport
  | port
  | host
  | verbose
  | snippets
  deriving DecidableEq, Repr

/-- The option takes a value. -/
def Name.takesValue : Name → Bool
  | .transport | .port | .host => true
  | _ => false

/-- The long spellings. -/
def longSpellings : List (List Char × Name) :=
  [("--help".toList, .help), ("--transport".toList, .transport), ("--port".toList, .port),
   ("--host".toList, .host), ("--verbose".toList, .verbose), ("--snippets".toList, .snippets)]

/-- The option of one letter. -/
def shortOption? : Char → Option Name
  | 'h' => some .help
  | 'v' => some .verbose
  | _ => none

/-- What an argument looks like before the options are read. -/
inductive Kind where
  /-- a long option, with the value after its equals sign -/
  | long (name : Name) (value : Option String)
  /-- a short option, with what follows its letter -/
  | short (name : Name) (tail : List Char)
  /-- something that looks like an option and is none -/
  | unknown
  /-- anything else -/
  | plain
  /-- two dashes, after which everything is plain -/
  | separator
  deriving DecidableEq, Repr

/-- Digits, at least one; a newline may stand behind them. -/
def isNumeral (cs : List Char) : Bool :=
  !(cs.takeWhile Text.isDigit).isEmpty && [[], ['\n']].contains (cs.dropWhile Text.isDigit)

/-- A number with a minus sign, which is no option. -/
def isNegativeNumber (cs : List Char) : Bool :=
  match cs with
  | '-' :: rest =>
    match rest.dropWhile Text.isDigit with
    | '.' :: fraction => isNumeral fraction
    | _ => isNumeral rest
  | _ => false

/-- What an argument with a leading dash is if it is no option. -/
def nonOption (cs : List Char) : Kind :=
  if isNegativeNumber cs || cs.contains ' ' then .plain else .unknown

/-- What an argument looks like; a long option that could be several is an error. -/
def classify (arg : String) : Except Exit Kind :=
  match arg.toList with
  | '-' :: '-' :: rest =>
    let cs := '-' :: '-' :: rest
    let stem := cs.takeWhile (· != '=')
    let value :=
      if cs.contains '=' then some (String.ofList ((cs.dropWhile (· != '=')).drop 1)) else none
    match longSpellings.find? fun o => o.1 == stem with
    | some o => .ok (.long o.2 value)
    | none =>
      match longSpellings.filter fun o => stem.isPrefixOf o.1 with
      | [] => .ok (nonOption cs)
      | [o] => .ok (.long o.2 value)
      | _ => .error .usage
  | '-' :: letter :: rest =>
    match shortOption? letter with
    | some name => .ok (.short name rest)
    | none => .ok (nonOption ('-' :: letter :: rest))
  | _ => .ok .plain

/-- What the arguments look like. -/
def classifyAll : List String → Except Exit (List (String × Kind))
  | [] => .ok []
  | "--" :: rest => .ok (("--", .separator) :: rest.map fun arg => (arg, Kind.plain))
  | arg :: rest =>
    match classify arg, classifyAll rest with
    | .ok kind, .ok kinds => .ok ((arg, kind) :: kinds)
    | _, _ => .error .usage

/-- Sets an option that takes a value. -/
def Options.set (o : Options) (name : Name) (value : String) : Except Exit Options :=
  match name with
  | .transport => if ["stdio", "http", "sse"].contains value then .ok { o with transport := value }
    else .error .usage
  | .port =>
    match Text.integerLiteral? 10 value.toList with
    | some port => .ok { o with port := port }
    | none => .error .usage
  | .host => .ok { o with host := value }
  | _ => .error .usage

/-- Sets an option that takes no value. -/
def Options.flag (o : Options) (name : Name) : Except Exit Options :=
  match name with
  | .help => .error .help
  | .verbose => .ok { o with verbose := true }
  | .snippets => .ok { o with snippets := true }
  | _ => .error .usage

/-- The options of several letters behind one dash, up to the first letter that is none, and whether
there is one. -/
def shortNames? (name : Name) : List Char → Option (List Name × Bool)
  | [] => some ([name], false)
  -- what looks like a value is not left over but refused
  | '=' :: _ | '-' :: _ => none
  | letter :: rest =>
    match shortOption? letter with
    | some next => (shortNames? next rest).map fun (names, leftover) => (name :: names, leftover)
    | none => some ([name], true)

/-- What reading the arguments yields: the options, whether there were arguments that nothing takes,
and the arguments of a command, if there is one. -/
structure Reading where
  options : Options := {}
  leftover : Bool := false
  command : Option (List String) := none
  deriving DecidableEq, Repr

/-- Reads arguments from left to right. With `commands`, the first plain argument is the command and
takes everything after it. -/
def read (commands : Bool) (r : Reading) : List (String × Kind) → Except Exit Reading
  | [] => .ok r
  | (_, .long name value) :: rest =>
    if name.takesValue then
      match value, rest with
      | some v, rest =>
        match r.options.set name v with
        | .ok o => read commands { r with options := o } rest
        | .error e => .error e
      | none, (v, .plain) :: rest =>
        match r.options.set name v with
        | .ok o => read commands { r with options := o } rest
        | .error e => .error e
      | none, _ => .error .usage
    else if value.isSome then .error .usage
    else
      match r.options.flag name with
      | .ok o => read commands { r with options := o } rest
      | .error e => .error e
  | (_, .short name tail) :: rest =>
    match shortNames? name tail with
    | none => .error .usage
    | some (names, leftover) =>
      match names.foldlM Options.flag r.options with
      | .ok o => read commands { r with options := o, leftover := r.leftover || leftover } rest
      | .error e => .error e
  | (_, .unknown) :: rest => read commands { r with leftover := true } rest
  | (arg, .plain) :: rest =>
    if commands then .ok { r with command := some (arg :: rest.map Prod.fst) }
    else read commands { r with leftover := true } rest
  | (arg, .separator) :: rest =>
    if commands ∧ rest ≠ [] then .ok { r with command := some (arg :: rest.map Prod.fst) }
    else read commands { r with leftover := true } rest

/-- Reads the arguments of a command line or of its command. -/
def readAll (commands : Bool) (args : List String) : Except Exit Reading :=
  match classifyAll args with
  | .ok kinds => read commands {} kinds
  | .error e => .error e

/-- The options that a command line chooses. -/
def parse (args : List String) : Except Exit Options :=
  match readAll true args with
  | .error e => .error e
  | .ok r =>
    match r.command with
    | none => if r.leftover then .error .usage else .ok r.options
    | some ("serve" :: rest) =>
      match readAll false rest with
      | .error e => .error e
      | .ok inner => if r.leftover || inner.leftover then .error .usage else .ok inner.options
    | some _ => .error .usage

/-- How the server is run. -/
structure Launch where
  /-- transport, host and port; over standard input and output none of them is used -/
  endpoint : Option (String × String × Int)
  snippets : Bool
  verbose : Bool
  deriving DecidableEq, Repr

/-- The launch that options ask for; fields may already be on. -/
def Options.launch (o : Options) (snippets : Bool) : Launch where
  endpoint := if o.transport = "stdio" then none else some (o.transport, o.host, o.port)
  snippets := snippets || o.snippets
  verbose := o.verbose

/-- What is announced before the server runs. -/
def Launch.announcement (l : Launch) : String :=
  match l.endpoint with
  | none => ""
  | some (transport, host, port) =>
    "Idris MCP server starting on " ++ host ++ ":" ++ toString port ++ " (" ++ transport ++ ")\n"

end IdeMode.CommandLine
