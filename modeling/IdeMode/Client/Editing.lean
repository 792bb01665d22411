import IdeMode.Buffer.Target
import IdeMode.Client.Loading
import IdeMode.Editing.Reply
import IdeMode.Snippet.Editor
set_option autoImplicit false

/-!
# Editing commands

Commands at a point of a document. Each loads the document first if it is stale, asks the compiler,
and only then edits the document, so that a command that fails leaves no edit behind.
-/

namespace IdeMode

/-- What an editing command did. -/
structure Edit where
  command : String
  text : String
  line : Int
  fields : List Field := []
  rounds : Nat := 1
  /-- what the user is told -/
  messages : List String := []
  /-- the names that were offered, round by round -/
  offered : List (List String) := []
  deriving Repr

/-- Names that complete a partial name, and where it stands. -/
structure Completion where
  start : Int
  finish : Int
  stem : String
  candidates : List String
  deriving Repr

/-- How the names of a refinement are found. -/
inductive Variant where
  /-- by their type, and one is chosen -/
  | plain
  /-- likewise, among those that begin in a certain way -/
  | stem
  /-- round by round, for as long as there are names to choose -/
  | recursive
  deriving DecidableEq, Repr

namespace Variant

/-- The word for a variant. -/
def text : Variant → String
  | .plain => "plain"
  | .stem => "prefix"
  | .recursive => "recursive"

/-- The variant that a word means. -/
def ofText? (s : String) : Option Variant :=
  [plain, stem, recursive].find? fun v => v.text = s

end Variant

namespace Client

/-- Edits a document with compiler output. -/
def applyEdit (s d : Nat) (e : Editor) (start finish : Int) (text : String) :
    Action (List Field) := do
  let (fields, b, disk) ←
    Prog.ofResult (e.insert ((← session s).buffer d) (← get).host.disk start finish text.toList)
  commit s d b disk
  return fields

/-- Asks the compiler about the identifier at a point, in the current text. -/
def askAbout (s d : Nat) (tag : String) (line column : Int) (extra : List Value) :
    Action (String × Int × Response) := do
  let (name, line) ← Prog.ofResult (((← session s).buffer d).nameAt line column)
  let _ ← ensureLoaded s d
  let r ← sessionCall s ⟨tag, .int line :: .str name :: extra⟩ none
  return (name, line, r)

/-- The type of a name, or of the identifier at a point. -/
def typeOf (s d : Nat) (line column : Int) (name : Option String) : Action Response := do
  let name ← match name with
    | some name => pure name
    | none => do
      let (name, _) ← Prog.ofResult (((← session s).buffer d).nameAt line column)
      pure name
  let _ ← ensureLoaded s d
  sessionCall s ⟨"type-of", [.str name]⟩ none

/-- Replaces the line of an identifier by what the compiler answers. -/
def replaceLineBy (s d : Nat) (e : Editor) (tag : String) (line column : Int)
    (messages : String → List String) : Action Edit := do
  let (name, line, r) ← askAbout s d tag line column []
  let text := Editing.withoutTerminator r.text
  let b := (← session s).buffer d
  let start ← Prog.ofResult (b.offset line)
  let finish ← Prog.ofResult (b.endOfLine line)
  let fields ← applyEdit s d e start finish text
  return { command := tag, text := text, line := line, fields := fields, messages := messages name }

/-- Splits the variable at a point into cases. -/
def caseSplit (s d : Nat) (e : Editor) (line column : Int) : Action Edit :=
  replaceLineBy s d e "case-split" line column fun name => ["Case split on " ++ name]

/-- Turns the clause at a point into a block with a scrutinee. -/
def makeWith (s d : Nat) (e : Editor) (line column : Int) : Action Edit :=
  replaceLineBy s d e "make-with" line column fun _ => []

/-- Adds a first clause below the declaration at a point. -/
def addClause (s d : Nat) (e : Editor) (line column : Int) (proof : Bool) : Action Edit := do
  let tag := if proof then "add-proof-clause" else "add-clause"
  let (_, line, r) ← askAbout s d tag line column []
  let text := Editing.withoutTerminator r.text
  let finish ← Prog.ofResult (((← session s).buffer d).endOfLine line)
  let fields ← applyEdit s d e finish finish ("\n" ++ text)
  return { command := tag, text := text, line := line + 1, fields := fields }

/-- Adds the missing clauses below the one at a point. -/
def addMissing (s d : Nat) (e : Editor) (line column : Int) : Action Edit := do
  let (_, line, r) ← askAbout s d "add-missing" line column []
  let text := Editing.withoutTerminator r.text
  let b := (← session s).buffer d
  let fields ←
    if line < b.lineCount then do
      let place ← Prog.ofResult (b.offset (line + 1))
      applyEdit s d e place place (text ++ "\n")
    else do
      let place ← Prog.ofResult (b.endOfLine line)
      applyEdit s d e place place ("\n" ++ text)
  return { command := "add-missing", text := text, line := line + 1, fields := fields }

/-- Fills the hole at a point by proof search. -/
def proofSearch (s d : Nat) (e : Editor) (line column : Int) (hints : List String) :
    Action Edit := do
  let names := (Editing.hintNames hints).map Value.str
  let (name, line, r) ← askAbout s d "proof-search" line column [.list names]
  match ← Prog.ofResult (((← session s).buffer d).holeNear line column (some name)) with
  | none => throw (.vanished name)
  | some (start, finish) =>
    let text := Editing.withoutTerminator r.text
    let fields ← applyEdit s d e start finish text
    return { command := "proof-search", text := text, line := line, fields := fields }

/-! ## Refinement -/

/-- A hole that is being refined. -/
structure Refinement where
  session : Nat
  document : Nat
  editor : Editor
  variant : Variant
  hole : String
  line : Int

namespace Refinement

/-- Asks for the first names to choose from. -/
def ask (r : Refinement) (stem : String) : Action Editing.Offer := do
  let target : List Value := [.int r.line, .str r.hole]
  match r.variant with
  | .recursive =>
    let answer ← sessionCall r.session ⟨"compatible-identifiers-recursive", target⟩ none
    Prog.ofResult (Editing.Offer.ofValue answer.value)
  | .plain => names (← sessionCall r.session ⟨"compatible-identifiers", target⟩ none)
  | .stem =>
    names (← sessionCall r.session ⟨"complete-compatible-identifiers", target ++ [.str stem]⟩ none)
where
  /-- There must be names to choose from. -/
  names (answer : Response) : Action Editing.Offer :=
    match Editing.offeredNames answer.value with
    | [] => throw (.callFailed ("No compatible identifiers for ?" ++ r.hole))
    | candidates => return .choices candidates

/-- Tells the compiler the name that was chosen. -/
def choose (r : Refinement) (choice : String) : Action Editing.Offer := do
  let args : List Value := [.int r.line, .str r.hole, .str choice]
  match r.variant with
  | .recursive =>
    let answer ← sessionCall r.session ⟨"choose-identifier", args⟩ none
    Prog.ofResult (Editing.Offer.ofValue answer.value)
  | _ =>
    let answer ← sessionCall r.session ⟨"make-refined-expression", args⟩ none
    return .final (Editing.withoutTerminator answer.text)

/-- Makes choices until the expression is finished; `offered` holds the names that were offered
before. The answer is the expression and everything that was offered. -/
def pursue (r : Refinement) (choices : List String) (offered : List (List String))
    (offer : Editing.Offer) : Action (String × List (List String)) :=
  match offer with
  | .final expression => return (expression, offered)
  | .choices candidates =>
    let offered := offered ++ [candidates]
    match choices with
    | [] => throw (.choiceRequired candidates offered.length)
    | choice :: rest => do
      unless candidates.contains choice do throw (.choiceRequired candidates offered.length)
      let offer ← r.choose choice
      r.pursue rest offered offer

/-- A text goes on with the name of a hole: no letter, digit, underscore or prime may come right
after it. -/
def startsWithName (hole cs : List Char) : Bool :=
  hole.isPrefixOf cs && !((cs.drop hole.length).head?.any fun c => isWordChar c || c == '\x27')

/-- Where a name starts in a text as the whole name of a hole, from its question mark on. -/
def findHole? (hole : List Char) : List Char → Option Nat
  | [] => none
  | c :: cs => if c = '?' ∧ startsWithName hole cs then some 0 else (findHole? hole cs).map (· + 1)

/-- Replaces the hole on its line by an expression. -/
def fillHole (r : Refinement) (expression : String) : Action (List Field) := do
  let b := (← Client.session r.session).buffer r.document
  let text ← if r.line ≤ b.lineCount then Prog.ofResult (b.lineContent r.line) else pure []
  match findHole? r.hole.toList text with
  | none => throw (.vanished r.hole)
  | some column =>
    let start := (← Prog.ofResult (b.offset r.line)) + column
    applyEdit r.session r.document r.editor start (start + r.hole.length + 1) expression

/-- A refinement up to its expression: the expression and what was offered. -/
def converse (r : Refinement) (stem : String) (choices : List String) :
    Action (String × List (List String)) := do
  let _ ← ensureLoaded r.session r.document
  r.pursue choices [] (← r.ask stem)

end Refinement

/-- A refinement up to its edit, with names that are chosen in advance. -/
def fillRefined (s d : Nat) (e : Editor) (line column : Int) (variant : Variant) (stem : String)
    (choices : List String) : Action Edit := do
  let (name, line) ← Prog.ofResult (((← session s).buffer d).nameAt line column)
  let r : Refinement := ⟨s, d, e, variant, name, line⟩
  let (expression, offered) ← r.converse stem choices
  let fields ← r.fillHole expression
  return {
    command := "refine-" ++ variant.text, text := expression, line := line, fields := fields,
    rounds := offered.length + 1, offered := offered }

/-- Refines the hole at a point and loads the document again. -/
def refine (s d : Nat) (e : Editor) (line column : Int) (variant : Variant) (stem : String)
    (choices : List String) : Action Edit := do
  let edit ← fillRefined s d e line column variant stem choices
  let _ ← load s d
  return edit

/-! ## Completion -/

/-- The names in the answer to a request for completions: a list of them, alone or before the common
part. -/
def completionNames : Value → List String
  | .list (.list names :: _) => names.map Value.text
  | .list names => names.map Value.text
  | _ => []

/-- Completes the name that ends at a point, if the compiler runs. The document is not loaded. -/
def complete (s d : Nat) (line column : Int) : Action (Option Completion) := do
  let b := (← session s).buffer d
  if !(← isRunning s) || line < 1 || b.lineCount < line then return none
  let (start, finish, stem) ← Prog.ofResult (b.completionStem line column)
  if stem.isEmpty then return none
  let r ← sessionCall s ⟨"repl-completions", [.str stem]⟩ none
  match completionNames r.value with
  | [] => return none
  | candidates => return some ⟨start, finish, stem, candidates⟩

end Client

end IdeMode
