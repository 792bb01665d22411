import IdeMode.Buffer.Basic
import IdeMode.Snippet.Template
set_option autoImplicit false

/-!
# Inserting compiler output

Output is inserted as it is, or as a template whose fields are filled with their defaults; then the
places of the fields are reported.
-/

namespace IdeMode

/-- A field left in a buffer: its number, its default text and where that text starts. -/
structure Field where
  number : Nat
  default : String
  offset : Int
  deriving DecidableEq, Repr

namespace Snippet

/-- The text of a token with its default filled in. -/
def Token.text : Token → List Char
  | .char c => [c]
  | .field _ default => default

/-- The text of a template with the defaults filled in. -/
def expansion (tokens : List Token) : List Char := tokens.flatMap Token.text

/-- The fields of a template that is expanded at an offset, as they occur. -/
def fieldsFrom (place : Int) : List Token → List Field
  | [] => []
  | .char _ :: rest => fieldsFrom (place + 1) rest
  | .field number default :: rest =>
    ⟨number, String.ofList default, place⟩ :: fieldsFrom (place + default.length) rest

/-- Puts a field before the first one with a greater number. -/
def insertField (f : Field) : List Field → List Field
  | [] => [f]
  | g :: rest => if f.number < g.number then f :: g :: rest else g :: insertField f rest

/-- The fields in the order of their numbers; equal numbers keep their order. -/
def sortFields (fields : List Field) : List Field :=
  fields.foldl (fun sorted f => insertField f sorted) []

/-- Replaces a range of a buffer by a template with its defaults filled in. -/
def insertTemplate (b : Buffer) (d : Disk) (start finish : Int) (template : List Char) :
    Result (List Field × Buffer × Disk) := do
  let tokens ← tokens template
  let (b, d) ← b.replace d start finish (expansion tokens)
  return (sortFields (fieldsFrom start tokens), b, d)

end Snippet

/-- How compiler output is inserted. -/
inductive Editor where
  /-- as it is -/
  | plain
  /-- with its holes turned into fields -/
  | templated
  deriving DecidableEq, Repr

namespace Editor

/-- The editor for a choice of fields or none. -/
def ofFlag (snippets : Bool) : Editor := if snippets then .templated else .plain

/-- Replaces a range of a buffer by compiler output. -/
def insert (e : Editor) (b : Buffer) (d : Disk) (start finish : Int) (text : List Char) :
    Result (List Field × Buffer × Disk) :=
  match e with
  | .plain => do
    let (b, d) ← b.replace d start finish text
    return ([], b, d)
  | .templated => Snippet.insertTemplate b d start finish (Snippet.template text)

end Editor

end IdeMode
