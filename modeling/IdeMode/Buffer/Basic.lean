import IdeMode.Buffer.LineTable
import IdeMode.Text.Sha256
set_option autoImplicit false

/-!
# File buffers

A source file that is being edited: its text is kept in memory and written back on every change. A
buffer counts the changes it has announced, so that whoever watches it sees each of them exactly
once.
-/

namespace IdeMode

/-- An editable source file. -/
structure Buffer where
  path : Path
  text : List Char
  /-- how many changes were announced -/
  revision : Nat := 0
  deriving Repr, Inhabited

namespace Buffer

/-- The directory of the file. -/
def directory (b : Buffer) : Path := b.path.parent

/-- The name of the file in its directory. -/
def fileName (b : Buffer) : String := b.path.name

/-- The line table of the text. -/
def table (b : Buffer) : List Nat := LineTable.starts b.text

/-- The number of lines; a text always has one. -/
def lineCount (b : Buffer) : Nat := b.table.length

/-- The digest that names the content. -/
def digest (b : Buffer) : String := Text.Sha256.digest (Text.Utf8.encode b.text)

/-- A buffer with other content, the change announced. -/
def changed (b : Buffer) (text : List Char) : Buffer :=
  { b with text := text, revision := b.revision + 1 }

/-! ## Reading -/

/-- A new buffer on a file. -/
def ofDisk (d : Disk) (p : Path) : Result Buffer :=
  match d.readText p with
  | .ok text => .ok { path := p, text := text }
  | .error fault => .error (.file fault)

/-- Reads the file again; a change is announced. -/
def reread (b : Buffer) (d : Disk) : Result (Bool × Buffer) :=
  match d.readText b.path with
  | .error fault => .error (.file fault)
  | .ok text => .ok (if text = b.text then (false, b) else (true, b.changed text))

/-! ## Positions -/

/-- Where the content of a line starts and ends. -/
def bounds (b : Buffer) (line : Int) : Result (Int × Int) :=
  match LineTable.bounds? b.table b.text.length line with
  | some range => .ok range
  | none => .error .outOfTable

/-- The place of an index in a text of `length` characters: a negative one counts back from the end,
and none lies outside. -/
def clampIndex (length : Nat) (i : Int) : Nat := (if i < 0 then i + length else min i length).toNat

/-- A stretch of a text. -/
def stretch (cs : List Char) (start finish : Int) : List Char :=
  (cs.take (clampIndex cs.length finish)).drop (clampIndex cs.length start)

/-- The content of a line. -/
def lineContent (b : Buffer) (line : Int) : Result (List Char) := do
  let (start, finish) ← b.bounds line
  return stretch b.text start finish

/-- Where the content of a line ends. -/
def endOfLine (b : Buffer) (line : Int) : Result Int := do
  let (_, finish) ← b.bounds line
  return finish

/-- The offset of a line and column; the column is moved into the line. -/
def offset (b : Buffer) (line : Int) (column : Int := 1) : Result Int := do
  if line < 1 ∨ b.lineCount < line then throw (.noLine line b.lineCount)
  let (start, finish) ← b.bounds line
  return min (start + max column 1 - 1) finish

/-- The line and column of an offset. -/
def position (b : Buffer) (offset : Int) : Int × Int := LineTable.position b.table offset

/-! ## Changes -/

/-- Replaces a range of the text and writes the file. -/
def replace (b : Buffer) (d : Disk) (start finish : Int) (text : List Char) :
    Result (Buffer × Disk) :=
  if 0 ≤ start ∧ start ≤ finish ∧ finish ≤ b.text.length then
    let content := b.text.take start.toNat ++ text ++ b.text.drop finish.toNat
    match d.writeText b.path content with
    | .ok d => .ok (b.changed content, d)
    | .error fault => .error (.file fault)
  else .error (.badRange start finish b.text.length)

/-- Inserts text at an offset. -/
def insert (b : Buffer) (d : Disk) (place : Int) (text : List Char) : Result (Buffer × Disk) :=
  b.replace d place place text

/-- Replaces the content of a line, of which the newline stays. -/
def setLine (b : Buffer) (d : Disk) (line : Int) (text : List Char) : Result (Buffer × Disk) := do
  let (start, finish) ← b.bounds line
  b.replace d start finish text

/-! ## Changes that may fail half way -/

/-- A text as it is given to a buffer: characters, or half a pair of surrogates among them, which
has no encoding. -/
inductive Wording where
  | text (cs : List Char)
  | unencodable
  deriving Repr

/-- Replaces a range of the text and writes the file. The file is opened, and thereby emptied,
before the text is encoded. -/
def replaceBy (b : Buffer) (d : Disk) (start finish : Int) : Wording → Result Buffer × Disk
  | .text cs =>
    match b.replace d start finish cs with
    | .ok (b, d) => (.ok b, d)
    | .error fault => (.error fault, d)
  | .unencodable =>
    if 0 ≤ start ∧ start ≤ finish ∧ finish ≤ b.text.length then
      match d.writeText b.path [] with
      | .ok d => (.error (.file .unencodable), d)
      | .error fault => (.error (.file fault), d)
    else (.error (.badRange start finish b.text.length), d)

/-- Inserts text at an offset. -/
def insertBy (b : Buffer) (d : Disk) (place : Int) (text : Wording) : Result Buffer × Disk :=
  b.replaceBy d place place text

/-- Replaces the content of a line. -/
def setLineBy (b : Buffer) (d : Disk) (line : Int) (text : Wording) : Result Buffer × Disk :=
  match b.bounds line with
  | .ok (start, finish) => b.replaceBy d start finish text
  | .error fault => (.error fault, d)

end Buffer

end IdeMode
