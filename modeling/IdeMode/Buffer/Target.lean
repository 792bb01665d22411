import IdeMode.Buffer.Basic
import IdeMode.Text.Blank
set_option autoImplicit false

/-!
# What stands at a point

The identifier, the partial name or the hole at a line and column of a buffer. Identifiers may carry
primes and dots; the question mark of a hole is not part of its name.
-/

namespace IdeMode

/-- An ASCII letter or digit, or an underscore. -/
def isWordChar (c : Char) : Bool := c.isAlphanum || c == '_'

/-- A character of a name with its namespace. -/
def isNameChar (c : Char) : Bool := isWordChar c || c == '\x27' || c == '.'

/-- The run of characters of a class around a place in a line: those that end before it and those
that start at it. -/
def runAround (belongs : Char → Bool) (line : List Char) (place : Nat) : List Char :=
  ((line.take place).reverse.takeWhile belongs).reverse ++ (line.drop place).takeWhile belongs

namespace Buffer

/-- The identifier that touches a line and column, and its line. A point just past the end of a name
still counts; dots at its ends do not belong to it. -/
def nameAt (b : Buffer) (line column : Int) : Result (String × Int) := do
  if line < 1 ∨ b.lineCount < line then throw (.noTarget line column)
  let text ← b.lineContent line
  let place := min (max column 1 - 1).toNat text.length
  let name := Text.trimBy (· == '.') (runAround isNameChar text place)
  if name.isEmpty then throw (.noTarget line column)
  return (String.ofList name, line)

/-- The partial name that ends at a line and column: where it starts, where it ends, and its
text. -/
def completionStem (b : Buffer) (line column : Int) : Result (Int × Int × String) := do
  let finish ← b.offset line column
  let (lineStart, _) ← b.bounds line
  let stem := ((stretch b.text lineStart finish).reverse.takeWhile isWordChar).reverse
  return (finish - stem.length, finish, String.ofList stem)

/-- The offset of the last question mark of a stretch of text that begins at offset `start`. -/
def lastMark? (start : Int) (cs : List Char) : Option Int :=
  let after := cs.reverse.takeWhile (· != '?')
  if after.length < cs.length then some (start + (cs.length - after.length - 1 : Nat)) else none

/-- The hole nearest to a line and column at or before it, from its question mark through its name;
none if there is no question mark, or if a name is asked for and the hole has another. -/
def holeNear (b : Buffer) (line column : Int) (name : Option String) :
    Result (Option (Int × Int)) := do
  let point ← b.offset line column
  let (lineStart, endOfLine) ← b.bounds line
  match lastMark? lineStart (stretch b.text lineStart (min (point + 1) endOfLine)) with
  | none => return none
  | some mark =>
    let found := (b.text.drop (mark.toNat + 1)).takeWhile isNameChar
    match name with
    | some wanted => if String.ofList found ≠ wanted then return none
    | none => pure ()
    return some (mark, mark + 1 + found.length)

end Buffer

end IdeMode
