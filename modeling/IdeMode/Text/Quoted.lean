import IdeMode.Text.Hex
import IdeMode.Text.Printable
set_option autoImplicit false

/-!
# Quoted text

Texts and byte strings as diagnostics show them: between quotes, with every character that cannot be
seen written as an escape.
-/

namespace IdeMode.Text

/-- A code point as the shortest numeric escape that holds it: two, four or eight digits. -/
def numericEscape (n : Nat) : List Char :=
  if n < 0x100 then '\\' :: 'x' :: hexPadded 2 n
  else if n < 0x10000 then '\\' :: 'u' :: hexPadded 4 n
  else '\\' :: 'U' :: hexPadded 8 n

/-- Single quotes delimit, unless the text holds a single quote and no double quote. -/
def quoteDelimiter (cs : List Char) : Char :=
  if cs.contains '\x27' && !cs.contains '\x22' then '\x22' else '\x27'

/-- One character of a quoted text, `shown` saying which characters stand for themselves. -/
def quotedChar (shown : Char → Bool) (delimiter c : Char) : List Char :=
  if c = delimiter ∨ c = '\\' then ['\\', c]
  else if c = '\n' then ['\\', 'n']
  else if c = '\r' then ['\\', 'r']
  else if c = '\t' then ['\\', 't']
  else if shown c then [c]
  else numericEscape c.toNat

/-- A text between the delimiters that fit it. -/
def quotedBy (shown : Char → Bool) (cs : List Char) : List Char :=
  let delimiter := quoteDelimiter cs
  delimiter :: cs.flatMap (quotedChar shown delimiter) ++ [delimiter]

/-- A text between quotes. -/
def quoted (s : String) : List Char := quotedBy isPrintable s.toList

/-- A byte string between quotes: a byte stands for itself exactly if it is printable ASCII. -/
def quotedBytes (bytes : List UInt8) : List Char :=
  'b' :: quotedBy (fun c => 0x20 ≤ c.toNat && c.toNat < 0x7f)
    (bytes.map fun b => Char.ofNat b.toNat)

example : quoted "it is" = "'it is'".toList := by decide
example : quotedBytes [0x41, 0xff, 0x0a] = "b'A\\xff\\n'".toList := by decide

end IdeMode.Text
