import IdeMode.Text.Numeral
import IdeMode.Text.Quoted
import IdeMode.Text.Utf8
set_option autoImplicit false

/-!
# Frames

A frame is a header of six hexadecimal digits, a payload and a newline. The header counts the
characters of the payload and the newline, not their bytes.

Headers are read more freely than they are written: six ASCII characters that form an integer
literal of base sixteen.
-/

namespace IdeMode.Wire

/-- The number of bytes of a header. -/
def headerSize : Nat := 6

/-- The characters of a frame. -/
def frame (payload : String) : List Char :=
  Text.hexPadded headerSize (payload.length + 1) ++ payload.toList ++ ['\n']

/-- The bytes of a frame. -/
def frameBytes (payload : String) : List UInt8 := Text.Utf8.encode (frame payload)

/-- Why bytes are no header. -/
inductive HeaderFault where
  /-- not six bytes -/
  | short (header : List UInt8)
  /-- six bytes that write no number -/
  | malformed (header : List UInt8)
  deriving DecidableEq, Repr

/-- The wording of a fault. -/
def HeaderFault.message : HeaderFault → String
  | .short header => "Short header: " ++ String.ofList (Text.quotedBytes header)
  | .malformed header => "Bad length header " ++ String.ofList (Text.quotedBytes header)

/-- The number of characters that a header announces. -/
def parseHeader (header : List UInt8) : Except HeaderFault Int :=
  if header.length ≠ headerSize then .error (.short header)
  else if header.all fun b => b.toNat < 0x80 then
    match Text.integerLiteral? 16 (header.map fun b => Char.ofNat b.toNat) with
    | some n => .ok n
    | none => .error (.malformed header)
  else .error (.malformed header)

end IdeMode.Wire
