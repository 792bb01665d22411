import IdeMode.Sexp.Value
import IdeMode.Text.Blank
import IdeMode.Text.Digit
set_option autoImplicit false

/-!
# Reading values

One value with white space around it. The reader descends into lists; `bound` counts how many steps
it may still take, and the length of the text bounds them, because every step but the one from a
list to its next item uses up a character. `room` counts how many more lists it may enter before the
stack is full.
-/

namespace IdeMode.Sexp

/-- Why a text is not one value. -/
inductive Fault where
  /-- no value where one was expected -/
  | endOfInput
  /-- a list that is not closed -/
  | unbalanced
  /-- a closing parenthesis where a value was expected -/
  | strayParenthesis (offset : Nat)
  /-- a string literal that is not closed -/
  | unterminated
  /-- more text after the value; the excerpt is the start of it -/
  | trailing (offset : Nat) (excerpt : String)
  /-- an integer with more digits than are read -/
  | hugeInteger
  /-- lists nested deeper than the stack allows -/
  | tooDeep
  deriving DecidableEq, Repr

/-- The wording of a fault. -/
def Fault.message : Fault → String
  | .endOfInput => "Unexpected end of input"
  | .unbalanced => "Unbalanced parenthesis"
  | .strayParenthesis offset => "Unexpected ')' at offset " ++ toString offset
  | .unterminated => "Unterminated string literal"
  | .trailing offset excerpt =>
    "Trailing data at offset " ++ toString offset ++ ": " ++ String.ofList (Text.quoted excerpt)
  | .hugeInteger => "Integer too long"
  | .tooDeep => "Nested too deeply"

/-- A character of an atom. -/
def isAtomChar (c : Char) : Bool := !(Text.isBlank c || c == '(' || c == ')' || c == '\x22')

/-- The digits of an atom that is an integer: a minus may stand before them, and there is at least
one. -/
def integerDigits? (atom : List Char) : Option (Int × List Char) :=
  let (sign, digits) : Int × List Char :=
    match atom with
    | '-' :: rest => (-1, rest)
    | _ => (1, atom)
  if !digits.isEmpty && digits.all Text.isDigit then some (sign, digits) else none

/-- The value of an atom: an integer if it has the form of one. -/
def atomValue (atom : List Char) : Except Fault Value :=
  match integerDigits? atom with
  | none => .ok (.sym (String.ofList atom))
  | some (sign, digits) =>
    if Text.digitLimit < digits.length then .error .hugeInteger
    else .ok (.int (sign * Int.ofNat (Text.digitsValue digits)))

/-- The character that an escape in a string literal stands for. -/
def unescape (c : Char) : Char := if c = 'n' then '\n' else c

/-- The rest of a string literal after its opening quote, and what follows its closing quote. -/
def readLiteral : List Char → Except Fault (List Char × List Char)
  | [] => .error .unterminated
  | '\x22' :: rest => .ok ([], rest)
  | ['\\'] => .error .unterminated
  | '\\' :: c :: rest =>
    match readLiteral rest with
    | .ok (cs, rest) => .ok (unescape c :: cs, rest)
    | .error e => .error e
  | c :: rest =>
    match readLiteral rest with
    | .ok (cs, rest) => .ok (c :: cs, rest)
    | .error e => .error e

mutual

/-- The value at the start of a text, which ends a text of `total` characters, and what follows
it. -/
def readValue (total room bound : Nat) (cs : List Char) : Except Fault (Value × List Char) :=
  match bound with
  | 0 => .error .endOfInput
  | bound + 1 =>
    match cs with
    | [] => .error .endOfInput
    | '(' :: rest =>
      match room with
      | 0 => .error .tooDeep
      | room + 1 =>
        match readItems total room bound (Text.skipBlanks rest) with
        | .ok (items, rest) => .ok (.list items, rest)
        | .error e => .error e
    | ')' :: _ => .error (.strayParenthesis (total - cs.length))
    | '\x22' :: rest =>
      match readLiteral rest with
      | .ok (s, rest) => .ok (.str (String.ofList s), rest)
      | .error e => .error e
    | _ =>
      match atomValue (cs.takeWhile isAtomChar) with
      | .ok v => .ok (v, cs.dropWhile isAtomChar)
      | .error e => .error e

/-- The items up to the closing parenthesis of a list, and what follows it. -/
def readItems (total room bound : Nat) (cs : List Char) : Except Fault (List Value × List Char) :=
  match bound with
  | 0 => .error .unbalanced
  | bound + 1 =>
    match cs with
    | [] => .error .unbalanced
    | ')' :: rest => .ok ([], rest)
    | _ =>
      match readValue total room bound cs with
      | .error e => .error e
      | .ok (v, rest) =>
        match readItems total room bound (Text.skipBlanks rest) with
        | .ok (vs, rest) => .ok (v :: vs, rest)
        | .error e => .error e

end

/-- Nothing but white space may follow a value. -/
def ensureEnd (total : Nat) (v : Value) (rest : List Char) : Except Fault Value :=
  match Text.skipBlanks rest with
  | [] => .ok v
  | extra => .error (.trailing (total - extra.length) (String.ofList (extra.take 20)))

/-- The one value that a text writes, if its lists nest no deeper than there is room for. -/
def decodeWithin (room : Nat) (cs : List Char) : Except Fault Value :=
  match readValue cs.length room (2 * cs.length + 1) (Text.skipBlanks cs) with
  | .ok (v, rest) => ensureEnd cs.length v rest
  | .error e => .error e

/-- How deep lists may nest. The stack has a thousand frames; a list takes one of them, and those
who have the text read take the others. -/
def readRoom : Nat := 900

/-- The one value that a text writes. -/
def decode (cs : List Char) : Except Fault Value := decodeWithin readRoom cs

end IdeMode.Sexp
