import IdeMode.Fault
import IdeMode.Text.Digit
set_option autoImplicit false

/-!
# Snippet templates

Compiler output often holds places that the user is to fill in: a hole `?x`, or the wildcard `(_)`.
A template turns each of them into a numbered field with a default text. In a template a field is
written as a dollar sign, and in braces its number, a colon and its default; a backslash takes away
the meaning of the character after it.
-/

namespace IdeMode.Snippet

/-! ## Places to fill in -/

/-- A piece of compiler output. -/
inductive Piece where
  /-- a character that stands for itself -/
  | plain (c : Char)
  /-- a hole with its name -/
  | hole (name : List Char)
  /-- the wildcard between parentheses -/
  | wildcard
  deriving DecidableEq, Repr

/-- A character that can begin the name of a hole. -/
def isHoleStart (c : Char) : Bool := c.isAlpha || c == '_'

/-- A character that can continue the name of a hole. -/
def isHoleChar (c : Char) : Bool := c.isAlphanum || c == '_' || c == '\x27'

/-- The pieces of a text, left to right; `bound` is at least its length. -/
def piecesWithin (bound : Nat) (cs : List Char) : List Piece :=
  match bound with
  | 0 => []
  | bound + 1 =>
    match cs with
    | [] => []
    | '?' :: c :: rest =>
      if isHoleStart c then
        .hole (c :: rest.takeWhile isHoleChar) :: piecesWithin bound (rest.dropWhile isHoleChar)
      else .plain '?' :: piecesWithin bound (c :: rest)
    | '(' :: '_' :: ')' :: rest => .wildcard :: piecesWithin bound rest
    | c :: rest => .plain c :: piecesWithin bound rest

/-- The pieces of a text, left to right. -/
def pieces (cs : List Char) : List Piece := piecesWithin cs.length cs

/-- The default text of a piece that becomes a field. -/
def Piece.default? : Piece → Option (List Char)
  | .plain _ => none
  | .hole name => some name
  | .wildcard => some ['_']

/-! ## Writing templates -/

/-- A field as a template writes it. -/
def fieldMark (number : Nat) (default : List Char) : List Char :=
  '$' :: '\x7b' :: Nat.toDigits 10 number ++ ':' :: default ++ ['\x7d']

/-- A piece as a template writes it, if its field has the given number. -/
def Piece.template (number : Nat) : Piece → List Char
  | .plain c => if c = '\\' ∨ c = '$' then ['\\', c] else [c]
  | .hole name => fieldMark number name
  | .wildcard => '(' :: fieldMark number ['_'] ++ [')']

/-- The template of pieces whose first field has the given number. -/
def templateFrom (number : Nat) : List Piece → List Char
  | [] => []
  | p :: rest =>
    p.template number ++ templateFrom (if p.default?.isSome then number + 1 else number) rest

/-- The template of a text: its places to fill in become fields, numbered from one. -/
def template (cs : List Char) : List Char := templateFrom 1 (pieces cs)

/-- The default texts of the fields of a text, in the order of their numbers. -/
def defaults (cs : List Char) : List (List Char) := (pieces cs).filterMap Piece.default?

/-! ## Reading templates -/

/-- A part of a template. -/
inductive Token where
  /-- a character of the text, which may have been escaped -/
  | char (c : Char)
  | field (number : Nat) (default : List Char)
  deriving DecidableEq, Repr

/-- A default without the backslashes that escape; one before a newline stays. -/
def unescapeDefault : List Char → List Char
  | '\\' :: c :: rest =>
    if c = '\n' then '\\' :: '\n' :: unescapeDefault rest else c :: unescapeDefault rest
  | c :: rest => c :: unescapeDefault rest
  | [] => []

/-- The default of a field up to its closing brace, escapes kept, and what follows the brace. -/
def fieldBody? : List Char → Option (List Char × List Char)
  | [] => none
  | '\x7d' :: rest => some ([], rest)
  | ['\\'] => none
  | '\\' :: c :: rest => (fieldBody? rest).map fun r => ('\\' :: c :: r.1, r.2)
  | c :: rest => (fieldBody? rest).map fun r => (c :: r.1, r.2)

/-- A field after its opening brace: the digits of its number, its default and what follows it. -/
def fieldAt? (cs : List Char) : Option (List Char × List Char × List Char) :=
  let digits := cs.takeWhile Text.isDigit
  match digits, cs.dropWhile Text.isDigit with
  | [], _ => none
  | _, ':' :: rest => (fieldBody? rest).map fun r => (digits, r.1, r.2)
  | _, _ => none

/-- The tokens of a template, left to right; `bound` is at least its length. A number with too many
digits is refused. -/
def tokensWithin (bound : Nat) (cs : List Char) : Result (List Token) :=
  match bound with
  | 0 => .ok []
  | bound + 1 =>
    match cs with
    | [] => .ok []
    | '\\' :: c :: rest => (tokensWithin bound rest).map (.char c :: ·)
    | '$' :: '\x7b' :: rest =>
      match fieldAt? rest with
      | some (digits, body, rest) =>
        if Text.digitLimit < digits.length then .error .badValue
        else (tokensWithin bound rest).map
          (.field (Text.digitsValue digits) (unescapeDefault body) :: ·)
      | none => (tokensWithin bound ('\x7b' :: rest)).map (.char '$' :: ·)
    | c :: rest => (tokensWithin bound rest).map (.char c :: ·)

/-- The tokens of a template, left to right. -/
def tokens (cs : List Char) : Result (List Token) := tokensWithin cs.length cs

end IdeMode.Snippet
