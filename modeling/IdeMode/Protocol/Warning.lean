import IdeMode.Protocol.Message
set_option autoImplicit false

/-!
# Warnings

A diagnostic of the compiler: a file, two positions and a text. Positions are kept as they came.
-/

namespace IdeMode

/-- A diagnostic. -/
structure Warning where
  file : String
  start : Value × Value
  finish : Value × Value
  message : Value
  deriving Repr

namespace Warning

/-- The first two parts of a list, or the first two characters of a text. -/
def pairOf? : Value → Option (Value × Value)
  | .list (a :: b :: _) => some (a, b)
  | .str s => charsOf? s
  | .sym s => charsOf? s
  | _ => none
where
  /-- The first two characters of a text. -/
  charsOf? (s : String) : Option (Value × Value) :=
    match s.toList with
    | a :: b :: _ => some (.str (String.singleton a), .str (String.singleton b))
    | _ => none

/-- The warning in the content of a notice. -/
def ofValue (v : Value) : Except Malformed Warning :=
  match v with
  | .list (file :: start :: finish :: message :: _) =>
    match pairOf? start, pairOf? finish with
    | some start, some finish => .ok ⟨file.text, start, finish, message⟩
    | _, _ => .error (.badWarning v)
  | _ => .error (.badWarning v)

end Warning

end IdeMode
