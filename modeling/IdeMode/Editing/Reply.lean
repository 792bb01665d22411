import IdeMode.Fault
import IdeMode.Protocol.Response
import IdeMode.Text.Blank
set_option autoImplicit false

/-!
# Answers to editing requests

What the compiler answers when it is asked for names or for the next step of a refinement, and the
hints that the user passes along.
-/

namespace IdeMode.Editing

/-- What a refinement offers next. -/
inductive Offer where
  /-- names to choose from -/
  | choices (candidates : List String)
  /-- the finished expression -/
  | final (expression : String)
  deriving DecidableEq, Repr

/-- The offer that a value makes. -/
def Offer.ofValue (v : Value) : Result Offer :=
  match v with
  | .list [.sym ":more-choices", .list candidates] => .ok (.choices (candidates.map Value.text))
  | .list [.sym ":final", expression] => .ok (.final expression.text)
  | v => .error (.callFailed ("Unexpected refinement reply: " ++ v.quoted))

/-- The names in an answer: the items of a list, or the words of a text. -/
def offeredNames : Value → List String
  | .list items => items.map Value.text
  | .str s => Text.words s
  | .sym s => Text.words s
  | _ => []

/-- The names in hint texts: they are separated by white space, commas and semicolons. -/
def hintNames (hints : List String) : List String :=
  hints.flatMap fun h =>
    (Text.wordsBy (fun c => Text.isBlank c || c == ',' || c == ';') h.toList).map String.ofList

/-- A text without one newline at its end. -/
def withoutTerminator (s : String) : String :=
  if s.toList.getLast? = some '\n' then String.ofList s.toList.dropLast else s

end IdeMode.Editing
