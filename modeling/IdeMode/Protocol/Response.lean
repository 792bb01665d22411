import IdeMode.Sexp.Value
import IdeMode.Table
set_option autoImplicit false

/-!
# Responses

The result of a successful request: a value, and highlighted spans of its text.
-/

namespace IdeMode

/-- A highlighted span of a text, with named properties in the order in which their names first
came. -/
structure Span where
  start : Value
  length : Value
  properties : Table String Value := []
  deriving Repr

namespace Span

/-- The properties that a value lists, as pairs of a name and a value; anything else in it is
skipped. -/
def propertiesOf : Value → Table String Value
  | .list items =>
    items.foldl
      (fun (props : Table String Value) item =>
        match item with
        | .list (name :: v :: _) => props.set name.text v
        | _ => props)
      []
  | _ => []

/-- The span that a value describes, if it gives at least where the span starts and how long it
is. -/
def ofValue? : Value → Option Span
  | .list (start :: length :: rest) =>
    some ⟨start, length, (rest.head?.map propertiesOf).getD []⟩
  | _ => none

/-- The spans that a value lists. -/
def listOf : Value → List Span
  | .list items => items.filterMap ofValue?
  | _ => []

end Span

/-- The result of a successful request. -/
structure Response where
  value : Value
  spans : List Span := []
  deriving Repr

namespace Response

/-- The response in the payload of a successful reply. -/
def ofPayload : List Value → Response
  | [] => ⟨.none, []⟩
  | [v] => ⟨v, []⟩
  | v :: highlighting :: _ => ⟨v, Span.listOf highlighting⟩

/-- The response as text; the items of a list are joined by spaces. -/
def text (r : Response) : String :=
  match r.value with
  | .list items => " ".intercalate (items.map Value.text)
  | .none => ""
  | v => v.text

end Response

end IdeMode
