import IdeMode.Text.Decimal
import IdeMode.Text.Quoted
set_option autoImplicit false

/-!
# Values

The values that go over the wire: strings, keyword atoms, integers and lists. Requests are built
from values of a wider kind, which also has truth values, fractions and an empty value; of these
only truth values have a written form.

A value is shown in two ways. `Value.quote` shows it unambiguously, strings between quotes and atoms
marked as such. `Value.text` shows a string or an atom as its bare text and everything else as it is
quoted.
-/

namespace IdeMode

/-- A value of the protocol. -/
inductive Value where
  /-- a string literal -/
  | str (s : String)
  /-- an atom such as `:ok`, with its colon if it has one -/
  | sym (name : String)
  | int (n : Int)
  | list (items : List Value)
  | bool (b : Bool)
  /-- a number with a fraction part, which has no written form -/
  | real (d : Decimal)
  /-- no value at all, which has no written form -/
  | none
  deriving Repr, Inhabited

namespace Value

/-! ## Showing values -/

mutual

/-- The value, unambiguously. -/
def quote : Value → List Char
  | .str s => Text.quoted s
  | .sym s => "Symbol(".toList ++ Text.quoted s ++ [')']
  | .int n => (toString n).toList
  | .list items => '[' :: quoteItems items ++ [']']
  | .bool true => "True".toList
  | .bool false => "False".toList
  | .real d => d.text.toList
  | .none => "None".toList

/-- The items of a list, separated by commas. -/
def quoteItems : List Value → List Char
  | [] => []
  | [v] => quote v
  | v :: w :: rest => quote v ++ ',' :: ' ' :: quoteItems (w :: rest)

end

/-- The value, unambiguously, as a string. -/
def quoted (v : Value) : String := String.ofList v.quote

/-- The bare text of a string or an atom, and any other value as it is quoted. -/
def text : Value → String
  | .str s => s
  | .sym s => s
  | v => v.quoted

/-- The text of a string or an atom. -/
def bare? : Value → Option String
  | .str s => some s
  | .sym s => some s
  | _ => Option.none

/-- A keyword atom, the colon added if the name lacks it. -/
def keyword (name : String) : Value :=
  .sym (if name.toList.head? = some ':' then name else ":" ++ name)

end Value

end IdeMode
