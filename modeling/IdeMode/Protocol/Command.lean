import IdeMode.Sexp.Printer
set_option autoImplicit false

/-!
# Commands

An outgoing request is a keyword with arguments and the number by which its reply is recognised.
-/

namespace IdeMode

/-- A request before it has a number: its keyword, without the colon, and its arguments in order. -/
structure Command where
  tag : String
  args : List Value := []
  deriving Repr, Inhabited

namespace Command

/-- The command alone, as a value. -/
def value (c : Command) : Value := .list (Value.keyword c.tag :: c.args)

/-- The command with its request number, as it goes over the wire. -/
def request (c : Command) (id : Nat) : Value := .list [c.value, .int id]

end Command

end IdeMode
