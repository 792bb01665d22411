import IdeMode.Sexp.Value
set_option autoImplicit false

/-!
# Written values

The s-expression text of a value. A value without a written form anywhere inside makes the whole
value unwritable, and so do lists that nest too deeply; `Value.obstacle?` finds what comes first.
-/

namespace IdeMode.Value

/-- The text of a string literal between its quotes: quotes and backslashes are escaped. -/
def escape : List Char → List Char
  | [] => []
  | c :: cs => if c = '\\' ∨ c = '\x22' then '\\' :: c :: escape cs else c :: escape cs

/-- Why a value cannot be written. -/
inductive Obstacle where
  /-- a part without a written form -/
  | unwritable (v : Value)
  /-- lists nested deeper than the stack allows -/
  | tooDeep
  deriving Repr

mutual

/-- What keeps a value from being written, the first such thing from left to right. -/
def obstacle? (room : Nat) : Value → Option Obstacle
  | .list items =>
    match room with
    | 0 => some .tooDeep
    | room + 1 => obstacleAmong? room items
  | .real d => some (.unwritable (.real d))
  | .none => some (.unwritable .none)
  | _ => Option.none

/-- What keeps items from being written. -/
def obstacleAmong? (room : Nat) : List Value → Option Obstacle
  | [] => Option.none
  | v :: rest =>
    match obstacle? room v with
    | some obstacle => some obstacle
    | Option.none => obstacleAmong? room rest

end

mutual

/-- The s-expression of a value; parts without a written form are left empty. -/
def print : Value → List Char
  | .str s => '\x22' :: escape s.toList ++ ['\x22']
  | .sym s => s.toList
  | .int n => (toString n).toList
  | .list items => '(' :: printItems items ++ [')']
  | .bool true => ":True".toList
  | .bool false => ":False".toList
  | .real _ => []
  | .none => []

/-- The s-expressions of the items, separated by spaces. -/
def printItems : List Value → List Char
  | [] => []
  | [v] => print v
  | v :: w :: rest => print v ++ ' ' :: printItems (w :: rest)

end

/-- The s-expression of a value whose lists nest no deeper than there is room for. -/
def encodeWithin (room : Nat) (v : Value) : Except Obstacle String :=
  match v.obstacle? room with
  | some obstacle => .error obstacle
  | Option.none => .ok (String.ofList v.print)

/-- How deep lists may nest. Of the thousand frames of the stack a list takes three. -/
def writeRoom : Nat := 300

/-- The s-expression of a value. -/
def encode (v : Value) : Except Obstacle String := v.encodeWithin writeRoom

/-- The word for the kind of a value. -/
def kindName : Value → String
  | .str _ => "str"
  | .sym _ => "Symbol"
  | .int _ => "int"
  | .list _ => "list"
  | .bool _ => "bool"
  | .real _ => "float"
  | .none => "NoneType"

end IdeMode.Value
