import IdeMode.Text.Blank
import IdeMode.Text.Digit
import IdeMode.Text.Hex
set_option autoImplicit false

/-!
# Integer literals

Integers as people type them: white space around them, a sign, digits of any script, and single
underscores between digits. In base sixteen a `0x` may stand before the digits.
-/

namespace IdeMode.Text

/-- White space around a literal; the four information separators of ASCII do not count. -/
def isLiteralBlank (c : Char) : Bool := isBlank c && !(0x1c ≤ c.toNat && c.toNat ≤ 0x1f)

/-- The value of a digit of a literal. -/
def literalDigit? (base : Nat) (c : Char) : Option Nat :=
  match digitValue? c with
  | some d => if d < base then some d else none
  | none =>
    match hexValue? c with
    | some d => if d < base then some d else none
    | none => none

/-- The digits of a literal with the underscores between them left out: an underscore stands only
between two digits. -/
def literalDigits? (base : Nat) : List Char → Option (List Nat)
  | [] => none
  | [c] => (literalDigit? base c).map fun d => [d]
  | c :: '_' :: rest =>
    match literalDigit? base c, literalDigits? base rest with
    | some d, some ds => some (d :: ds)
    | _, _ => none
  | c :: rest =>
    match literalDigit? base c, literalDigits? base rest with
    | some d, some ds => some (d :: ds)
    | _, _ => none

/-- The digits without a `0x` before them, after which one underscore may stand. -/
def dropBaseMark (base : Nat) : List Char → List Char
  | '0' :: x :: rest =>
    if base = 16 ∧ (x = 'x' ∨ x = 'X') then
      match rest with
      | '_' :: rest => rest
      | rest => rest
    else '0' :: x :: rest
  | cs => cs

/-- The sign of a literal and what follows it. -/
def literalSign : List Char → Int × List Char
  | '-' :: rest => (-1, rest)
  | '+' :: rest => (1, rest)
  | cs => (1, cs)

/-- The integer that a literal denotes; none if it is no literal, or has more digits than are
read. -/
def integerLiteral? (base : Nat) (cs : List Char) : Option Int :=
  let (sign, body) := literalSign (trimBy isLiteralBlank cs)
  match literalDigits? base (dropBaseMark base body) with
  | none => none
  | some ds =>
    if base ≠ 16 ∧ digitLimit < ds.length then none
    else some (sign * Int.ofNat (ds.foldl (fun n d => base * n + d) 0))

example : integerLiteral? 16 " 0x_1F\n".toList = some 31 := by decide
example : integerLiteral? 16 "-00001".toList = some (-1) := by decide
example : integerLiteral? 10 "1__0".toList = none := by decide

end IdeMode.Text
