set_option autoImplicit false

/-!
# Decimal numbers

Numbers with a fraction part, as they are written and shown, and quotients shown with one decimal.
-/

namespace IdeMode

/-- A number with a fraction part: `digits` units of the last of `places` decimal places. -/
structure Decimal where
  negative : Bool
  digits : Nat
  places : Nat
  deriving DecidableEq, Repr

namespace Decimal

/-- The significant digits around the decimal point, which stands after the first `point` of them. A
fraction part is always written. -/
def positional (digits : List Char) (point : Int) : List Char :=
  if point ≤ 0 then '0' :: '.' :: List.replicate (-point).toNat '0' ++ digits
  else
    let whole := digits.take point.toNat ++ List.replicate (point.toNat - digits.length) '0'
    let fraction := digits.drop point.toNat
    whole ++ '.' :: (if fraction.isEmpty then ['0'] else fraction)

/-- The first digit, the others after a point, and the exponent with its sign and at least two
digits. -/
def scientific (digits : List Char) (exponent : Int) : List Char :=
  let rest := digits.drop 1
  let power := Nat.toDigits 10 exponent.natAbs
  digits.take 1 ++ (if rest.isEmpty then [] else '.' :: rest) ++
    'e' :: (if exponent < 0 then '-' else '+') :: List.replicate (2 - power.length) '0' ++ power

/-- A number in its significant digits: positional from one ten-thousandth up to sixteen digits
before the point, and with an exponent beyond. -/
def text (d : Decimal) : String :=
  let written := Nat.toDigits 10 d.digits
  let digits := (written.reverse.dropWhile (· == '0')).reverse
  let point : Int := written.length - d.places
  let body :=
    if digits.isEmpty then ['0', '.', '0']
    else if -4 < point ∧ point ≤ 16 then positional digits point
    else scientific digits (point - 1)
  String.ofList (if d.negative then '-' :: body else body)

/-- The number in billionths, rounded towards zero. -/
def nanos (d : Decimal) : Int :=
  let size : Nat := d.digits * 1000000000 / Nat.pow 10 d.places
  if d.negative then -size else size

end Decimal

/-! ## Quotients -/

/-- The integer nearest to a quotient; halfway, the even one. -/
def roundedQuotient (num den : Nat) : Nat :=
  let q := num / den
  let r := num % den
  if 2 * r < den ∨ (2 * r = den ∧ q % 2 = 0) then q else q + 1

/-- The quotient of two numbers with one decimal. It is first rounded to 53 significant bits, so
that a quotient that decimal notation puts halfway goes to the side on which its binary form
lies. -/
def oneDecimal (num den : Nat) : String :=
  let shift := 52 - Nat.log2 (num / den)
  let mantissa := roundedQuotient (num * Nat.pow 2 shift) den
  let tenths := roundedQuotient (mantissa * 10) (Nat.pow 2 shift)
  toString (tenths / 10) ++ "." ++ toString (tenths % 10)

end IdeMode
