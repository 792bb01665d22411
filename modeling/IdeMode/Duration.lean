import IdeMode.Text.Decimal
set_option autoImplicit false

/-!
# Durations

Time limits are given in seconds, as whole numbers or with a fraction. The clock counts billionths.
-/

namespace IdeMode

/-- A number of seconds. -/
inductive Duration where
  | whole (seconds : Int)
  | fraction (seconds : Decimal)
  deriving DecidableEq, Repr

namespace Duration

/-- A second in billionths. -/
def second : Int := 1000000000

/-- The duration as it is shown. -/
def text : Duration → String
  | .whole n => toString n
  | .fraction d => d.text

/-- The duration in billionths of a second. -/
def nanos : Duration → Int
  | .whole n => n * second
  | .fraction d => d.nanos

/-- The first duration unless it is zero or missing, and then the second. -/
def orElse (limit fallback : Option Duration) : Option Duration :=
  match limit with
  | none => fallback
  | some t => if t.nanos = 0 then fallback else some t

/-- A duration moved into bounds. -/
def clamp (low high t : Duration) : Duration :=
  let t := if high.nanos < t.nanos then high else t
  if low.nanos < t.nanos then t else low

end Duration

end IdeMode
