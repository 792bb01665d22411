import IdeMode.Fault
set_option autoImplicit false

/-!
# Line tables

The offsets at which the lines of a text start. Lines and columns count from one, offsets from zero,
all in characters; only a newline ends a line.
-/

namespace IdeMode.LineTable

/-- The starts of the lines after the first, in a text that begins at offset `origin`. -/
def startsFrom (origin : Nat) : List Char → List Nat
  | [] => []
  | c :: cs =>
    if c = '\n' then (origin + 1) :: startsFrom (origin + 1) cs else startsFrom (origin + 1) cs

/-- The starts of the lines of a text. -/
def starts (cs : List Char) : List Nat := 0 :: startsFrom 0 cs

/-- An entry of a table by its index; a negative index counts back from the end. -/
def entryAt? (table : List Nat) (i : Int) : Option Nat :=
  if 0 ≤ i then table[i.toNat]?
  else if 0 ≤ i + table.length then table[(i + table.length).toNat]?
  else none

/-- The line and column of an offset. An offset before the text counts as line zero, and its column
is counted from the last line. -/
def position (table : List Nat) (offset : Int) : Int × Int :=
  let line : Nat := (table.takeWhile fun start => Int.ofNat start ≤ offset).length
  let start : Nat := (entryAt? table (Int.ofNat line - 1)).getD 0
  (line, offset - start + 1)

/-- Where the content of a line starts and ends, in a text of `length` characters, without its
newline. -/
def bounds? (table : List Nat) (length : Nat) (line : Int) : Option (Int × Int) :=
  match entryAt? table (line - 1) with
  | none => none
  | some start =>
    if line < table.length then (entryAt? table line).map
      fun next => (Int.ofNat start, Int.ofNat next - 1)
    else some (start, length)

/-! ## Laws -/

theorem startsFrom_pos (origin : Nat) (cs : List Char) :
    ∀ s ∈ startsFrom origin cs, origin < s := by
  induction cs generalizing origin with
  | nil => simp [startsFrom]
  | cons c cs ih =>
    intro s hs
    have step : s ∈ startsFrom (origin + 1) cs → origin < s := fun h => Nat.lt_of_succ_lt (ih _ s h)
    unfold startsFrom at hs
    split at hs
    · rcases List.mem_cons.1 hs with rfl | h
      · exact Nat.lt_succ_self _
      · exact step h
    · exact step hs

/-- Lines start one after the other. -/
theorem pairwise_starts (cs : List Char) : (starts cs).Pairwise (· < ·) := by
  have tail : ∀ (origin : Nat) (cs : List Char), (startsFrom origin cs).Pairwise (· < ·) := by
    intro origin cs
    induction cs generalizing origin with
    | nil => exact List.Pairwise.nil
    | cons c cs ih =>
      unfold startsFrom
      split
      · exact List.pairwise_cons.2 ⟨startsFrom_pos _ cs, ih _⟩
      · exact ih _
  exact List.pairwise_cons.2 ⟨startsFrom_pos 0 cs, tail 0 cs⟩

end IdeMode.LineTable
