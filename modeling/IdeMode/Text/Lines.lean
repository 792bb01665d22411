set_option autoImplicit false

/-!
# Line breaks

Files are read with every line terminator turned into a newline. A message is shown line by line,
and there more characters count as line breaks.
-/

namespace IdeMode.Text

/-- The text with carriage returns, alone or before a newline, turned into newlines. -/
def normalizeNewlines : List Char → List Char
  | [] => []
  | '\r' :: '\n' :: cs => '\n' :: normalizeNewlines cs
  | c :: cs => (if c = '\r' then '\n' else c) :: normalizeNewlines cs

/-- A character that ends a line of a message. -/
def isLineBreak (c : Char) : Bool :=
  (0x0a ≤ c.toNat && c.toNat ≤ 0x0d) || (0x1c ≤ c.toNat && c.toNat ≤ 0x1e) ||
    c.toNat == 0x85 || c.toNat == 0x2028 || c.toNat == 0x2029

/-- The lines of a message; `line` holds the line being read, last character first. A break at the
very end opens no further line. -/
def messageLinesFrom (line : List Char) : List Char → List (List Char)
  | [] => if line.isEmpty then [] else [line.reverse]
  | '\r' :: '\n' :: cs => line.reverse :: messageLinesFrom [] cs
  | c :: cs =>
    if isLineBreak c then line.reverse :: messageLinesFrom [] cs
      else messageLinesFrom (c :: line) cs

/-- The lines of a message. -/
def messageLines (s : String) : List String := (messageLinesFrom [] s.toList).map String.ofList

/-- A text without carriage returns is left as it is. -/
theorem normalizeNewlines_of_not_mem {cs : List Char} (h : '\r' ∉ cs) :
    normalizeNewlines cs = cs := by
  induction cs with
  | nil => rfl
  | cons c cs ih =>
    have hc : c ≠ '\r' := fun e => h (e ▸ List.mem_cons_self)
    have hcs := ih fun e => h (List.mem_cons_of_mem _ e)
    unfold normalizeNewlines
    split
    · simp_all
    · simp_all
    · simp_all

theorem not_mem_normalizeNewlines (cs : List Char) : '\r' ∉ normalizeNewlines cs := by
  fun_induction normalizeNewlines cs with
  | case1 => exact List.not_mem_nil
  | case2 cs ih => exact List.not_mem_cons_of_ne_of_not_mem (by decide) ih
  | case3 c cs _ ih =>
    refine List.not_mem_cons_of_ne_of_not_mem ?_ ih
    split
    · decide
    · next hc => exact Ne.symm hc

end IdeMode.Text
