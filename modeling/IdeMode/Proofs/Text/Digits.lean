import Mathlib.Algebra.Group.Nat.Defs
import Mathlib.Data.List.Induction
import IdeMode.Text.Digit
set_option autoImplicit false

/-!
# Numbers in decimal digits

Writing a number in decimal digits and reading the digits back are inverse, and a run of digits
writes a number that its length bounds. The digits that are read come from every script; those that
are written are ASCII.
-/

namespace IdeMode.Text

open List

/-! ## Single digits -/

theorem digitValue?_digitChar : ∀ d, d < 10 → digitValue? (Nat.digitChar d) = some d := by decide

/-- The value of a digit is less than ten: a digit stands in the run of ten after its zero. -/
theorem digitValue?_lt {c : Char} {d : Nat} (h : digitValue? c = some d) : d < 10 := by
  obtain ⟨base, hfind, rfl⟩ := Option.map_eq_some_iff.mp h
  have hrun := List.find?_some hfind
  simp only [Bool.and_eq_true, decide_eq_true_eq] at hrun
  omega

theorem digitValue?_getD_lt (c : Char) : (digitValue? c).getD 0 < 10 := by
  cases h : digitValue? c with
  | none => simp
  | some d => simpa using digitValue?_lt h

/-! ## Runs of digits -/

theorem digitsValue_append_singleton (cs : List Char) (c : Char) :
    digitsValue (cs ++ [c]) = 10 * digitsValue cs + (digitValue? c).getD 0 := by
  simp [digitsValue]

/-- Reading back the decimal digits of a number gives the number. -/
theorem digitsValue_toDigits (n : Nat) : digitsValue (Nat.toDigits 10 n) = n := by
  induction n using Nat.strongRecOn with
  | ind n ih =>
    rw [Nat.toDigits_eq_if (by decide)]
    split
    · rename_i hn
      simp [digitsValue, digitValue?_digitChar n hn]
    · rename_i hn
      rw [digitsValue_append_singleton, ih (n / 10) (by omega),
        digitValue?_digitChar (n % 10) (Nat.mod_lt n (by decide)), Option.getD_some]
      exact Nat.div_add_mod n 10

/-- A run of digits writes a number below the power of ten that its length gives. -/
theorem digitsValue_lt (cs : List Char) : digitsValue cs < 10 ^ cs.length := by
  induction cs using List.reverseRecOn with
  | nil => simp [digitsValue]
  | append_singleton cs c ih =>
    have hc := digitValue?_getD_lt c
    rw [digitsValue_append_singleton, length_append, length_singleton, Nat.pow_succ]
    omega

theorem isDigit_of_mem_toDigits {n : Nat} {c : Char} (h : c ∈ Nat.toDigits 10 n) :
    isDigit c = true := by
  induction n using Nat.strongRecOn with
  | ind n ih =>
    rw [Nat.toDigits_eq_if (by decide)] at h
    split at h
    · rename_i hn
      rw [mem_singleton] at h
      simp [h, isDigit, digitValue?_digitChar n hn]
    · rename_i hn
      rw [mem_append, mem_singleton] at h
      rcases h with h | h
      · exact ih (n / 10) (by omega) h
      · simp [h, isDigit, digitValue?_digitChar (n % 10) (Nat.mod_lt n (by decide))]

end IdeMode.Text
