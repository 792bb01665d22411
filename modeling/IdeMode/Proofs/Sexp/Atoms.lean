import Mathlib.Data.List.TakeWhile
import IdeMode.Proofs.Text.Digits
import IdeMode.Sexp.Parser
set_option autoImplicit false

/-!
# Well-formed values and atoms

The values that reading can yield are described on their own, as `WellFormed`. An atom ends where
its characters end, so what follows it may not start with a character of an atom; strings and lists
end by themselves.
-/

namespace IdeMode.Sexp

open List

/-! ## Well-formed values -/

/-- A text has the form of an integer: decimal digits, at least one, after a minus or not. -/
def IsNumeral (cs : List Char) : Prop :=
  ∃ digits : List Char, digits ≠ [] ∧ (∀ c ∈ digits, Text.isDigit c = true) ∧
    (cs = digits ∨ cs = '-' :: digits)

/-- A text can be written as an atom: it is not empty, and nothing in it separates or delimits
values. -/
def IsAtom (cs : List Char) : Prop :=
  cs ≠ [] ∧ ∀ c ∈ cs, Text.isBlank c = false ∧ c ≠ '(' ∧ c ≠ ')' ∧ c ≠ '\x22'

/-- The values that reading yields. -/
inductive WellFormed : Value → Prop where
  | str (s : String) : WellFormed (.str s)
  /-- no more digits than are read -/
  | int (n : Int) (h : (Nat.toDigits 10 n.natAbs).length ≤ Text.digitLimit) : WellFormed (.int n)
  /-- an atom that is no integer -/
  | sym (name : String) (hatom : IsAtom name.toList) (hnum : ¬ IsNumeral name.toList) :
      WellFormed (.sym name)
  | list (items : List Value) (h : ∀ v ∈ items, WellFormed v) : WellFormed (.list items)

mutual

/-- How many lists of a value stand one inside the other. -/
def depth : Value → Nat
  | .list items => depthAmong items + 1
  | _ => 0

/-- How deep the deepest of the items is. -/
def depthAmong : List Value → Nat
  | [] => 0
  | v :: vs => max (depth v) (depthAmong vs)

end

/-! ## Atoms -/

theorem isAtomChar_iff (c : Char) :
    isAtomChar c = true ↔ Text.isBlank c = false ∧ c ≠ '(' ∧ c ≠ ')' ∧ c ≠ '\x22' := by
  simp [isAtomChar, and_assoc]

/-- No code point of a run of ten digits is white space or delimits values. -/
theorem digitRuns_apart : ∀ base ∈ Text.digitZeros, ∀ k < 10,
    (∀ r ∈ Text.blankRanges, ¬ (r.1 ≤ base + k ∧ base + k ≤ r.2)) ∧
      base + k ≠ 40 ∧ base + k ≠ 41 ∧ base + k ≠ 34 ∧ base + k ≠ 45 := by
  decide +kernel

theorem isDigit_apart {c : Char} (h : Text.isDigit c = true) : isAtomChar c = true ∧ c ≠ '-' := by
  unfold Text.isDigit Text.digitValue? at h
  rw [Option.isSome_map] at h
  obtain ⟨base, hfind⟩ := Option.isSome_iff_exists.mp h
  have hrun := List.find?_some hfind
  simp only [Bool.and_eq_true, decide_eq_true_eq] at hrun
  obtain ⟨hblank, hopen, hclose, hquote, hminus⟩ :=
    digitRuns_apart base (mem_of_find?_eq_some hfind) (c.toNat - base) (by omega)
  rw [show base + (c.toNat - base) = c.toNat by omega] at hblank hopen hclose hquote hminus
  refine ⟨(isAtomChar_iff c).mpr ⟨?_, ?_, ?_, ?_⟩, ?_⟩
  · rw [Text.isBlank, Text.inRanges, any_eq_false]
    intro r hr
    simpa using hblank r hr
  · rintro rfl; exact hopen rfl
  · rintro rfl; exact hclose rfl
  · rintro rfl; exact hquote rfl
  · rintro rfl; exact hminus rfl

theorem isAtom_iff (cs : List Char) : IsAtom cs ↔ cs ≠ [] ∧ ∀ c ∈ cs, isAtomChar c = true := by
  simp only [IsAtom, isAtomChar_iff]

instance (cs : List Char) : Decidable (IsAtom cs) :=
  decidable_of_iff (cs ≠ [] ∧ cs.all isAtomChar = true) (by rw [isAtom_iff, all_eq_true])

/-- The digits of an integer are found whether or not a minus stands before them. -/
theorem integerDigits?_digits {digits : List Char} (hne : digits ≠ [])
    (hdigits : ∀ c ∈ digits, Text.isDigit c = true) : integerDigits? digits = some (1, digits) ∧
      integerDigits? ('-' :: digits) = some (-1, digits) := by
  have hall : digits.all Text.isDigit = true := all_eq_true.mpr hdigits
  refine ⟨?_, by simp [integerDigits?, hne, hall]⟩
  cases digits with
  | nil => exact absurd rfl hne
  | cons c cs =>
    have hc : c ≠ '-' := (isDigit_apart (hdigits c mem_cons_self)).2
    unfold integerDigits?
    split
    rename_i sign ds heq
    split at heq
    · rename_i rest hcons
      exact absurd (List.cons.inj hcons).1 hc
    · cases heq
      simp [hall]

/-- What the digits of an integer say about the text they were found in. -/
theorem integerDigits?_eq_some {cs digits : List Char} {sign : Int}
    (h : integerDigits? cs = some (sign, digits)) :
    digits ≠ [] ∧ (∀ c ∈ digits, Text.isDigit c = true) ∧
      ((sign = 1 ∧ cs = digits) ∨ (sign = -1 ∧ cs = '-' :: digits)) := by
  unfold integerDigits? at h
  split at h
  rename_i sign' ds heq
  split at h
  · rename_i hds
    simp only [Option.some.injEq, Prod.mk.injEq] at h
    obtain ⟨rfl, rfl⟩ := h
    simp only [Bool.and_eq_true, Bool.not_eq_true', isEmpty_eq_false_iff, all_eq_true] at hds
    refine ⟨hds.1, hds.2, ?_⟩
    split at heq <;> cases heq
    · exact Or.inr ⟨rfl, rfl⟩
    · exact Or.inl ⟨rfl, rfl⟩
  · cases h

theorem integerDigits?_eq_none_iff (cs : List Char) :
    integerDigits? cs = none ↔ ¬ IsNumeral cs := by
  constructor
  · rintro hnone ⟨digits, hne, hdigits, rfl | rfl⟩
    · rw [(integerDigits?_digits hne hdigits).1] at hnone
      cases hnone
    · rw [(integerDigits?_digits hne hdigits).2] at hnone
      cases hnone
  · intro hnum
    cases h : integerDigits? cs with
    | none => rfl
    | some found =>
      obtain ⟨sign, digits⟩ := found
      obtain ⟨hne, hdigits, ⟨_, hcs⟩ | ⟨_, hcs⟩⟩ := integerDigits?_eq_some h
      · exact absurd ⟨digits, hne, hdigits, Or.inl hcs⟩ hnum
      · exact absurd ⟨digits, hne, hdigits, Or.inr hcs⟩ hnum

variable {v : Value} {cs : List Char}

/-- An atom that is no integer is read as itself. -/
theorem atomValue_of_not_numeral (h : ¬ IsNumeral cs) :
    atomValue cs = .ok (.sym (String.ofList cs)) := by
  rw [atomValue, (integerDigits?_eq_none_iff cs).mpr h]

/-- Reading an atom yields a well-formed value. -/
theorem depth_of_atomValue (h : atomValue cs = .ok v) : depth v = 0 := by
  unfold atomValue at h
  split at h
  · cases h
    rfl
  · split at h
    · cases h
    · cases h
      rfl

theorem wellFormed_of_atomValue (hatom : IsAtom cs) (h : atomValue cs = .ok v) : WellFormed v := by
  unfold atomValue at h
  split at h
  · rename_i hnone
    cases h
    refine .sym _ ?_ ?_
    · rwa [String.toList_ofList]
    · rw [String.toList_ofList]
      exact (integerDigits?_eq_none_iff cs).mp hnone
  · rename_i sign digits hsome
    split at h
    · cases h
    · rename_i hlimit
      cases h
      obtain ⟨_, _, hsign⟩ := integerDigits?_eq_some hsome
      have habs : (sign * Int.ofNat (Text.digitsValue digits)).natAbs =
          Text.digitsValue digits := by
        rcases hsign with ⟨rfl, _⟩ | ⟨rfl, _⟩ <;> simp
      refine .int _ ?_
      rw [habs, Nat.length_toDigits_le_iff (by decide) (by decide)]
      calc Text.digitsValue digits < 10 ^ digits.length := Text.digitsValue_lt digits
        _ ≤ 10 ^ Text.digitLimit := Nat.pow_le_pow_right (by decide) (Nat.le_of_not_lt hlimit)

/-! ## What follows a value -/

/-- A text does not start with a character of an atom. -/
def Separated (cs : List Char) : Prop := ∀ c ∈ cs.head?, isAtomChar c = false

instance (cs : List Char) : Decidable (Separated cs) :=
  decidable_of_iff (cs.head?.all (fun c => !isAtomChar c) = true)
    (by simp [Separated, Option.all_eq_true])

/-- A text does not start with white space. -/
def Unblanked (cs : List Char) : Prop := ∀ c ∈ cs.head?, Text.isBlank c = false

theorem separated_close (rest : List Char) : Separated (')' :: rest) := by
  intro c hc
  cases hc
  decide

theorem separated_space (rest : List Char) : Separated (' ' :: rest) := by
  intro c hc
  cases hc
  decide

theorem unblanked_skipBlanks (cs : List Char) : Unblanked (Text.skipBlanks cs) := by
  intro c hc
  have hhead := List.head?_dropWhile_not Text.isBlank cs
  rw [Text.skipBlanks] at hc
  rw [Option.mem_def.mp hc] at hhead
  simpa using hhead

theorem skipBlanks_of_unblanked (h : Unblanked cs) : Text.skipBlanks cs = cs := by
  cases cs with
  | nil => rfl
  | cons c cs => simp [Text.skipBlanks, h c rfl]

/-- An atom is cut off exactly where its characters end. -/
theorem span_atom {rest : List Char} (hatom : IsAtom cs) (hrest : Separated rest) :
    (cs ++ rest).takeWhile isAtomChar = cs ∧ (cs ++ rest).dropWhile isAtomChar = rest := by
  have hall := ((isAtom_iff cs).mp hatom).2
  rw [takeWhile_append_of_pos hall, dropWhile_append_of_pos hall]
  cases rest with
  | nil => simp
  | cons c rest => simp [hrest c rfl]

theorem readValue_atom {rest : List Char} (hatom : IsAtom cs) (hrest : Separated rest)
    (total room bound : Nat) :
    readValue total room (bound + 1) (cs ++ rest) =
      match atomValue cs with
      | .ok v => .ok (v, rest)
      | .error e => .error e := by
  obtain ⟨htake, hdrop⟩ := span_atom hatom hrest
  cases cs with
  | nil => exact absurd rfl hatom.1
  | cons c cs =>
    obtain ⟨_, hopen, hclose, hquote⟩ := hatom.2 c mem_cons_self
    rw [cons_append] at htake hdrop ⊢
    rw [readValue]
    · exact congrArg₂ (fun (cs rest : List Char) => match atomValue cs with
        | .ok v => (.ok (v, rest) : Except Fault (Value × List Char))
        | .error e => .error e) htake hdrop
    · exact cons_ne_nil _ _
    · intro r h
      exact hopen (List.cons.inj h).1
    · intro r h
      exact hclose (List.cons.inj h).1
    · intro r h
      exact hquote (List.cons.inj h).1

end IdeMode.Sexp
