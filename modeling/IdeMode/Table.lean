set_option autoImplicit false

/-!
# Tables

Association lists in the order in which keys were first set. Setting a known key keeps its place.
-/

namespace IdeMode

/-- Keys with their values, in the order in which the keys were first set. -/
abbrev Table (κ α : Type) : Type := List (κ × α)

namespace Table

variable {κ α : Type} [DecidableEq κ]

/-- The value of a key. -/
def get? (t : Table κ α) (k : κ) : Option α := (t.find? fun e => e.1 = k).map Prod.snd

/-- Sets the value of a key: a known one keeps its place, a new one goes last. -/
def set (t : Table κ α) (k : κ) (v : α) : Table κ α :=
  match t with
  | [] => [(k, v)]
  | (j, w) :: rest => if j = k then (j, v) :: rest else (j, w) :: set rest k v

/-- The table without a key. -/
def erase (t : Table κ α) (k : κ) : Table κ α := t.filter fun e => e.1 ≠ k

/-- Applies a function to the value of a key, if it has one. -/
def update (t : Table κ α) (k : κ) (f : α → α) : Table κ α :=
  t.map fun e => if e.1 = k then (e.1, f e.2) else e

@[simp] theorem get?_nil (k : κ) : get? ([] : Table κ α) k = none := rfl

theorem get?_cons (j k : κ) (v : α) (t : Table κ α) :
    get? ((j, v) :: t) k = if j = k then some v else get? t k := by
  by_cases h : j = k <;> simp [get?, h]

/-- Setting a key changes its value and no other. -/
@[simp] theorem get?_set (t : Table κ α) (k j : κ) (v : α) :
    (set t k v).get? j = if k = j then some v else t.get? j := by
  induction t with
  | nil => simp [set, get?_cons]
  | cons e rest ih =>
    obtain ⟨i, w⟩ := e
    by_cases hi : i = k
    · subst hi
      by_cases hj : i = j <;> simp [set, get?_cons, hj]
    · by_cases hj : i = j
      · subst hj
        simp [set, get?_cons, hi, Ne.symm hi]
      · simp [set, get?_cons, hi, hj, ih]

/-- Erasing a key leaves it without a value and changes no other. -/
@[simp] theorem get?_erase (t : Table κ α) (k j : κ) :
    (erase t k).get? j = if k = j then none else t.get? j := by
  induction t with
  | nil => simp [erase]
  | cons e rest ih =>
    obtain ⟨i, w⟩ := e
    unfold erase at ih
    by_cases hi : i = k
    · subst hi
      by_cases hj : i = j
      · subst hj
        simpa [erase] using ih
      · simpa [erase, get?_cons, hj] using ih
    · by_cases hj : i = j
      · subst hj
        simp [erase, get?_cons, hi, Ne.symm hi]
      · simpa [erase, get?_cons, hi, hj] using ih

end Table

end IdeMode
