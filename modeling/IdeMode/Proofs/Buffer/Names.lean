import IdeMode.Proofs.Buffer.Holes
set_option autoImplicit false

/-!
# The name at a point

A point touches the character at its place in the line, or else the one right before it. If that can
stand in a name, the name is the longest run of such characters around it, less the dots at both
ends. What is left of a run may be nothing: then there is no name at the point, as where the point
touches no character of a name.
-/

namespace IdeMode

open List

variable {belongs : Char → Bool} {content left run right : List Char} {i k : Nat}

/-- A scan stops at a character that is not of its class. -/
theorem not_of_head?_dropWhile {cs : List Char} {c : Char} (h : c ∈ (cs.dropWhile belongs).head?) :
    belongs c = false := by
  have hhead := List.head?_dropWhile_not belongs cs
  rw [Option.mem_def.1 h] at hhead
  exact hhead

/-- What is cut off at both ends is of the class, and what is left neither starts nor ends with such
a character. -/
theorem Text.exists_trimmed (drops : Char → Bool) (cs : List Char) :
    ∃ pre post, cs = pre ++ trimBy drops cs ++ post ∧ (∀ c ∈ pre ++ post, drops c = true) ∧
      (∀ c ∈ (trimBy drops cs).head?, drops c = false) ∧
        ∀ c ∈ (trimBy drops cs).getLast?, drops c = false := by
  have hrest : cs.dropWhile drops =
      trimBy drops cs ++ ((cs.dropWhile drops).reverse.takeWhile drops).reverse := by
    rw [trimBy, ← reverse_append, takeWhile_append_dropWhile, reverse_reverse]
  refine ⟨cs.takeWhile drops, ((cs.dropWhile drops).reverse.takeWhile drops).reverse,
    ?_, ?_, ?_, ?_⟩
  · rw [append_assoc, ← hrest, takeWhile_append_dropWhile]
  · intro c hc
    rcases mem_append.1 hc with hc | hc
    · exact mem_takeWhile_imp hc
    · exact mem_takeWhile_imp (mem_reverse.1 hc)
  · intro c hc
    have hhead : c ∈ (cs.dropWhile drops).head? := by
      rw [hrest, List.head?_append, Option.mem_def.1 hc]
      rfl
    exact not_of_head?_dropWhile hhead
  · intro c hc
    rw [trimBy, List.getLast?_reverse] at hc
    exact not_of_head?_dropWhile hc

/-- A longest run of characters of a class in a line, around a place. -/
structure IsRunAt (belongs : Char → Bool) (content : List Char) (k : Nat)
    (left run right : List Char) : Prop where
  content_eq : content = left ++ run ++ right
  chars : ∀ c ∈ run, belongs c = true
  before : ∀ c ∈ left.getLast?, belongs c = false
  behind : ∀ c ∈ right.head?, belongs c = false
  within : left.length ≤ k ∧ k < left.length + run.length

theorem exists_isRunAt (h : content[k]?.any belongs = true) :
    ∃ left run right, IsRunAt belongs content k left run right := by
  obtain ⟨c, hc, hbelongs⟩ := (Option.any_eq_true ..).1 h
  obtain ⟨hk, rfl⟩ := List.getElem?_eq_some_iff.1 hc
  have hback := takeWhile_append_dropWhile (p := belongs) (l := (content.take k).reverse)
  have hfront := takeWhile_append_dropWhile (p := belongs) (l := content.drop k)
  have hlength := congrArg List.length hback
  rw [length_append, length_reverse, length_take_of_le (Nat.le_of_lt hk)] at hlength
  refine ⟨((content.take k).reverse.dropWhile belongs).reverse, runAround belongs content k,
    (content.drop k).dropWhile belongs, ?_, ?_, ?_, fun c => not_of_head?_dropWhile, ?_⟩
  · rw [runAround, ← append_assoc, ← reverse_append, hback, append_assoc, hfront, reverse_reverse,
      take_append_drop]
  · intro c hc
    rcases mem_append.1 hc with hc | hc
    · exact mem_takeWhile_imp (mem_reverse.1 hc)
    · exact mem_takeWhile_imp hc
  · rw [List.getLast?_reverse]
    exact fun c => not_of_head?_dropWhile
  · rw [runAround, drop_eq_getElem_cons hk, takeWhile_cons_of_pos hbelongs]
    simp only [length_append, length_reverse, length_cons]
    omega

namespace Buffer

/-- A point of a line touches the character at its place if that can stand in a name, and else the
one before it if that can. -/
def Touches (content : List Char) (i k : Nat) : Prop :=
  content[k]?.any isNameChar = true ∧ (k = i ∨ k + 1 = i ∧ content[i]?.any isNameChar = false)

/-- The run around a point is the one that it touches. -/
theorem Touches.runAround_eq (h : Touches content i k)
    (hrun : IsRunAt isNameChar content k left run right) :
    runAround isNameChar content i = run := by
  obtain ⟨hfirst, hlast⟩ := hrun.within
  have hplace : i = left.length + (i - left.length) ∧ i - left.length ≤ run.length := by
    rcases h.2 with rfl | ⟨rfl, -⟩ <;> omega
  rw [hrun.content_eq, hplace.1]
  exact runAround_of_run hrun.chars hrun.before hrun.behind hplace.2

/-- Around a point that touches no name there is no run. -/
theorem runAround_of_untouched (hi : i ≤ content.length) (h : ∀ k, ¬ Touches content i k) :
    runAround isNameChar content i = [] := by
  have hat : content[i]?.any isNameChar = false :=
    Bool.eq_false_iff.2 fun hat => h i ⟨hat, .inl rfl⟩
  have hleft : ∀ c ∈ (content.take i).getLast?, isNameChar c = false := by
    intro c hc
    rw [List.getLast?_take] at hc
    split at hc
    · cases hc
    · next hzero =>
      rw [List.getElem?_eq_getElem (by omega)] at hc
      refine Bool.eq_false_iff.2 fun hname => h (i - 1) ⟨?_, .inr ⟨by omega, hat⟩⟩
      rw [List.getElem?_eq_getElem (by omega)]
      cases hc
      exact hname
  have hright : ∀ c ∈ (content.drop i).head?, isNameChar c = false := by
    intro c hc
    rw [List.head?_drop] at hc
    simpa [Option.mem_def.1 hc] using hat
  have hnone := runAround_of_run (forall_mem_nil _) hleft hright (Nat.le_refl 0)
  rwa [append_nil, take_append_drop, length_take_of_le hi] at hnone

variable {b : Buffer} {line column : Int}

/-- There is no name at a point: its line does not exist, it touches no character of a name, or only
dots. -/
def Nameless (b : Buffer) (line column : Int) : Prop :=
  (line < 1 ∨ b.lineCount < line) ∨ ∃ before content after, b.HasLine line before content after ∧
    ((∀ k, ¬ Touches content (placeIn content column) k) ∨ ∃ k left run right,
      Touches content (placeIn content column) k ∧ IsRunAt isNameChar content k left run right ∧
        ∀ c ∈ run, c = '.')

theorem trimBy_dots_eq_nil_iff : Text.trimBy (· == '.') run = [] ↔ ∀ c ∈ run, c = '.' := by
  obtain ⟨pre, post, hsplit, hcut, hhead, -⟩ := Text.exists_trimmed (· == '.') run
  constructor
  · intro hnil c hc
    rw [hnil, append_nil] at hsplit
    rw [hsplit] at hc
    simpa using hcut c hc
  · intro hdots
    cases hname : Text.trimBy (· == '.') run with
    | nil => rfl
    | cons c cs =>
      rw [hname] at hsplit hhead
      have hc : c ∈ run := by
        rw [hsplit]
        simp
      simpa [hdots c hc] using hhead c rfl

theorem Nameless.nameAt_eq (h : b.Nameless line column) :
    b.nameAt line column = .error (.noTarget line column) := by
  by_cases hrange : line < 1 ∨ b.lineCount < line
  · rw [nameAt, if_pos hrange]
    rfl
  · obtain ⟨before, content, after, hline, hnone⟩ := h.resolve_left hrange
    have hrun : Text.trimBy (· == '.') (runAround isNameChar content (placeIn content column)) =
        [] := by
      rcases hnone with huntouched | ⟨k, left, run, right, htouched, hrun, hdots⟩
      · rw [runAround_of_untouched
          (show placeIn content column ≤ _ from Nat.min_le_right _ _) huntouched]
        rfl
      · rw [htouched.runAround_eq hrun]
        exact trimBy_dots_eq_nil_iff.2 hdots
    rw [hline.nameAt_eq hrun, if_pos rfl]

/-- The longest run of characters of names that a point touches is a name, but for dots at both
ends. -/
def Names (b : Buffer) (line column : Int) (name : List Char) : Prop :=
  ∃ before content after k left run right dots dots', b.HasLine line before content after ∧
    Touches content (placeIn content column) k ∧ IsRunAt isNameChar content k left run right ∧
    run = dots ++ name ++ dots' ∧ (∀ c ∈ dots ++ dots', c = '.') ∧
    name ≠ [] ∧ name.head? ≠ some '.' ∧ name.getLast? ≠ some '.'

theorem exists_names (h : ¬ b.Nameless line column) :
    ∃ name, b.Names line column name ∧ b.nameAt line column = .ok (String.ofList name, line) := by
  obtain ⟨hrange, hsome⟩ := not_or.1 h
  obtain ⟨before, content, after, hline⟩ :=
    exists_hasLine (show 1 ≤ line by omega) (show line ≤ b.lineCount by omega)
  obtain ⟨huntouched, hsome⟩ := not_or.1 fun hnone => hsome ⟨before, content, after, hline, hnone⟩
  obtain ⟨k, htouched⟩ := not_forall_not.1 huntouched
  obtain ⟨left, run, right, hrun⟩ := exists_isRunAt htouched.1
  have hne : Text.trimBy (· == '.') run ≠ [] := fun hnil =>
    hsome ⟨k, left, run, right, htouched, hrun, trimBy_dots_eq_nil_iff.1 hnil⟩
  obtain ⟨dots, dots', hsplit, hcut, hhead, hlast⟩ := Text.exists_trimmed (· == '.') run
  refine ⟨Text.trimBy (· == '.') run, ⟨before, content, after, k, left, run, right, dots, dots',
    hline, htouched, hrun, hsplit, ?_, hne, ?_, ?_⟩, ?_⟩
  · exact fun c hc => by simpa using hcut c hc
  · exact fun hdot => by simpa using hhead '.' hdot
  · exact fun hdot => by simpa using hlast '.' hdot
  · rw [hline.nameAt_eq (by rw [htouched.runAround_eq hrun]), if_neg hne]

/-- **The name at a point is the one that touches it.** There is none exactly if the line does not
exist, neither the character at the place in the line nor the one before it can stand in a name, or
the run of such characters around it has only dots. Otherwise the name is this run, which nothing
next to it could extend, without the dots at both ends; it is not empty and has a dot at neither
end. -/
theorem name_at_point_touches_it (b : Buffer) (line column : Int) :
    (b.nameAt line column = .error (.noTarget line column) ↔ b.Nameless line column) ∧
      (¬ b.Nameless line column → ∃ name, b.Names line column name ∧
          b.nameAt line column = .ok (String.ofList name, line)) := by
  refine ⟨⟨fun hfault => ?_, Nameless.nameAt_eq⟩, exists_names⟩
  by_contra hnamed
  obtain ⟨name, -, hok⟩ := exists_names hnamed
  rw [hok] at hfault
  cases hfault

example : ['a', 'Z', '0', '_', '\x27', '.'].all isNameChar ∧
    ['?', '-', ' ', 'é'].all (!isNameChar ·) := by decide

end Buffer

end IdeMode
