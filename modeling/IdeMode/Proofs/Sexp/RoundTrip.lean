import IdeMode.Proofs.Sexp.Grammar
import IdeMode.Sexp.Printer
set_option autoImplicit false

/-!
# Printing and reading values

Printing a well-formed value and reading the text back gives the value again, each part with its
kind; and whatever text is read, the value that comes out is well-formed. What is printed is a
document of the grammar, so it is read.
-/

namespace IdeMode.Sexp

open List

variable {v : Value} {cs : List Char}

/-! ## Printed values -/

theorem print_str (s : String) :
    (Value.str s).print = '\x22' :: Value.escape s.toList ++ ['\x22'] := rfl

theorem print_sym (name : String) : (Value.sym name).print = name.toList := rfl

theorem print_list (items : List Value) :
    (Value.list items).print = '(' :: Value.printItems items ++ [')'] := rfl

theorem printItems_cons_cons (v w : Value) (rest : List Value) :
    Value.printItems (v :: w :: rest) = v.print ++ ' ' :: Value.printItems (w :: rest) := rfl

theorem print_ofNat (n : Nat) : (Value.int (Int.ofNat n)).print = Nat.toDigits 10 n := by
  show (toString n).toList = _
  simp

theorem print_negSucc (n : Nat) :
    (Value.int (Int.negSucc n)).print = '-' :: Nat.toDigits 10 (n + 1) := by
  show ("-" ++ toString (n + 1)).toList = _
  simp [String.toList_append]

theorem integerDigits?_toDigits (n : Nat) :
    integerDigits? (Nat.toDigits 10 n) = some (1, Nat.toDigits 10 n) ∧
      integerDigits? ('-' :: Nat.toDigits 10 n) = some (-1, Nat.toDigits 10 n) :=
  integerDigits?_digits Nat.toDigits_ne_nil fun _ hc => Text.isDigit_of_mem_toDigits hc

theorem isAtom_print_int (n : Int) : IsAtom (Value.int n).print := by
  have hdigits : ∀ m : Nat, ∀ c ∈ Nat.toDigits 10 m, isAtomChar c = true :=
    fun m c hc => (isDigit_apart (Text.isDigit_of_mem_toDigits hc)).1
  rw [isAtom_iff]
  cases n with
  | ofNat m =>
    rw [print_ofNat]
    exact ⟨Nat.toDigits_ne_nil, hdigits m⟩
  | negSucc m =>
    rw [print_negSucc]
    refine ⟨cons_ne_nil _ _, ?_⟩
    intro c hc
    rcases mem_cons.mp hc with rfl | hc
    · decide
    · exact hdigits (m + 1) c hc

/-! ## What is printed is written -/

theorem literal_escape (s : List Char) : Literal (Value.escape s) s := by
  induction s with
  | nil => exact .nil
  | cons c s ih =>
    rw [Value.escape]
    split
    · rename_i hc
      -- of the characters that are written after a backslash none stands for a newline
      exact .escaped (by rcases hc with rfl | rfl <;> decide) ih
    · rename_i hc
      obtain ⟨hslash, hquote⟩ := not_or.mp hc
      exact .plain hquote hslash ih

theorem denotes_print_int (n : Int) : Denotes (Value.int n).print (.int n) := by
  have hvalue : ∀ m : Nat, ∃ values : List Nat,
    (Nat.toDigits 10 m).map Text.digitValue? = values.map some ∧
      Nat.ofDigits 10 values.reverse = m := by
    intro m
    obtain ⟨values, hvalues⟩ := exists_digitValues fun c hc => Text.isDigit_of_mem_toDigits hc
    exact ⟨values, hvalues, (digitsValue_eq_ofDigits hvalues).symm.trans
      (Text.digitsValue_toDigits m)⟩
  cases n with
  | ofNat m =>
    obtain ⟨values, hvalues, hm⟩ := hvalue m
    have hdenotes := Denotes.natural Nat.toDigits_ne_nil hvalues
    rwa [hm, ← print_ofNat] at hdenotes
  | negSucc m =>
    obtain ⟨values, hvalues, hm⟩ := hvalue (m + 1)
    have hdenotes := Denotes.negative Nat.toDigits_ne_nil hvalues
    rwa [hm, ← print_negSucc] at hdenotes

theorem legible_atom_append {rest : List Char} (hatom : IsAtom cs) (hrest : Separated rest)
    (hshort : ∀ found ∈ integerDigits? cs, found.2.length ≤ Text.digitLimit) (h : Legible rest) :
    Legible (cs ++ rest) := by
  rw [Legible, atoms_atom_append hatom hrest]
  exact forall_mem_cons.2 ⟨hshort, h⟩

/-- A value is written as it is printed, before whatever does not belong to it, and no integer in it
is too long. -/
def IsPrinted (v : Value) : Prop :=
  ∀ rest, Separated rest → Writes (.value v) v.print rest ∧
    (Legible rest → Legible (v.print ++ rest))

/-- Each item of a list is followed by a space or the closing parenthesis, and neither belongs to an
atom. -/
theorem writes_printItems {items : List Value} (h : ∀ v ∈ items, IsPrinted v) (rest : List Char) :
    Writes (.items items) (Value.printItems items) (')' :: rest) ∧
      (Legible rest → Legible (Value.printItems items ++ ')' :: rest)) := by
  have hclose : Legible rest → Legible (')' :: rest) := by
    intro hlegible
    rwa [Legible, atoms_cons_delimiter (by decide) (by decide)]
  induction items with
  | nil => exact ⟨.nil, hclose⟩
  | cons v vs ih =>
    obtain ⟨hwrites, hlegible⟩ := ih fun w hw => h w (mem_cons_of_mem v hw)
    cases vs with
    | nil =>
      obtain ⟨hv, hkeeps⟩ := h v mem_cons_self (')' :: rest) (separated_close rest)
      have hitem := @Writes.item _ _ _ [] _ _ hv (forall_mem_nil _) .nil
      rw [append_nil, append_nil] at hitem
      exact ⟨hitem, fun hrest => hkeeps (hclose hrest)⟩
    | cons w ws =>
      obtain ⟨hv, hkeeps⟩ := h v mem_cons_self (' ' :: (Value.printItems (w :: ws) ++ ')' :: rest))
        (separated_space _)
      have hspace : Blanks [' '] := forall_mem_singleton.2 (by decide)
      have hitem := Writes.item hv hspace hwrites
      rw [append_assoc, singleton_append] at hitem
      refine ⟨hitem, fun hrest => ?_⟩
      rw [printItems_cons_cons, append_assoc]
      apply hkeeps
      rw [Legible, atoms_cons_delimiter (by decide) (by decide)]
      exact hlegible hrest

/-- The induction is on how the value is built. -/
theorem isPrinted_of_wellFormed (h : WellFormed v) : IsPrinted v := by
  induction h with
  | str s =>
    intro rest _
    have hbody := literal_escape s.toList
    have hwrites := @Writes.string _ _ rest hbody
    rw [String.ofList_toList] at hwrites
    refine ⟨hwrites, fun hrest => ?_⟩
    rwa [print_str, append_assoc, cons_append, Legible, atoms_cons_quote, singleton_append,
      atomsFrom_literal_append hbody]
  | int n hn =>
    intro rest hrest
    refine ⟨.atom (isAtom_print_int n) hrest (denotes_print_int n),
      legible_atom_append (isAtom_print_int n) hrest ?_⟩
    cases n with
    | ofNat m =>
      rw [print_ofNat, (integerDigits?_toDigits m).1]
      exact fun found hfound => Option.some.inj hfound ▸ hn
    | negSucc m =>
      rw [print_negSucc, (integerDigits?_toDigits (m + 1)).2]
      exact fun found hfound => Option.some.inj hfound ▸ hn
  | sym name hatom hnum =>
    intro rest hrest
    have hdenotes := Denotes.symbol hnum
    rw [String.ofList_toList] at hdenotes
    refine ⟨.atom hatom hrest hdenotes, legible_atom_append hatom hrest ?_⟩
    rw [print_sym, (integerDigits?_eq_none_iff _).2 hnum]
    intro found hfound
    cases hfound
  | list items hitems ih =>
    intro rest _
    obtain ⟨hwrites, hlegible⟩ := writes_printItems ih rest
    refine ⟨@Writes.list _ [] _ _ (forall_mem_nil _) hwrites, fun hrest => ?_⟩
    rw [print_list, append_assoc, cons_append, Legible,
      atoms_cons_delimiter (by decide) (by decide)]
    exact hlegible hrest

/-- Nothing keeps a well-formed value from being written but the depth of its lists. -/
theorem obstacle?_of_wellFormed (h : WellFormed v) (room : Nat) :
    v.obstacle? room = if depth v ≤ room then none else some .tooDeep := by
  induction h generalizing room with
  | str s => exact (if_pos (Nat.zero_le _)).symm
  | int n _ => exact (if_pos (Nat.zero_le _)).symm
  | sym name _ _ => exact (if_pos (Nat.zero_le _)).symm
  | list items _ ih =>
    cases room with
    | zero => exact (if_neg (Nat.not_succ_le_zero _)).symm
    | succ room =>
      have hamong : ∀ vs : List Value,
        (∀ w ∈ vs, w.obstacle? room = if depth w ≤ room then none else some .tooDeep) →
          Value.obstacleAmong? room vs = if depthAmong vs ≤ room then none else some .tooDeep := by
        intro vs hvs
        induction vs with
        | nil => exact (if_pos (Nat.zero_le _)).symm
        | cons w ws ihs =>
          have hdepth : depthAmong (w :: ws) ≤ room ↔ depth w ≤ room ∧ depthAmong ws ≤ room :=
            max_le_iff
          obtain ⟨hw, hws⟩ := forall_mem_cons.1 hvs
          rw [Value.obstacleAmong?, hw, ihs hws]
          by_cases hfirst : depth w ≤ room <;> simp [hdepth, hfirst]
      rw [Value.obstacle?, hamong items fun w hw => ih w hw room]
      simp [depth]

/-- A well-formed value is written as it is printed, if there is room for its lists. -/
theorem encode_of_wellFormed (h : WellFormed v) (room : Nat) :
    v.encodeWithin room = if depth v ≤ room then .ok (String.ofList v.print)
      else .error .tooDeep := by
  rw [Value.encodeWithin, obstacle?_of_wellFormed h]
  by_cases hroom : depth v ≤ room <;> simp [hroom]

/-- What a well-formed value is printed as decodes to the value, whatever white space follows, if
there is room for its lists. -/
theorem decode_print (h : WellFormed v) {room : Nat} (hroom : depth v ≤ room) {blanks : List Char}
    (hblanks : ∀ c ∈ blanks, Text.isBlank c = true) :
    decodeWithin room (v.print ++ blanks) = .ok v := by
  have hseparated : Separated blanks :=
    fun c hc => (Blanks.not_atom hblanks (mem_of_mem_head? hc)).2
  have hlegible : Legible blanks := by
    rw [Legible, ← append_nil blanks, atoms_blanks_append hblanks]
    exact forall_mem_nil _
  obtain ⟨hwrites, hkeeps⟩ := isPrinted_of_wellFormed h blanks hseparated
  rw [decode_of_isDocument (hkeeps hlegible) ⟨[], v.print, blanks, rfl, forall_mem_nil _,
    hblanks, hwrites⟩]
  exact if_pos hroom

/-- The well-formed values are exactly those that some text decodes to, and a value that is not
nested too deeply has a written form that decodes to it again. Reading and writing may have
different room for lists: a value that was read but nests deeper than there is room for in writing
has no written form. -/
theorem decode_encode_iff (v : Value) (reading writing : Nat) :
    (WellFormed v → depth v ≤ reading → depth v ≤ writing →
      ∃ written, v.encodeWithin writing = .ok written ∧
        decodeWithin reading written.toList = .ok v) ∧
    (WellFormed v → writing < depth v → v.encodeWithin writing = .error .tooDeep) ∧
      ∀ text : List Char, decodeWithin reading text = .ok v → WellFormed v ∧ depth v ≤ reading ∧
        (depth v ≤ writing → ∃ written, v.encodeWithin writing = .ok written ∧
            decodeWithin reading written.toList = .ok v) := by
  have hback : WellFormed v → depth v ≤ reading → depth v ≤ writing →
      ∃ written, v.encodeWithin writing = .ok written ∧
        decodeWithin reading written.toList = .ok v := by
    intro h hread hwrite
    refine ⟨String.ofList v.print, ?_, ?_⟩
    · rw [encode_of_wellFormed h, if_pos hwrite]
    · rw [String.toList_ofList, ← append_nil v.print]
      exact decode_print h hread (by nofun)
  refine ⟨hback, ?_, ?_⟩
  · intro h hdeep
    rw [encode_of_wellFormed h, if_neg (Nat.not_le_of_lt hdeep)]
  · intro text h
    obtain ⟨hformed, hdepth, -⟩ := document_of_decode h
    exact ⟨hformed, hdepth, hback hformed hdepth⟩

/-- A list with an atom, a string full of delimiters, a negative number and an empty list comes back
as it was. Two lists, one inside the other, cannot be written where there is room for one. -/
theorem decode_encode_mixed :
    (∃ written, (Value.list [.sym ":ok", .str "a\\n\n(\x22", .int (-12), .list []]).encode =
      .ok written ∧ decode written.toList =
        .ok (.list [.sym ":ok", .str "a\\n\n(\x22", .int (-12), .list []])) ∧
    (Value.list [.list []]).encodeWithin 1 = .error .tooDeep := by
  have hok : ":ok".toList = [':', 'o', 'k'] := by decide
  refine ⟨(decode_encode_iff _ readRoom Value.writeRoom).1 (.list _ ?_) (by decide) (by decide),
    (decode_encode_iff _ readRoom 1).2.1 ?_ (by decide)⟩
  · simp only [forall_mem_cons]
    refine ⟨.sym _ ?_ ?_, .str _, .int _ (by decide), .list _ (by simp), by simp⟩
    · rw [hok]
      decide
    · rw [hok, ← integerDigits?_eq_none_iff]
      decide
  · exact .list _ (forall_mem_singleton.2 (.list _ nofun))

end IdeMode.Sexp
