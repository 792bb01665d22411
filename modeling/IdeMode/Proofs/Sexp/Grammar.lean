import Mathlib.Data.Nat.Digits.Defs
import IdeMode.Proofs.Sexp.Atoms
set_option autoImplicit false

/-!
# The grammar of values

What a text means is said here without the reader, by a grammar: a list is its items between
parentheses, a string literal its characters between quotes, and anything else an atom. The reader
accepts exactly the documents of this grammar and finds the value that they denote.

An atom is a run of characters that cannot be longer, so whether a text is an atom depends on what
follows it. The grammar therefore relates a text *and the rest after it* to a value. Soundness is an
induction on the steps of the reader, completeness one on derivations.
-/

namespace IdeMode.Sexp

open List

/-! ## The grammar -/

/-- White space of any length. -/
def Blanks (cs : List Char) : Prop := ∀ c ∈ cs, Text.isBlank c = true

/-- The inside of a string literal, and the characters that it denotes. -/
inductive Literal : List Char → List Char → Prop where
  | nil : Literal [] []
  | plain {c : Char} {cs s : List Char} (hquote : c ≠ '\x22') (hslash : c ≠ '\\')
    (h : Literal cs s) : Literal (c :: cs) (c :: s)
  | newline {cs s : List Char} (h : Literal cs s) : Literal ('\\' :: 'n' :: cs) ('\n' :: s)
  | escaped {c : Char} {cs s : List Char} (hc : c ≠ 'n') (h : Literal cs s) :
      Literal ('\\' :: c :: cs) (c :: s)

/-- What an atom denotes: an integer if it consists of decimal digits, of whatever script, after a
minus or not. -/
inductive Denotes : List Char → Value → Prop where
  | natural {digits : List Char} {values : List Nat} (hne : digits ≠ [])
      (hvalues : digits.map Text.digitValue? = values.map some) :
      Denotes digits (.int (Int.ofNat (Nat.ofDigits 10 values.reverse)))
  | negative {digits : List Char} {values : List Nat} (hne : digits ≠ [])
      (hvalues : digits.map Text.digitValue? = values.map some) :
      Denotes ('-' :: digits) (.int (-Int.ofNat (Nat.ofDigits 10 values.reverse)))
  | symbol {atom : List Char} (hnum : ¬ IsNumeral atom) : Denotes atom (.sym (String.ofList atom))

/-- What a part of a text can write. -/
inductive Phrase where
  | value (v : Value)
  /-- the items of a list, each with the white space after it -/
  | items (vs : List Value)

/-- A text, standing before a rest, writes a phrase. -/
inductive Writes : Phrase → List Char → List Char → Prop where
  | list {vs : List Value} {lead body rest : List Char} (hlead : Blanks lead)
      (hitems : Writes (.items vs) body (')' :: rest)) :
      Writes (.value (.list vs)) ('(' :: (lead ++ body ++ [')'])) rest
  | string {s body rest : List Char} (hbody : Literal body s) :
      Writes (.value (.str (String.ofList s))) ('\x22' :: (body ++ ['\x22'])) rest
  /-- an atom cannot be longer than it is -/
  | atom {v : Value} {cs rest : List Char} (hatom : IsAtom cs) (hrest : Separated rest)
    (hv : Denotes cs v) : Writes (.value v) cs rest
  | nil {rest : List Char} : Writes (.items []) [] rest
  | item {v : Value} {vs : List Value} {cs blanks more rest : List Char}
      (hv : Writes (.value v) cs (blanks ++ more ++ rest)) (hblanks : Blanks blanks)
      (hvs : Writes (.items vs) more rest) :
      Writes (.items (v :: vs)) (cs ++ blanks ++ more) rest

/-- A text is one value with white space around it. -/
def IsDocument (text : List Char) (v : Value) : Prop :=
  ∃ before cs after, text = before ++ cs ++ after ∧ Blanks before ∧ Blanks after ∧
    Writes (.value v) cs after

/-! ## The atoms of a text

They are found whether or not the text is a document, from left to right and outside string
literals. -/

/-- Where a scan for atoms stands. -/
inductive Scan where
  | between
  /-- inside an atom, with the characters read so far -/
  | atom (read : List Char)
  | literal
  /-- after a backslash in a literal -/
  | escape

/-- The atoms in the rest of a text. -/
def atomsFrom : Scan → List Char → List (List Char)
  | .atom read, [] => [read]
  | _, [] => []
  | .between, c :: cs =>
    if c = '\x22' then atomsFrom .literal cs
    else if isAtomChar c then atomsFrom (.atom [c]) cs
    else atomsFrom .between cs
  | .atom read, c :: cs =>
    if c = '\x22' then read :: atomsFrom .literal cs
    else if isAtomChar c then atomsFrom (.atom (read ++ [c])) cs
    else read :: atomsFrom .between cs
  | .literal, c :: cs =>
    if c = '\\' then atomsFrom .escape cs
    else if c = '\x22' then atomsFrom .between cs
    else atomsFrom .literal cs
  | .escape, _ :: cs => atomsFrom .literal cs

/-- The atoms of a text. -/
def atoms (text : List Char) : List (List Char) := atomsFrom .between text

/-- No integer of a text has more digits than are read. -/
def Legible (text : List Char) : Prop :=
  ∀ atom ∈ atoms text, ∀ found ∈ integerDigits? atom, found.2.length ≤ Text.digitLimit

instance (text : List Char) : Decidable (Legible text) :=
  inferInstanceAs (Decidable
    (∀ atom ∈ atoms text, ∀ found ∈ integerDigits? atom, found.2.length ≤ Text.digitLimit))

example : atoms "(:a\x2212 b\x22-3)".toList = [":a".toList, "-3".toList] := by decide

theorem atoms_cons_delimiter {c : Char} (hquote : c ≠ '\x22') (hc : isAtomChar c = false)
    (cs : List Char) : atoms (c :: cs) = atoms cs := by
  simp [atoms, atomsFrom, hquote, hc]

theorem atoms_cons_quote (cs : List Char) : atoms ('\x22' :: cs) = atomsFrom .literal cs := by
  simp [atoms, atomsFrom]

variable {cs digits text blanks rest : List Char} {v : Value}

theorem Blanks.not_atom (h : Blanks cs) {c : Char} (hc : c ∈ cs) :
    c ≠ '\x22' ∧ isAtomChar c = false := by
  refine ⟨?_, by simp [isAtomChar, h c hc]⟩
  rintro rfl
  exact absurd (h _ hc) (by decide)

theorem atoms_blanks_append (h : Blanks blanks) (cs : List Char) :
    atoms (blanks ++ cs) = atoms cs := by
  induction blanks with
  | nil => rfl
  | cons c blanks ih =>
    obtain ⟨hquote, hc⟩ := h.not_atom mem_cons_self
    rw [cons_append, atoms_cons_delimiter hquote hc]
    exact ih fun d hd => h d (mem_cons_of_mem c hd)

/-- An atom ends before whatever cannot belong to it. -/
theorem atomsFrom_atom_append (hcs : ∀ c ∈ cs, isAtomChar c = true) (hrest : Separated rest)
    (read : List Char) : atomsFrom (.atom read) (cs ++ rest) = (read ++ cs) :: atoms rest := by
  induction cs generalizing read with
  | nil =>
    rw [nil_append, append_nil]
    cases rest with
    | nil => rfl
    | cons c rest =>
      have hc := hrest c rfl
      by_cases hquote : c = '\x22' <;> simp [atoms, atomsFrom, hquote, hc]
  | cons c cs ih =>
    have hc := hcs c mem_cons_self
    have hquote : c ≠ '\x22' := ((isAtomChar_iff c).mp hc).2.2.2
    rw [cons_append, atomsFrom, if_neg hquote, if_pos hc,
      ih fun d hd => hcs d (mem_cons_of_mem c hd)]
    simp

theorem atoms_atom_append (hatom : IsAtom cs) (hrest : Separated rest) :
    atoms (cs ++ rest) = cs :: atoms rest := by
  obtain ⟨hne, hall⟩ := (isAtom_iff cs).mp hatom
  cases cs with
  | nil => exact absurd rfl hne
  | cons c cs =>
    have hc := hall c mem_cons_self
    have hquote : c ≠ '\x22' := ((isAtomChar_iff c).mp hc).2.2.2
    rw [cons_append, atoms, atomsFrom, if_neg hquote, if_pos hc,
      atomsFrom_atom_append (fun d hd => hall d (mem_cons_of_mem c hd)) hrest]
    rfl

theorem atomsFrom_literal_append {body s : List Char} (h : Literal body s) (rest : List Char) :
    atomsFrom .literal (body ++ '\x22' :: rest) = atoms rest := by
  induction h with
  | nil => simp [atoms, atomsFrom]
  | plain hquote hslash _ ih => simpa [atomsFrom, hquote, hslash] using ih
  | newline _ ih => simpa [atomsFrom] using ih
  | escaped _ _ ih => simpa [atomsFrom] using ih

/-- The atoms after a phrase are atoms of the whole. -/
theorem atoms_subset_of_writes {p : Phrase} (h : Writes p cs rest) :
    atoms rest ⊆ atoms (cs ++ rest) := by
  induction h with
  | @list vs lead body rest hlead _ ih =>
    rw [cons_append, append_assoc, append_assoc, atoms_cons_delimiter (by decide) (by decide),
      atoms_blanks_append hlead, singleton_append]
    rw [atoms_cons_delimiter (by decide) (by decide)] at ih
    exact ih
  | string hbody =>
    rw [cons_append, append_assoc, singleton_append, atoms_cons_quote,
      atomsFrom_literal_append hbody]
    exact List.Subset.refl _
  | atom hatom hrest _ =>
    rw [atoms_atom_append hatom hrest]
    exact subset_cons_self _ _
  | nil => exact List.Subset.refl _
  | @item v vs cs blanks more rest _ hblanks _ ihv ihvs =>
    rw [append_assoc blanks, atoms_blanks_append hblanks] at ihv
    simpa using List.Subset.trans ihvs ihv

/-! ## Atoms and literals as they are read -/

theorem digitsValue_eq_ofDigits {values : List Nat}
    (h : digits.map Text.digitValue? = values.map some) :
    Text.digitsValue digits = Nat.ofDigits 10 values.reverse := by
  induction digits using List.reverseRecOn generalizing values with
  | nil =>
    obtain rfl : values = [] := by simpa using h.symm
    rfl
  | append_singleton digits c ih =>
    rw [map_append] at h
    obtain ⟨front, last, rfl, hfront, hlast⟩ := map_eq_append_iff.mp h.symm
    obtain ⟨value, rfl, hvalue⟩ : ∃ value, last = [value] ∧ Text.digitValue? c = some value := by
      cases last with
      | nil => simp at hlast
      | cons value more => exact ⟨value, by simpa [and_comm] using hlast.symm⟩
    rw [Text.digitsValue_append_singleton, ih hfront.symm, hvalue]
    simp [Nat.ofDigits_cons, Nat.add_comm]

/-- Decimal digits have values. -/
theorem exists_digitValues (h : ∀ c ∈ digits, Text.isDigit c = true) :
    ∃ values : List Nat, digits.map Text.digitValue? = values.map some := by
  induction digits with
  | nil => exact ⟨[], rfl⟩
  | cons c digits ih =>
    obtain ⟨values, hvalues⟩ := ih fun d hd => h d (mem_cons_of_mem c hd)
    obtain ⟨value, hvalue⟩ := Option.isSome_iff_exists.mp (h c mem_cons_self)
    exact ⟨value :: values, by simp [hvalue, hvalues]⟩

theorem isDigit_of_digitValues {values : List Nat}
    (h : digits.map Text.digitValue? = values.map some) : ∀ c ∈ digits, Text.isDigit c = true := by
  intro c hc
  obtain ⟨value, _, hvalue⟩ := mem_map.mp (h ▸ mem_map_of_mem hc)
  rw [Text.isDigit, ← hvalue]
  rfl

/-- An atom is read as what it denotes, unless it is an integer with too many digits. -/
theorem atomValue_of_denotes (h : Denotes cs v)
    (hshort : ∀ found ∈ integerDigits? cs, found.2.length ≤ Text.digitLimit) :
    atomValue cs = .ok v := by
  cases h with
  | natural hne hvalues =>
    have hdigits := (integerDigits?_digits hne (isDigit_of_digitValues hvalues)).1
    rw [atomValue, hdigits]
    simp [Nat.not_lt.mpr (hshort _ hdigits), digitsValue_eq_ofDigits hvalues]
  | @negative digits values hne hvalues =>
    have hdigits := (integerDigits?_digits hne (isDigit_of_digitValues hvalues)).2
    rw [atomValue, hdigits]
    simp [Nat.not_lt.mpr (hshort _ hdigits), digitsValue_eq_ofDigits hvalues]
  | symbol hnum => exact atomValue_of_not_numeral hnum

theorem denotes_of_atomValue (h : atomValue cs = .ok v) : Denotes cs v := by
  unfold atomValue at h
  split at h
  · rename_i hnone
    cases h
    exact .symbol ((integerDigits?_eq_none_iff cs).mp hnone)
  · rename_i sign digits hsome
    split at h
    · cases h
    · cases h
      obtain ⟨hne, hdigits, hsign⟩ := integerDigits?_eq_some hsome
      obtain ⟨values, hvalues⟩ := exists_digitValues hdigits
      rw [digitsValue_eq_ofDigits hvalues]
      rcases hsign with ⟨rfl, rfl⟩ | ⟨rfl, rfl⟩
      · simpa using Denotes.natural hne hvalues
      · simpa using Denotes.negative hne hvalues

theorem readLiteral_of_literal {body s : List Char} (h : Literal body s) (rest : List Char) :
    readLiteral (body ++ '\x22' :: rest) = .ok (s, rest) := by
  induction h with
  | nil => rfl
  | plain hquote hslash _ ih =>
    rw [cons_append, readLiteral, ih]
    · exact fun h => hquote h
    · exact fun h _ => hslash h
    · exact fun _ _ h _ => hslash h
  | newline _ ih =>
    rw [cons_append, cons_append, readLiteral, ih]
    rfl
  | escaped hc _ ih =>
    rw [cons_append, cons_append, readLiteral, ih]
    simp [unescape, hc]

theorem literal_of_readLiteral {s : List Char} (h : readLiteral cs = .ok (s, rest)) :
    ∃ body, cs = body ++ '\x22' :: rest ∧ Literal body s := by
  fun_induction readLiteral cs generalizing s with
  | case1 => cases h
  | case2 rest' =>
    cases h
    exact ⟨[], rfl, .nil⟩
  | case3 => cases h
  | case4 c cs' read rest' hread ih =>
    cases h
    obtain ⟨body, rfl, hbody⟩ := ih hread
    refine ⟨'\\' :: c :: body, rfl, ?_⟩
    by_cases hc : c = 'n'
    · subst hc
      exact .newline hbody
    · rw [unescape, if_neg hc]
      exact .escaped hc hbody
  | case5 => cases h
  | case6 c cs' hquote hlast hslash read rest' hread ih =>
    cases h
    obtain ⟨body, rfl, hbody⟩ := ih hread
    refine ⟨c :: body, rfl, .plain hquote ?_ hbody⟩
    -- a backslash with something after it was the case before
    rintro rfl
    cases body with
    | nil => exact hslash _ _ rfl rfl
    | cons d body => exact hslash _ _ rfl rfl
  | case7 => cases h

/-! ## What is read is written -/

theorem exists_blanks (cs : List Char) :
    ∃ blanks, cs = blanks ++ Text.skipBlanks cs ∧ Blanks blanks :=
  ⟨cs.takeWhile Text.isBlank, takeWhile_append_dropWhile.symm, fun _ hc =>
    all_eq_true.mp all_takeWhile _ hc⟩

/-- A character that no other kind of value begins with begins an atom. -/
theorem isAtom_takeWhile (hcs : Unblanked cs) (hnil : cs ≠ [])
    (hopen : ∀ r, cs ≠ '(' :: r) (hclose : ∀ r, cs ≠ ')' :: r) (hquote : ∀ r, cs ≠ '\x22' :: r) :
    IsAtom (cs.takeWhile isAtomChar) := by
  refine (isAtom_iff _).mpr ⟨?_, fun c hc => all_eq_true.mp all_takeWhile c hc⟩
  cases cs with
  | nil => exact absurd rfl hnil
  | cons c cs =>
    have hc : isAtomChar c = true := by
      refine (isAtomChar_iff c).mpr ⟨hcs c rfl, ?_, ?_, ?_⟩
      · rintro rfl; exact hopen cs rfl
      · rintro rfl; exact hclose cs rfl
      · rintro rfl; exact hquote cs rfl
    simp [hc]

theorem separated_dropWhile (cs : List Char) : Separated (cs.dropWhile isAtomChar) := by
  intro c hc
  have hhead := List.head?_dropWhile_not isAtomChar cs
  rw [Option.mem_def.mp hc] at hhead
  simpa using hhead

/-- Values and items that are read are well-formed, nest no deeper than there was room for, and are
written by the text that was used up. The induction is on the steps that are left to the two
readers, which call each other. -/
theorem writes_of_read (total bound : Nat) :
    (∀ room cs v rest, Unblanked cs → readValue total room bound cs = .ok (v, rest) →
      WellFormed v ∧ depth v ≤ room ∧ ∃ used, cs = used ++ rest ∧ Writes (.value v) used rest) ∧
    ∀ room cs vs rest, Unblanked cs → readItems total room bound cs = .ok (vs, rest) →
      (∀ v ∈ vs, WellFormed v) ∧ depthAmong vs ≤ room ∧
        ∃ used, cs = used ++ ')' :: rest ∧ Writes (.items vs) used (')' :: rest) := by
  induction bound with
  | zero =>
    constructor
    · intro room cs v rest _ h
      rw [readValue] at h
      cases h
    · intro room cs vs rest _ h
      rw [readItems] at h
      cases h
  | succ bound ih =>
    obtain ⟨ihvalue, ihitems⟩ := ih
    constructor
    · intro room cs v rest hcs h
      rw [readValue.eq_def] at h
      dsimp only at h
      split at h
      · cases h
      · rename_i inner
        split at h
        · cases h
        · split at h
          · rename_i vs _ hitems
            cases h
            obtain ⟨hformed, hdepth, body, hbody, hwrites⟩ :=
              ihitems _ _ vs _ (unblanked_skipBlanks inner) hitems
            obtain ⟨lead, hlead, hblanks⟩ := exists_blanks inner
            refine ⟨.list vs hformed, Nat.succ_le_succ hdepth, _, ?_, .list hblanks hwrites⟩
            rw [hlead, hbody]
            simp
          · cases h
      · cases h
      · split at h
        · rename_i s _ hliteral
          cases h
          obtain ⟨body, rfl, hbody⟩ := literal_of_readLiteral hliteral
          exact ⟨.str _, Nat.zero_le _, _, by simp, .string hbody⟩
        · cases h
      · rename_i hnil hopen hclose hquote
        split at h
        · rename_i w hatom
          cases h
          have hrun := isAtom_takeWhile hcs hnil hopen hclose hquote
          refine ⟨wellFormed_of_atomValue hrun hatom, ?_, _, takeWhile_append_dropWhile.symm,
            .atom hrun (separated_dropWhile cs) (denotes_of_atomValue hatom)⟩
          rw [depth_of_atomValue hatom]
          exact Nat.zero_le _
        · cases h
    · intro room cs vs rest hcs h
      rw [readItems.eq_def] at h
      dsimp only at h
      split at h
      · cases h
      · cases h
        exact ⟨forall_mem_nil _, Nat.zero_le _, [], rfl, .nil⟩
      · split at h
        · cases h
        · rename_i v after hvalue
          split at h
          · rename_i ws _ hitems
            cases h
            obtain ⟨hformed, hdepth, used, hused, hv⟩ := ihvalue room cs v after hcs hvalue
            obtain ⟨hformeds, hdepths, more, hmore, hws⟩ :=
              ihitems room _ ws _ (unblanked_skipBlanks after) hitems
            obtain ⟨blanks, hafter, hblanks⟩ := exists_blanks after
            rw [hmore] at hafter
            refine ⟨forall_mem_cons.2 ⟨hformed, hformeds⟩, max_le hdepth hdepths,
              used ++ blanks ++ more, ?_, .item ?_ hblanks hws⟩
            · rw [hused, hafter]
              simp
            · rw [append_assoc, ← hafter]
              exact hv
          · cases h

/-! ## What is written is read -/

/-- A value begins neither with white space nor with a closing parenthesis. -/
theorem Writes.head (h : Writes (.value v) cs rest) :
    ∃ c more, cs = c :: more ∧ Text.isBlank c = false ∧ c ≠ ')' := by
  cases h with
  | list _ _ => exact ⟨'(', _, rfl, by decide, by decide⟩
  | string _ => exact ⟨'\x22', _, rfl, by decide, by decide⟩
  | atom hatom _ _ =>
    cases cs with
    | nil => exact absurd rfl hatom.1
    | cons c more =>
      obtain ⟨hblank, _, hclose, _⟩ := hatom.2 c mem_cons_self
      exact ⟨c, more, rfl, hblank, hclose⟩

theorem Writes.unblanked (h : Writes (.value v) cs rest) (more : List Char) :
    Unblanked (cs ++ more) := by
  obtain ⟨c, cs, rfl, hblank, _⟩ := h.head
  intro d hd
  cases hd
  exact hblank

/-- The items of a list and its closing parenthesis do not begin with white space. -/
theorem Writes.unblanked_items {vs : List Value} (h : Writes (.items vs) cs (')' :: rest)) :
    Unblanked (cs ++ ')' :: rest) := by
  cases h with
  | nil =>
    intro d hd
    cases hd
    decide
  | item hv _ _ =>
    rw [append_assoc, append_assoc]
    exact hv.unblanked _

theorem skipBlanks_append (hblanks : Blanks blanks) (hcs : Unblanked cs) :
    Text.skipBlanks (blanks ++ cs) = cs := by
  rw [Text.skipBlanks, dropWhile_append_of_pos hblanks]
  exact skipBlanks_of_unblanked hcs

theorem Legible.mono {a b : List Char} (h : Legible b) (hsub : atoms a ⊆ atoms b) : Legible a :=
  fun atom hatom => h atom (hsub hatom)

/-- What reading should yield, if there is room for it. -/
def fitting {α : Type} (depth room : Nat) (a : α) : Except Fault α :=
  if depth ≤ room then .ok a else .error .tooDeep

/-- What a phrase demands of the reader, given enough steps for the text that writes it. -/
def Phrase.IsRead (cs rest : List Char) : Phrase → Prop
  | .value v => ∀ total room bound, 2 * cs.length ≤ bound →
    readValue total room bound (cs ++ rest) = fitting (depth v) room (v, rest)
  | .items vs => ∀ total room bound after, 2 * cs.length + 1 ≤ bound → rest = ')' :: after →
    readItems total room bound (cs ++ rest) = fitting (depthAmong vs) room (vs, after)

/-- One item is read, and then the items after it. -/
theorem readItems_item {vs : List Value} {more after : List Char} {total room bound : Nat}
    (hv : Writes (.value v) cs (blanks ++ more ++ ')' :: after)) (hblanks : Blanks blanks)
    (hvs : Writes (.items vs) more (')' :: after))
    (hvalue : readValue total room bound (cs ++ (blanks ++ more ++ ')' :: after)) =
      fitting (depth v) room (v, blanks ++ more ++ ')' :: after))
    (hitems : readItems total room bound (more ++ ')' :: after) =
      fitting (depthAmong vs) room (vs, after)) :
    readItems total room (bound + 1) (cs ++ (blanks ++ more ++ ')' :: after)) =
      fitting (depthAmong (v :: vs)) room (v :: vs, after) := by
  obtain ⟨c, r, rfl, _, hclose⟩ := hv.head
  have hdepth : depthAmong (v :: vs) ≤ room ↔ depth v ≤ room ∧ depthAmong vs ≤ room := max_le_iff
  rw [cons_append] at hvalue ⊢
  rw [readItems, hvalue]
  · by_cases hfirst : depth v ≤ room
    · simp only [fitting, hfirst, if_true, append_assoc,
        skipBlanks_append hblanks hvs.unblanked_items, hitems]
      by_cases hothers : depthAmong vs ≤ room <;> simp [hdepth, hfirst, hothers]
    · simp [fitting, hdepth, hfirst]
  · simp
  · intro r' h
    exact hclose (List.cons.inj h).1

/-- Every phrase is read from the text that writes it, if no integer is too long and there is room
for its lists. -/
theorem isRead_of_writes {p : Phrase} (h : Writes p cs rest) (hlegible : Legible (cs ++ rest)) :
    p.IsRead cs rest := by
  induction h with
  | @list vs lead body rest hlead hitems ih =>
    intro total room bound hbound
    have hinner : Legible (body ++ ')' :: rest) := by
      refine hlegible.mono ?_
      rw [cons_append, append_assoc, append_assoc, atoms_cons_delimiter (by decide) (by decide),
        atoms_blanks_append hlead, singleton_append]
      exact List.Subset.refl _
    simp only [length_cons, length_append, length_nil] at hbound
    obtain ⟨b, rfl⟩ : ∃ b, bound = b + 1 := ⟨bound - 1, by omega⟩
    rw [cons_append, append_assoc, append_assoc, singleton_append]
    cases room with
    | zero =>
      rw [readValue]
      exact (if_neg (Nat.not_succ_le_zero _)).symm
    | succ room =>
      rw [readValue, skipBlanks_append hlead hitems.unblanked_items,
        ih hinner total room b rest (by omega) rfl]
      by_cases hroom : depthAmong vs ≤ room <;> simp [fitting, depth, hroom]
  | @string s body rest hbody =>
    intro total room bound hbound
    obtain ⟨b, rfl⟩ : ∃ b, bound = b + 1 := ⟨bound - 1, by simp at hbound; omega⟩
    rw [cons_append, append_assoc, singleton_append, readValue, readLiteral_of_literal hbody]
    exact (if_pos (Nat.zero_le _)).symm
  | @atom v cs rest hatom hrest hv =>
    intro total room bound hbound
    have hpos := length_pos_iff.mpr hatom.1
    obtain ⟨b, rfl⟩ : ∃ b, bound = b + 1 := ⟨bound - 1, by omega⟩
    have hshort := hlegible cs (by rw [atoms_atom_append hatom hrest]; exact mem_cons_self)
    have hvalue := atomValue_of_denotes hv hshort
    rw [readValue_atom hatom hrest, hvalue, depth_of_atomValue hvalue]
    exact (if_pos (Nat.zero_le _)).symm
  | nil =>
    rintro total room bound after hbound rfl
    obtain ⟨b, rfl⟩ : ∃ b, bound = b + 1 := ⟨bound - 1, by omega⟩
    rw [nil_append, readItems]
    exact (if_pos (Nat.zero_le _)).symm
  | @item v vs cs blanks more rest hv hblanks hvs ihv ihvs =>
    rintro total room bound after hbound rfl
    simp only [length_append] at hbound
    obtain ⟨c, r, hcs, _, _⟩ := hv.head
    have hpos : 0 < cs.length := by rw [hcs]; exact Nat.succ_pos _
    obtain ⟨b, rfl⟩ : ∃ b, bound = b + 1 := ⟨bound - 1, by omega⟩
    rw [append_assoc, append_assoc, ← append_assoc blanks] at hlegible ⊢
    have hmore : Legible (more ++ ')' :: after) := by
      refine hlegible.mono (List.Subset.trans ?_ (atoms_subset_of_writes hv))
      rw [append_assoc, atoms_blanks_append hblanks]
      exact List.Subset.refl _
    exact readItems_item hv hblanks hvs (ihv hlegible total room b (by omega))
      (ihvs hmore total room b after (by omega) rfl)

/-! ## Texts that are not read -/

theorem readLiteral_error {f : Fault} (h : readLiteral cs = .error f) : f = .unterminated := by
  fun_induction readLiteral cs with
  | case1 => cases h; rfl
  | case2 => cases h
  | case3 => cases h; rfl
  | case4 => cases h
  | case5 _ _ _ hread ih => cases h; exact ih hread
  | case6 => cases h
  | case7 _ _ _ _ _ _ hread ih => cases h; exact ih hread

theorem atomValue_error {f : Fault} (h : atomValue cs = .error f) :
    f = .hugeInteger ∧ ∃ found ∈ integerDigits? cs, Text.digitLimit < found.2.length := by
  unfold atomValue at h
  split at h
  · cases h
  · rename_i sign digits hsome
    split at h
    · rename_i hlong
      cases h
      exact ⟨rfl, _, hsome, hlong⟩
    · cases h

/-- The length of an integer stops the readers only where the text has an integer that is too
long. -/
theorem not_legible_of_read (total bound : Nat) :
    (∀ room cs, Unblanked cs → readValue total room bound cs = .error .hugeInteger → ¬ Legible cs) ∧
      ∀ room cs, Unblanked cs →
        readItems total room bound cs = .error .hugeInteger → ¬ Legible cs := by
  induction bound with
  | zero =>
    constructor
    · intro room cs _ h
      rw [readValue] at h
      cases h
    · intro room cs _ h
      rw [readItems] at h
      cases h
  | succ bound ih =>
    obtain ⟨ihvalue, ihitems⟩ := ih
    have hskip : ∀ cs, atoms (Text.skipBlanks cs) = atoms cs := by
      intro cs
      obtain ⟨blanks, hcs, hblanks⟩ := exists_blanks cs
      rw [← atoms_blanks_append hblanks, ← hcs]
    constructor
    · intro room cs hcs h hlegible
      rw [readValue.eq_def] at h
      dsimp only at h
      split at h
      · cases h
      · rename_i inner
        split at h
        · cases h
        · split at h
          · cases h
          · rename_i hitems
            cases h
            refine ihitems _ _ (unblanked_skipBlanks inner) hitems ?_
            rwa [Legible, hskip, ← atoms_cons_delimiter (c := '(') (by decide) (by decide)]
      · cases h
      · split at h
        · cases h
        · rename_i hliteral
          cases h
          cases readLiteral_error hliteral
      · rename_i hnil hopen hclose hquote
        split at h
        · cases h
        · rename_i hatom
          obtain ⟨-, found, hfound, hlong⟩ := atomValue_error hatom
          have hmem : cs.takeWhile isAtomChar ∈ atoms cs := by
            rw [← takeWhile_append_dropWhile (p := isAtomChar) (l := cs),
              atoms_atom_append (isAtom_takeWhile hcs hnil hopen hclose hquote)
                (separated_dropWhile cs), takeWhile_append_dropWhile]
            exact mem_cons_self
          exact absurd (hlegible _ hmem found hfound) (Nat.not_le.mpr hlong)
    · intro room cs hcs h hlegible
      rw [readItems.eq_def] at h
      dsimp only at h
      split at h
      · cases h
      · cases h
      · split at h
        · rename_i hvalue
          cases h
          exact ihvalue room cs hcs hvalue hlegible
        · rename_i v after hvalue
          split at h
          · cases h
          · rename_i hitems
            cases h
            obtain ⟨-, -, used, rfl, hv⟩ :=
              (writes_of_read total bound).1 room cs v after hcs hvalue
            refine ihitems room _ (unblanked_skipBlanks after) hitems (hlegible.mono ?_)
            rw [hskip]
            exact atoms_subset_of_writes hv

/-- A text that does not decode stops the reader, or has something after its value. -/
theorem decodeWithin_error {room : Nat} {f : Fault} (h : decodeWithin room text = .error f) :
    readValue text.length room (2 * text.length + 1) (Text.skipBlanks text) = .error f ∨
      ∃ offset excerpt, f = .trailing offset excerpt := by
  unfold decodeWithin at h
  split at h
  · unfold ensureEnd at h
    split at h
    · cases h
    · cases h
      exact .inr ⟨_, _, rfl⟩
  · rename_i hread
    cases h
    exact .inl hread

theorem not_legible_of_decode {room : Nat} (h : decodeWithin room text = .error .hugeInteger) :
    ¬ Legible text := by
  obtain hread | ⟨_, _, hfault⟩ := decodeWithin_error h
  · intro hlegible
    obtain ⟨blanks, htext, hblanks⟩ := exists_blanks text
    refine (not_legible_of_read _ _).1 room _ (unblanked_skipBlanks text) hread ?_
    rwa [Legible, ← atoms_blanks_append hblanks, ← htext]
  · cases hfault

/-! ## Places that the reader comes to -/

/-- What the reader looks for at a place. -/
inductive Quest where
  | value
  /-- the next item of a list, or its end -/
  | item

/-- While it decodes a text, the reader may come to a place inside a number of lists and look for
something there. The numbers of steps do not matter. -/
inductive Visits (text : List Char) : Nat → Quest → List Char → Prop where
  | start : Visits text 0 .value (Text.skipBlanks text)
  | enter {n : Nat} {rest : List Char} (h : Visits text n .value ('(' :: rest)) :
      Visits text (n + 1) .item (Text.skipBlanks rest)
  | begin {n : Nat} {cs : List Char} (h : Visits text n .item cs) (hnil : cs ≠ [])
      (hclose : ∀ r, cs ≠ ')' :: r) : Visits text n .value cs
  | next {n : Nat} {cs rest : List Char} {v : Value} {total room bound : Nat}
    (h : Visits text n .item cs) (hread : readValue total room bound cs = .ok (v, rest)) :
    Visits text n .item (Text.skipBlanks rest)

theorem Visits.unblanked {n : Nat} {q : Quest} (h : Visits text n q cs) : Unblanked cs := by
  induction h with
  | start => exact unblanked_skipBlanks text
  | enter _ _ => exact unblanked_skipBlanks _
  | begin _ _ _ ih => exact ih
  | next _ _ _ => exact unblanked_skipBlanks _

/-- The stack is full only where a list begins inside as many others as there is room for. -/
theorem visits_of_read (total bound : Nat) :
    (∀ n room cs, Visits text n .value cs → readValue total room bound cs = .error .tooDeep →
      ∃ rest, Visits text (n + room) .value ('(' :: rest)) ∧
    ∀ n room cs, Visits text n .item cs → readItems total room bound cs = .error .tooDeep →
      ∃ rest, Visits text (n + room) .value ('(' :: rest) := by
  induction bound with
  | zero =>
    constructor
    · intro n room cs _ h
      rw [readValue] at h
      cases h
    · intro n room cs _ h
      rw [readItems] at h
      cases h
  | succ bound ih =>
    obtain ⟨ihvalue, ihitems⟩ := ih
    constructor
    · intro n room cs hcs h
      rw [readValue.eq_def] at h
      dsimp only at h
      split at h
      · cases h
      · split at h
        · exact ⟨_, hcs⟩
        · rename_i room
          split at h
          · cases h
          · rename_i hitems
            cases h
            rw [← Nat.succ_add_eq_add_succ]
            exact ihitems _ room _ hcs.enter hitems
      · cases h
      · split at h
        · cases h
        · rename_i hliteral
          cases h
          cases readLiteral_error hliteral
      · split at h
        · cases h
        · rename_i hatom
          cases h
          cases (atomValue_error hatom).1
    · intro n room cs hcs h
      rw [readItems.eq_def] at h
      dsimp only at h
      split at h
      · cases h
      · cases h
      · rename_i hnil hclose
        split at h
        · rename_i hvalue
          cases h
          exact ihvalue n room cs (hcs.begin hnil hclose) hvalue
        · rename_i v after hvalue
          split at h
          · cases h
          · rename_i hitems
            cases h
            exact ihitems n room _ (hcs.next hvalue) hitems

/-! ## Documents -/

variable {room : Nat}

/-- A value that a text decodes to is well-formed, there was room for it, and the text is a document
of it. -/
theorem document_of_decode (h : decodeWithin room text = .ok v) :
    WellFormed v ∧ depth v ≤ room ∧ IsDocument text v := by
  unfold decodeWithin at h
  split at h
  · rename_i w rest hread
    obtain ⟨hformed, hdepth, used, hused, hwrites⟩ :=
      (writes_of_read _ _).1 room _ w rest (unblanked_skipBlanks text) hread
    obtain ⟨before, hbefore, hblanks⟩ := exists_blanks text
    unfold ensureEnd at h
    split at h
    · rename_i hend
      cases h
      refine ⟨hformed, hdepth, before, used, rest, ?_, hblanks, ?_, hwrites⟩
      · rw [append_assoc, ← hused]
        exact hbefore
      · rwa [Text.skipBlanks, dropWhile_eq_nil_iff] at hend
    · cases h
  · cases h

/-- A document is decoded to what it denotes, if no integer is too long and there is room for its
lists. -/
theorem decode_of_isDocument (hlegible : Legible text) (h : IsDocument text v) :
    decodeWithin room text = fitting (depth v) room v := by
  obtain ⟨before, cs, after, rfl, hbefore, hafter, hwrites⟩ := h
  rw [append_assoc] at hlegible ⊢
  have hskip : Text.skipBlanks (before ++ (cs ++ after)) = cs ++ after :=
    skipBlanks_append hbefore (hwrites.unblanked after)
  have hinner : Legible (cs ++ after) := by rwa [Legible, ← atoms_blanks_append hbefore]
  have hread := isRead_of_writes hwrites hinner (before ++ (cs ++ after)).length room
    (2 * (before ++ (cs ++ after)).length + 1) (by simp only [length_append]; omega)
  have hend : Text.skipBlanks after = [] := by
    rw [Text.skipBlanks, dropWhile_eq_nil_iff]
    exact hafter
  rw [decodeWithin, hskip, hread]
  by_cases hroom : depth v ≤ room <;> simp [fitting, hroom, ensureEnd, hend]

/-- Decoding a text without overlong integers yields a value exactly if the text is a document that
denotes it and there is room for its lists, and there is at most one such value. A document that
nests deeper fills the stack. Any other text ends in a fault of its form, or in the full stack where
a list begins inside as many others as there is room for. Wherever the reader looks for an atom it
finds one. -/
theorem decode_eq_ok_iff_isDocument (room : Nat) (text : List Char) (hlegible : Legible text) :
    (∀ v, decodeWithin room text = .ok v ↔ IsDocument text v ∧ depth v ≤ room) ∧
      (∀ v w, IsDocument text v → IsDocument text w → v = w) ∧
      (∀ v, IsDocument text v → room < depth v → decodeWithin room text = .error .tooDeep) ∧
      ((¬ ∃ v, IsDocument text v) → ∃ f, decodeWithin room text = .error f ∧ f ≠ .hugeInteger ∧
        (f = .tooDeep → ∃ rest, Visits text room .value ('(' :: rest))) ∧
      ∀ n cs, Visits text n .value cs → cs ≠ [] → (∀ r, cs ≠ '(' :: r) → (∀ r, cs ≠ ')' :: r) →
        (∀ r, cs ≠ '\x22' :: r) → IsAtom (cs.takeWhile isAtomChar) := by
  refine ⟨fun v => ⟨fun h => (document_of_decode h).2.symm, ?_⟩, ?_, ?_, ?_, ?_⟩
  · rintro ⟨hdocument, hroom⟩
    rw [decode_of_isDocument hlegible hdocument, fitting, if_pos hroom]
  · intro v w hv hw
    have hdecode : decodeWithin (max (depth v) (depth w)) text = _ :=
      decode_of_isDocument hlegible hv
    rw [decode_of_isDocument hlegible hw, fitting, fitting, if_pos (Nat.le_max_right ..),
      if_pos (Nat.le_max_left ..)] at hdecode
    exact (Except.ok.inj hdecode).symm
  · intro v hdocument hroom
    rw [decode_of_isDocument hlegible hdocument, fitting, if_neg (Nat.not_le_of_lt hroom)]
  · intro hnone
    cases h : decodeWithin room text with
    | ok v => exact absurd ⟨v, (document_of_decode h).2.2⟩ hnone
    | error f =>
      refine ⟨f, rfl, ?_, ?_⟩
      · rintro rfl
        exact not_legible_of_decode h hlegible
      · rintro rfl
        obtain hread | ⟨_, _, hfault⟩ := decodeWithin_error h
        · rw [← Nat.zero_add room]
          exact (visits_of_read _ _).1 0 room _ .start hread
        · cases hfault
  · intro n cs hvisits
    exact isAtom_takeWhile hvisits.unblanked

/-- Tokens without a space between them are read: an atom, a literal with an escaped quote and
newline, and an integer in Arabic digits. For one list inside another there has to be room. -/
theorem decode_eq_ok_iff_isDocument_adjacent :
    Legible ['(', 'a', '\x22', '\\', '\x22', '\\', 'n', '\x22', '-', '١', '٢', ')'] ∧
      decode ['(', 'a', '\x22', '\\', '\x22', '\\', 'n', '\x22', '-', '١', '٢', ')'] =
        .ok (.list [.sym "a", .str "\x22\n", .int (-12)]) ∧
      decodeWithin 1 ['(', '(', ')', ')'] = .error .tooDeep := by
  have hlegible : Legible ['(', 'a', '\x22', '\\', '\x22', '\\', 'n', '\x22', '-', '١', '٢',
    ')'] := by decide
  have hnested : IsDocument ['(', '(', ')', ')'] (.list [.list []]) :=
    ⟨[], _, [], rfl, nofun, nofun, @Writes.list _ [] _ _ nofun
      (@Writes.item _ _ _ [] _ _ (@Writes.list _ [] _ _ nofun .nil) nofun .nil)⟩
  refine ⟨hlegible, ((decode_eq_ok_iff_isDocument readRoom _ hlegible).1 _).mpr ⟨?_, by decide⟩,
    (decode_eq_ok_iff_isDocument 1 _ (by decide)).2.2.1 _ hnested (by decide)⟩
  have hsymbol : Writes (.value (.sym "a")) ['a'] ['\x22', '\\', '\x22', '\\', 'n', '\x22', '-',
      '١', '٢', ')'] :=
    .atom (by decide) (by decide)
      (.symbol ((integerDigits?_eq_none_iff _).mp (by decide)))
  have hstring : Writes (.value (.str "\x22\n")) ['\x22', '\\', '\x22', '\\', 'n', '\x22']
      ['-', '١', '٢', ')'] :=
    .string (.escaped (by decide) (.newline .nil))
  have hinteger : Writes (.value (.int (-12))) ['-', '١', '٢'] [')'] :=
    .atom (by decide) (by decide)
      (@Denotes.negative ['١', '٢'] [1, 2] (by decide) (by decide))
  exact ⟨[], _, [], rfl, nofun, nofun, @Writes.list _ [] _ _ nofun
    (@Writes.item _ _ _ [] _ _ hsymbol nofun (@Writes.item _ _ _ [] _ _ hstring nofun
      (@Writes.item _ _ _ [] _ _ hinteger nofun .nil)))⟩

end IdeMode.Sexp
