import Mathlib.Data.List.TakeWhile
import IdeMode.Text.Numeral
set_option autoImplicit false

/-!
# Hexadecimal literals

What the reader of integers takes for a hexadecimal number, as a grammar: blanks around it, a sign,
a base mark, and digits between which single underscores stand. Of ASCII text it reads exactly what
the grammar derives.
-/

namespace IdeMode.Text

open List

/-- The number that hexadecimal digits write, the most significant first; underscores between them
are passed over. -/
def hexNumber (cs : List Char) : Nat := (cs.filterMap hexValue?).foldl (fun n d => 16 * n + d) 0

/-- Hexadecimal digits. One underscore may stand between two of them. -/
inductive HexDigits : List Char → Prop where
  | single {c : Char} (hc : (hexValue? c).isSome = true) : HexDigits [c]
  | cons {c : Char} {cs : List Char} (hc : (hexValue? c).isSome = true) (h : HexDigits cs) :
    HexDigits (c :: cs)
  | apart {c : Char} {cs : List Char} (hc : (hexValue? c).isSome = true) (h : HexDigits cs) :
    HexDigits (c :: '_' :: cs)

/-- The signs of a literal and the units that they stand for. -/
def literalSigns : List (List Char × Int) := [([], 1), (['+'], 1), (['-'], -1)]

/-- What may stand before the digits to say that they are hexadecimal. -/
def hexMarks : List (List Char) := [[], ['0', 'x'], ['0', 'X'], ['0', 'x', '_'], ['0', 'X', '_']]

/-- A hexadecimal literal and the number that it writes. -/
inductive HexLiteral : List Char → Int → Prop where
  | mk {left right sign mark body : List Char} {unit : Int}
    (hblank : ∀ c ∈ left ++ right, isLiteralBlank c = true)
    (hsign : (sign, unit) ∈ literalSigns) (hmark : mark ∈ hexMarks) (hbody : HexDigits body) :
    HexLiteral (left ++ (sign ++ (mark ++ body)) ++ right) (unit * Int.ofNat (hexNumber body))

/-! ## Digits -/

variable {c : Char} {cs : List Char}

theorem ascii_of_hexValue? (hc : (hexValue? c).isSome = true) : c.toNat < 0x80 := by
  have hle : ∀ d : Char, c ≤ d → d.toNat < 0x80 → c.toNat < 0x80 :=
    fun _ hle => Nat.lt_of_le_of_lt hle
  unfold hexValue? at hc
  split at hc
  · next h => exact hle '9' h.2 (by decide)
  · split at hc
    · next h => exact hle 'f' h.2 (by decide)
    · split at hc
      · next h => exact hle 'F' h.2 (by decide)
      · cases hc

/-- What the reader of literals makes of an ASCII character: a digit has its value and is not
blank. -/
theorem literalDigit?_ascii (hc : c.toNat < 0x80) : literalDigit? 16 c = hexValue? c ∧
      ((hexValue? c).isSome = true → isLiteralBlank c = false) := by
  have hall : ∀ n < 0x80, literalDigit? 16 (Char.ofNat n) = hexValue? (Char.ofNat n) ∧
      ((hexValue? (Char.ofNat n)).isSome = true → isLiteralBlank (Char.ofNat n) = false) := by
    decide +kernel
  have h := hall c.toNat hc
  rwa [Char.ofNat_toNat] at h

/-- Digits begin and end with one. -/
theorem HexDigits.ends (h : HexDigits cs) :
    (∃ c rest, cs = c :: rest ∧ (hexValue? c).isSome = true) ∧
    ∃ c, cs.getLast? = some c ∧ (hexValue? c).isSome = true := by
  induction h with
  | single hc => exact ⟨⟨_, _, rfl, hc⟩, _, rfl, hc⟩
  | cons hc _ ih =>
    obtain ⟨⟨_, _, rfl, -⟩, hlast⟩ := ih
    exact ⟨⟨_, _, rfl, hc⟩, hlast⟩
  | apart hc _ ih =>
    obtain ⟨⟨_, _, rfl, -⟩, hlast⟩ := ih
    exact ⟨⟨_, _, rfl, hc⟩, hlast⟩

theorem literalDigits?_eq_some_iff {ds : List Nat} (hascii : ∀ c ∈ cs, c.toNat < 0x80) :
    literalDigits? 16 cs = some ds ↔ HexDigits cs ∧ ds = cs.filterMap hexValue? := by
  constructor
  · intro h
    fun_induction literalDigits? 16 cs generalizing ds with
    | case1 => cases h
    | case2 c =>
      obtain ⟨d, hd, rfl⟩ := Option.map_eq_some_iff.1 h
      rw [(literalDigit?_ascii (hascii c mem_cons_self)).1] at hd
      exact ⟨.single (hd ▸ rfl), by simp [hd]⟩
    | case3 c rest d ds' hrest hc ih =>
      cases h
      obtain ⟨hfirst, htail⟩ := forall_mem_cons.1 hascii
      rw [(literalDigit?_ascii hfirst).1] at hc
      obtain ⟨hdigits, rfl⟩ := ih (forall_mem_cons.1 htail).2 hrest
      exact ⟨.apart (hc ▸ rfl) hdigits, by simp [hc, show hexValue? '_' = none from rfl]⟩
    | case4 => cases h
    | case5 c rest hne hunder d ds' hrest hc ih =>
      cases h
      obtain ⟨hfirst, htail⟩ := forall_mem_cons.1 hascii
      rw [(literalDigit?_ascii hfirst).1] at hc
      obtain ⟨hdigits, rfl⟩ := ih htail hrest
      exact ⟨.cons (hc ▸ rfl) hdigits, by simp [hc]⟩
    | case6 => cases h
  · rintro ⟨h, rfl⟩
    induction h with
    | single hc =>
      obtain ⟨d, hd⟩ := Option.isSome_iff_exists.1 hc
      simp [literalDigits?, (literalDigit?_ascii (hascii _ mem_cons_self)).1, hd]
    | cons hc h ih =>
      obtain ⟨hfirst, hrest⟩ := forall_mem_cons.1 hascii
      obtain ⟨e, rest, rfl, he⟩ := h.ends.1
      obtain ⟨d, hd⟩ := Option.isSome_iff_exists.1 hc
      rw [literalDigits?, (literalDigit?_ascii hfirst).1, hd, ih hrest, filterMap_cons_some hd]
      · rintro ⟨⟩
      · rintro _ ⟨⟩
        cases he
    | apart hc h ih =>
      obtain ⟨hfirst, hrest⟩ := forall_mem_cons.1 hascii
      obtain ⟨d, hd⟩ := Option.isSome_iff_exists.1 hc
      rw [literalDigits?, (literalDigit?_ascii hfirst).1, hd, ih (forall_mem_cons.1 hrest).2,
        filterMap_cons_some hd, filterMap_cons_none rfl]

/-! ## What stands around the digits -/

theorem exists_trimBy (drops : Char → Bool) (cs : List Char) :
    ∃ left right, cs = left ++ trimBy drops cs ++ right ∧ ∀ c ∈ left ++ right, drops c = true := by
  refine ⟨cs.takeWhile drops, ((cs.dropWhile drops).reverse.takeWhile drops).reverse, ?_, ?_⟩
  · rw [trimBy, append_assoc, ← reverse_append, takeWhile_append_dropWhile, reverse_reverse,
      takeWhile_append_dropWhile]
  · intro c hc
    rw [mem_append, mem_reverse] at hc
    exact hc.elim mem_takeWhile_imp mem_takeWhile_imp

/-- A text that neither begins nor ends with what is dropped is what trimming leaves. -/
theorem trimBy_append {drops : Char → Bool} {left core right : List Char} {d : Char}
    (hdrop : ∀ c ∈ left ++ right, drops c = true) (hfirst : core.head? = some c)
    (hc : drops c = false) (hlast : core.getLast? = some d) (hd : drops d = false) :
    trimBy drops (left ++ core ++ right) = core := by
  have hstop : ∀ {l : List Char} {c : Char} (rest : List Char), l.head? = some c → drops c = false →
      (l ++ rest).dropWhile drops = l ++ rest := by
    intro l c rest hl hc
    obtain ⟨tail, rfl⟩ := List.head?_eq_some_iff.1 hl
    exact dropWhile_cons_of_neg (by rw [hc]; decide)
  have hright : ∀ c ∈ right.reverse, drops c = true := fun c hc =>
    hdrop c (mem_append_right _ (mem_reverse.1 hc))
  have hback := hstop [] (List.head?_reverse.trans hlast) hd
  rw [append_nil] at hback
  rw [trimBy, append_assoc, dropWhile_append_of_pos fun c hc => hdrop c (mem_append_left _ hc),
    hstop right hfirst hc, reverse_append, dropWhile_append_of_pos hright, hback, reverse_reverse]

theorem literalSign_spec (cs : List Char) :
    ∃ sign, (sign, (literalSign cs).1) ∈ literalSigns ∧ cs = sign ++ (literalSign cs).2 := by
  unfold literalSign
  split
  · exact ⟨['-'], by simp [literalSigns], rfl⟩
  · exact ⟨['+'], by simp [literalSigns], rfl⟩
  · exact ⟨[], by simp [literalSigns], rfl⟩

theorem dropBaseMark_spec (cs : List Char) :
    ∃ mark ∈ hexMarks, cs = mark ++ dropBaseMark 16 cs := by
  unfold dropBaseMark
  split
  · split
    · next hx =>
      obtain ⟨-, rfl | rfl⟩ := hx
      all_goals split
      · exact ⟨['0', 'x', '_'], by decide, rfl⟩
      · exact ⟨['0', 'x'], by decide, rfl⟩
      · exact ⟨['0', 'X', '_'], by decide, rfl⟩
      · exact ⟨['0', 'X'], by decide, rfl⟩
    · exact ⟨[], by decide, rfl⟩
  · exact ⟨[], by decide, rfl⟩

/-- A base mark is dropped, and digits have none of their own. -/
theorem dropBaseMark_append {mark body : List Char} (hmark : mark ∈ hexMarks) (h : HexDigits body) :
    dropBaseMark 16 (mark ++ body) = body ∧
      ∃ c rest, mark ++ body = c :: rest ∧ (hexValue? c).isSome = true := by
  obtain ⟨c, rest, rfl, hc⟩ := h.ends.1
  have hunder : c ≠ '_' := by
    rintro rfl
    cases hc
  simp only [hexMarks, mem_cons, not_mem_nil, or_false] at hmark
  obtain rfl | rfl | rfl | rfl | rfl := hmark
  · refine ⟨?_, c, rest, rfl, hc⟩
    rw [nil_append]
    unfold dropBaseMark
    split
    · next x tail heq =>
      obtain ⟨rfl, rfl⟩ := List.cons.inj heq
      refine if_neg ?_
      rintro ⟨-, rfl | rfl⟩
      all_goals
        cases h with
        | cons _ h =>
          obtain ⟨_, _, heq, he⟩ := h.ends.1
          cases heq
          cases he
    · rfl
  · exact ⟨by simp [dropBaseMark, hunder], '0', _, rfl, rfl⟩
  · exact ⟨by simp [dropBaseMark, hunder], '0', _, rfl, rfl⟩
  · exact ⟨rfl, '0', _, rfl, rfl⟩
  · exact ⟨rfl, '0', _, rfl, rfl⟩

/-- A sign is split off what begins with a digit, and neither begins with a blank. -/
theorem literalSign_append {sign : List Char} {unit : Int} (hsign : (sign, unit) ∈ literalSigns)
    (hc : (hexValue? c).isSome = true) (rest : List Char) :
    literalSign (sign ++ c :: rest) = (unit, c :: rest) ∧
      ∃ d, (sign ++ c :: rest).head? = some d ∧ isLiteralBlank d = false := by
  have hbare := (literalDigit?_ascii (ascii_of_hexValue? hc)).2 hc
  simp only [literalSigns, mem_cons, Prod.mk.injEq, not_mem_nil, or_false] at hsign
  obtain ⟨rfl, rfl⟩ | ⟨rfl, rfl⟩ | ⟨rfl, rfl⟩ := hsign
  · refine ⟨?_, c, rfl, hbare⟩
    rw [nil_append, literalSign]
    all_goals
      rintro _ ⟨⟩
      cases hc
  · exact ⟨rfl, '+', rfl, by decide⟩
  · exact ⟨rfl, '-', rfl, by decide⟩

/-- Of ASCII text the literals are read, with their numbers, and nothing else. -/
theorem integerLiteral?_eq_some_iff {n : Int} (hascii : ∀ c ∈ cs, c.toNat < 0x80) :
    integerLiteral? 16 cs = some n ↔ HexLiteral cs n := by
  constructor
  · intro h
    obtain ⟨left, right, hcs, hblank⟩ := exists_trimBy isLiteralBlank cs
    obtain ⟨sign, hsign, htrimmed⟩ := literalSign_spec (trimBy isLiteralBlank cs)
    obtain ⟨mark, hmark, hmarked⟩ := dropBaseMark_spec (literalSign (trimBy isLiteralBlank cs)).2
    rw [htrimmed, hmarked] at hcs
    unfold integerLiteral? at h
    dsimp only at h
    split at h
    · cases h
    · next ds hds =>
      have hbody : ∀ c ∈ dropBaseMark 16 (literalSign (trimBy isLiteralBlank cs)).2,
          c.toNat < 0x80 := by
        intro c hc
        refine hascii c ?_
        rw [hcs]
        simp [hc]
      obtain ⟨hdigits, rfl⟩ := (literalDigits?_eq_some_iff hbody).1 hds
      rw [hcs, ← Option.some.inj h]
      exact .mk hblank hsign hmark hdigits
  · rintro ⟨hblank, hsign, hmark, hbody⟩
    next left right sign mark body unit =>
    obtain ⟨hdropped, c, rest, hmarked, hc⟩ := dropBaseMark_append hmark hbody
    obtain ⟨d, hlast, hd⟩ := hbody.ends.2
    obtain ⟨hsplit, f, hfirst, hf⟩ := literalSign_append hsign hc rest
    rw [← hmarked] at hsplit hfirst
    have hend : (sign ++ (mark ++ body)).getLast? = some d := by
      rw [List.getLast?_append, List.getLast?_append, hlast]
      rfl
    have hdigits := (literalDigits?_eq_some_iff fun c hc => hascii c (by simp [hc])).2 ⟨hbody, rfl⟩
    rw [integerLiteral?, trimBy_append hblank hfirst hf hend
      ((literalDigit?_ascii (ascii_of_hexValue? hd)).2 hd), hsplit]
    dsimp only
    rw [hdropped, hdigits]
    rfl

end IdeMode.Text
