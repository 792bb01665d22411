import IdeMode.Proofs.Text.Digits
import IdeMode.Snippet.Editor
import Mathlib.Data.List.TakeWhile
set_option autoImplicit false

/-!
# Templates that are filled with their own defaults

Compiler output is written as a template, and the template is read back and its fields filled with
their defaults. Two scanners have to agree for that: what the first one writes for a piece of the
output, the second one reads as that piece, whatever stands before and after it. In the end every
hole has become its name, and nothing else has changed.
-/

namespace IdeMode

open List

namespace Snippet

/-! ## Filled text -/

/-- The text with each hole replaced by its name. No name holds a question mark, so that it is
enough to drop the ones that stand before a name. -/
def fill : List Char → List Char
  | [] => []
  | c :: cs => if c = '?' ∧ cs.head?.any isHoleStart then fill cs else c :: fill cs

theorem fill_append_of_not_mem {xs : List Char} (h : '?' ∉ xs) (ys : List Char) :
    fill (xs ++ ys) = xs ++ fill ys := by
  induction xs with
  | nil => rfl
  | cons c xs ih =>
    obtain ⟨hc, hxs⟩ := not_or.1 (mt mem_cons.2 h)
    rw [cons_append, fill, if_neg fun hmark => hc hmark.1.symm, ih hxs, cons_append]

variable {c : Char} {cs : List Char} {name : List Char}

theorem isHoleChar_of_isHoleStart (h : isHoleStart c = true) : isHoleChar c = true := by
  unfold isHoleStart at h
  unfold isHoleChar Char.isAlphanum
  rw [Bool.or_eq_true] at h
  rcases h with h | h <;> simp [h]

theorem ne_mark_of_isHoleChar (h : isHoleChar c = true) : c ≠ '?' := by
  rintro rfl
  exact absurd h (by decide)

theorem ne_of_isHoleChar (h : isHoleChar c = true) : c ≠ '\x7d' ∧ c ≠ '\\' := by
  constructor
  · rintro rfl
    exact absurd h (by decide)
  · rintro rfl
    exact absurd h (by decide)

theorem isHoleChar_of_mem_name {d : Char} {rest : List Char} (hc : isHoleStart c = true)
    (h : d ∈ c :: rest.takeWhile isHoleChar) : isHoleChar d = true := by
  rcases mem_cons.1 h with rfl | h
  · exact isHoleChar_of_isHoleStart hc
  · exact mem_takeWhile_imp h

/-- A hole is replaced by its name, which is as long as it can be. -/
theorem fill_hole (hc : isHoleStart c = true) (rest : List Char) :
    fill ('?' :: c :: rest) = (c :: rest.takeWhile isHoleChar) ++
      fill (rest.dropWhile isHoleChar) := by
  have hname : '?' ∉ c :: rest.takeWhile isHoleChar := fun hmem =>
    ne_mark_of_isHoleChar (isHoleChar_of_mem_name hc hmem) rfl
  have hsplit : c :: rest = (c :: rest.takeWhile isHoleChar) ++ rest.dropWhile isHoleChar := by
    rw [cons_append, takeWhile_append_dropWhile]
  rw [fill, if_pos ⟨rfl, hc⟩, hsplit, fill_append_of_not_mem hname]

/-! ## Pieces -/

/-- A piece with its hole filled. -/
def Piece.filled : Piece → List Char
  | .plain c => [c]
  | .hole name => name
  | .wildcard => ['(', '_', ')']

/-- The name of a hole is one: it is not empty and has no other characters. -/
def Piece.Proper : Piece → Prop
  | .hole name => name ≠ [] ∧ ∀ c ∈ name, isHoleChar c = true
  | _ => True

theorem piecesWithin_spec {bound : Nat} (h : cs.length ≤ bound) :
    (piecesWithin bound cs).flatMap Piece.filled = fill cs ∧
      ∀ p ∈ piecesWithin bound cs, p.Proper := by
  induction bound generalizing cs with
  | zero =>
    obtain rfl := length_eq_zero_iff.1 (Nat.le_zero.1 h)
    exact ⟨rfl, by nofun⟩
  | succ bound ih =>
    unfold piecesWithin
    split
    · exact ⟨rfl, by nofun⟩
    · next c rest =>
      have hrest : (c :: rest).length ≤ bound := Nat.le_of_succ_le_succ h
      split
      · next hc =>
        have hdrop : (rest.dropWhile isHoleChar).length ≤ bound :=
          Nat.le_trans (length_dropWhile_le _ rest) (Nat.le_of_succ_le hrest)
        obtain ⟨hfill, hproper⟩ := ih hdrop
        refine ⟨?_, forall_mem_cons.2 ⟨⟨nofun, fun d hd => isHoleChar_of_mem_name hc hd⟩, hproper⟩⟩
        rw [flatMap_cons, hfill, fill_hole hc]
        rfl
      · next hc =>
        obtain ⟨hfill, hproper⟩ := ih hrest
        refine ⟨?_, forall_mem_cons.2 ⟨trivial, hproper⟩⟩
        have hlone : ¬ ('?' = '?' ∧ (c :: rest).head?.any isHoleStart = true) :=
          fun hmark => hc hmark.2
        rw [flatMap_cons, hfill]
        conv_rhs => rw [fill, if_neg hlone]
        rfl
    · next rest =>
      have hrest : rest.length ≤ bound := by
        simp only [length_cons] at h
        omega
      obtain ⟨hfill, hproper⟩ := ih hrest
      refine ⟨?_, forall_mem_cons.2 ⟨trivial, hproper⟩⟩
      rw [flatMap_cons, hfill]
      have hname : '?' ∉ ['(', '_', ')'] := by decide
      exact (fill_append_of_not_mem hname rest).symm
    · next c rest hmark hwildcard =>
      have hrest : rest.length ≤ bound := Nat.le_of_succ_le_succ h
      obtain ⟨hfill, hproper⟩ := ih hrest
      refine ⟨?_, forall_mem_cons.2 ⟨trivial, hproper⟩⟩
      have hlone : ¬ (c = '?' ∧ rest.head?.any isHoleStart = true) := by
        rintro ⟨rfl, hstart⟩
        cases rest with
        | nil => cases hstart
        | cons d rest => exact hmark d rest rfl rfl
      rw [flatMap_cons, hfill, fill, if_neg hlone]
      rfl

theorem filled_pieces (cs : List Char) : (pieces cs).flatMap Piece.filled = fill cs :=
  (piecesWithin_spec (Nat.le_refl _)).1

variable {p : Piece}

theorem proper_of_mem_pieces (h : p ∈ pieces cs) : p.Proper :=
  (piecesWithin_spec (Nat.le_refl _)).2 p h

/-- A default is never empty. -/
theorem default_ne_nil (hp : p.Proper) {default : List Char} (h : p.default? = some default) :
    default ≠ [] := by
  cases p with
  | plain c => cases h
  | hole name =>
    cases h
    exact hp.1
  | wildcard =>
    cases h
    nofun

/-! ## Tokens -/

/-- What a piece is read as, if its field has the given number. -/
def Piece.tokens (number : Nat) : Piece → List Token
  | .plain c => [.char c]
  | .hole name => [.field number name]
  | .wildcard => [.char '(', .field number ['_'], .char ')']

/-- What pieces are read as whose first field has the given number. -/
def tokensFrom (number : Nat) : List Piece → List Token
  | [] => []
  | p :: rest =>
    p.tokens number ++ tokensFrom (if p.default?.isSome then number + 1 else number) rest

variable {bound number : Nat} {rest : List Char}

theorem tokensWithin_char (hescape : c ≠ '\\') (hdollar : c ≠ '$') :
    tokensWithin (bound + 1) (c :: rest) = (tokensWithin bound rest).map (.char c :: ·) := by
  rw [tokensWithin]
  · rintro d rest' ⟨⟩ -
    exact hescape rfl
  · rintro rest' ⟨⟩ -
    exact hdollar rfl

/-- The default of a field is read up to its closing brace, if nothing in it is a brace or
escapes. -/
theorem fieldBody?_append (h : ∀ c ∈ name, c ≠ '\x7d' ∧ c ≠ '\\') :
    fieldBody? (name ++ '\x7d' :: rest) = some (name, rest) := by
  induction name with
  | nil => rfl
  | cons c name ih =>
    obtain ⟨hc, hname⟩ := forall_mem_cons.1 h
    rw [cons_append, fieldBody?, ih hname]
    · rfl
    · exact hc.1
    · rintro rfl -
      exact hc.2 rfl
    · rintro d rest' rfl -
      exact hc.2 rfl

theorem unescapeDefault_of_not_mem (h : '\\' ∉ name) : unescapeDefault name = name := by
  induction name with
  | nil => rfl
  | cons c name ih =>
    obtain ⟨hc, hname⟩ := not_or.1 (mt mem_cons.2 h)
    rw [unescapeDefault, ih hname]
    rintro d rest' rfl -
    exact hc rfl

/-- The mark of a field is read as the field, whatever follows it. -/
theorem tokensWithin_field (hname : ∀ c ∈ name, c ≠ '\x7d' ∧ c ≠ '\\')
    (hnumber : number < 10 ^ Text.digitLimit) :
    tokensWithin (bound + 1) (fieldMark number name ++ rest) =
      (tokensWithin bound rest).map (.field number name :: ·) := by
  have hdigits : ∀ c ∈ Nat.toDigits 10 number, Text.isDigit c = true :=
    fun _ => Text.isDigit_of_mem_toDigits
  have hcolon : Text.isDigit ':' = false := by decide
  have hmark : fieldMark number name ++ rest =
      '$' :: '\x7b' :: (Nat.toDigits 10 number ++ ':' :: (name ++ '\x7d' :: rest)) := by
    simp [fieldMark]
  have hfield : fieldAt? (Nat.toDigits 10 number ++ ':' :: (name ++ '\x7d' :: rest)) =
      some (Nat.toDigits 10 number, name, rest) := by
    have htake : (Nat.toDigits 10 number ++ ':' :: (name ++ '\x7d' :: rest)).takeWhile
      Text.isDigit = Nat.toDigits 10 number := by
      rw [takeWhile_append_of_pos hdigits,
        takeWhile_cons_of_neg (by rw [hcolon]; decide), append_nil]
    have hdrop : (Nat.toDigits 10 number ++ ':' :: (name ++ '\x7d' :: rest)).dropWhile
      Text.isDigit = ':' :: (name ++ '\x7d' :: rest) := by
      rw [dropWhile_append_of_pos hdigits, dropWhile_cons_of_neg (by rw [hcolon]; decide)]
    unfold fieldAt?
    rw [htake, hdrop]
    cases hnumeral : Nat.toDigits 10 number with
    | nil => exact absurd hnumeral Nat.toDigits_ne_nil
    | cons digit digits =>
      show (fieldBody? (name ++ '\x7d' :: rest)).map (fun r => (digit :: digits, r.1, r.2)) = _
      rw [fieldBody?_append hname]
      rfl
  have hlimit : ¬ Text.digitLimit < (Nat.toDigits 10 number).length :=
    Nat.not_lt.2 ((Nat.length_toDigits_le_iff (by decide) (by decide)).2 hnumber)
  rw [hmark, tokensWithin, hfield]
  dsimp only
  rw [if_neg hlimit, Text.digitsValue_toDigits,
    unescapeDefault_of_not_mem fun h => (hname _ h).2 rfl]

/-- What is written for a piece is read as that piece, whatever follows it. -/
theorem tokensWithin_piece (hp : p.Proper)
    (hnumber : p.default?.isSome = true → number < 10 ^ Text.digitLimit)
    (hbound : (p.template number ++ rest).length ≤ bound) :
    ∃ bound', rest.length ≤ bound' ∧ tokensWithin bound (p.template number ++ rest) =
        (tokensWithin bound' rest).map (p.tokens number ++ ·) := by
  cases p with
  | plain c =>
    by_cases hc : c = '\\' ∨ c = '$'
    · have htemplate : (Piece.plain c).template number = ['\\', c] := if_pos hc
      rw [htemplate] at hbound ⊢
      obtain ⟨bound, rfl⟩ : ∃ b, bound = b + 1 :=
        Nat.exists_eq_add_one.2 (Nat.lt_of_lt_of_le (by simp) hbound)
      exact ⟨bound, Nat.le_of_succ_le (Nat.le_of_succ_le_succ hbound), rfl⟩
    · have htemplate : (Piece.plain c).template number = [c] := if_neg hc
      rw [htemplate] at hbound ⊢
      obtain ⟨bound, rfl⟩ : ∃ b, bound = b + 1 :=
        Nat.exists_eq_add_one.2 (Nat.lt_of_lt_of_le (by simp) hbound)
      obtain ⟨hescape, hdollar⟩ := not_or.1 hc
      exact ⟨bound, Nat.le_of_succ_le_succ hbound, tokensWithin_char hescape hdollar⟩
  | hole name =>
    have hname : ∀ c ∈ name, c ≠ '\x7d' ∧ c ≠ '\\' := fun c hc => ne_of_isHoleChar (hp.2 c hc)
    have hsize : rest.length < bound := by
      have hmark : 0 < (fieldMark number name).length := Nat.succ_pos _
      rw [Piece.template, length_append] at hbound
      omega
    obtain ⟨bound, rfl⟩ : ∃ b, bound = b + 1 := Nat.exists_eq_add_one.2 (Nat.zero_lt_of_lt hsize)
    exact ⟨bound, Nat.le_of_lt_succ hsize, tokensWithin_field hname (hnumber rfl)⟩
  | wildcard =>
    have hname : ∀ c ∈ ['_'], c ≠ '\x7d' ∧ c ≠ '\\' :=
      fun c hc => ne_of_isHoleChar (mem_singleton.1 hc ▸ by decide)
    have htemplate : Piece.wildcard.template number ++ rest =
        '(' :: (fieldMark number ['_'] ++ ')' :: rest) := by
      simp [Piece.template]
    have hsize : rest.length + 2 < bound := by
      have hmark : 0 < (fieldMark number ['_']).length := Nat.succ_pos _
      rw [htemplate, length_cons, length_append, length_cons] at hbound
      omega
    obtain ⟨bound, rfl⟩ : ∃ b, bound = b + 3 := ⟨bound - 3, by omega⟩
    refine ⟨bound, by omega, ?_⟩
    rw [htemplate, tokensWithin_char (by decide) (by decide),
      tokensWithin_field hname (hnumber rfl), tokensWithin_char (by decide) (by decide)]
    cases tokensWithin bound rest <;> rfl

/-- The number of fields that pieces make. -/
def fieldCount (ps : List Piece) : Nat := (ps.filterMap Piece.default?).length

theorem fieldCount_cons (p : Piece) (ps : List Piece) :
    fieldCount (p :: ps) = (if p.default?.isSome then 1 else 0) + fieldCount ps := by
  unfold fieldCount
  rw [filterMap_cons]
  cases p.default? with
  | none => exact (Nat.zero_add _).symm
  | some default => exact Nat.add_comm _ 1

/-- What is written for pieces is read as those pieces, if the numbers of their fields are not too
long to be read. -/
theorem tokensWithin_templateFrom {ps : List Piece} (hproper : ∀ p ∈ ps, p.Proper)
    (hnumber : number + fieldCount ps ≤ 10 ^ Text.digitLimit)
    (hbound : (templateFrom number ps).length ≤ bound) :
    tokensWithin bound (templateFrom number ps) = .ok (tokensFrom number ps) := by
  induction ps generalizing number bound with
  | nil => cases bound <;> rfl
  | cons p ps ih =>
    obtain ⟨hp, hps⟩ := forall_mem_cons.1 hproper
    rw [fieldCount_cons] at hnumber
    rw [templateFrom] at hbound ⊢
    have hfirst : p.default?.isSome = true → number < 10 ^ Text.digitLimit := by
      intro hsome
      rw [if_pos hsome] at hnumber
      omega
    have hnext : (if p.default?.isSome then number + 1 else number) + fieldCount ps ≤
        10 ^ Text.digitLimit := by
      split
      · next hsome =>
        rw [if_pos hsome] at hnumber
        omega
      · omega
    obtain ⟨bound', hbound', hread⟩ := tokensWithin_piece hp hfirst hbound
    rw [hread, ih hps hnext hbound', tokensFrom]
    rfl

/-- A template is read as the pieces that it was written for. -/
theorem tokens_template (h : (defaults cs).length < 10 ^ Text.digitLimit) :
    tokens (template cs) = .ok (tokensFrom 1 (pieces cs)) := by
  have hcount : 1 + fieldCount (pieces cs) ≤ 10 ^ Text.digitLimit := by
    rw [Nat.add_comm]
    exact h
  exact tokensWithin_templateFrom (fun _ => proper_of_mem_pieces) hcount (Nat.le_refl _)

theorem expansion_tokensFrom (number : Nat) (ps : List Piece) :
    expansion (tokensFrom number ps) = ps.flatMap Piece.filled := by
  induction ps generalizing number with
  | nil => rfl
  | cons p ps ih =>
    unfold expansion at ih
    rw [tokensFrom, expansion, flatMap_append, ih, flatMap_cons]
    cases p with
    | hole name => simp [Piece.tokens, Token.text, Piece.filled]
    | plain c => rfl
    | wildcard => rfl

/-! ## Fields -/

end Snippet

/-- The text of a field stands at its place in a text. -/
def Field.StandsIn (f : Field) (text : List Char) : Prop :=
  ∃ left right, text = left ++ f.default.toList ++ right ∧ f.offset = left.length

namespace Snippet

variable {f : Field}

/-- The fields of a template stand in its expansion, as it is found from `place` on. -/
theorem exists_of_mem_fieldsFrom {place : Int} {tokens : List Token}
    (h : f ∈ fieldsFrom place tokens) :
    ∃ left right, expansion tokens = left ++ f.default.toList ++ right ∧
      f.offset = place + left.length := by
  induction tokens generalizing place with
  | nil => cases h
  | cons t tokens ih =>
    cases t with
    | char c =>
      obtain ⟨left, right, htext, hoffset⟩ := ih h
      refine ⟨c :: left, right, ?_, ?_⟩
      · unfold expansion at htext
        rw [expansion, flatMap_cons, htext]
        rfl
      · rw [hoffset, length_cons]
        omega
    | field number default =>
      rcases mem_cons.1 h with rfl | h
      · exact ⟨[], expansion tokens, by simp [expansion, Token.text], (Int.add_zero place).symm⟩
      · obtain ⟨left, right, htext, hoffset⟩ := ih h
        refine ⟨default ++ left, right, ?_, ?_⟩
        · unfold expansion at htext
          rw [expansion, flatMap_cons, htext]
          simp [Token.text]
        · rw [hoffset, length_append]
          omega

/-- The fields of a template stand one after the other. -/
theorem pairwise_fieldsFrom (place : Int) (tokens : List Token) : (fieldsFrom place tokens).Pairwise
      fun f g => f.offset + (f.default.length : Int) ≤ g.offset := by
  induction tokens generalizing place with
  | nil => exact List.Pairwise.nil
  | cons t tokens ih =>
    cases t with
    | char c => exact ih (place + 1)
    | field number default =>
      refine pairwise_cons.2 ⟨fun g hg => ?_, ih _⟩
      obtain ⟨left, -, -, hoffset⟩ := exists_of_mem_fieldsFrom hg
      rw [hoffset, String.length_ofList]
      dsimp only
      omega

/-- The fields of pieces have the numbers and defaults that the template gives them. -/
theorem fieldsFrom_tokensFrom (place : Int) (number : Nat) (ps : List Piece) :
    (fieldsFrom place (tokensFrom number ps)).map (fun f => (f.number, f.default)) =
      (ps.filterMap Piece.default?).mapIdx
        fun i default => (number + i, String.ofList default) := by
  have hfield : ∀ (number : Nat) (default : List Char) (rest : List (List Char)),
      (default :: rest).mapIdx (fun i d => (number + i, String.ofList d)) =
        (number, String.ofList default) ::
          rest.mapIdx fun i d => (number + 1 + i, String.ofList d) := by
    intro number default rest
    rw [mapIdx_cons, Nat.add_zero]
    simp only [Nat.add_assoc, Nat.add_comm 1]
  induction ps generalizing place number with
  | nil => rfl
  | cons p ps ih =>
    cases p with
    | plain c => exact ih (place + 1) number
    | hole name =>
      refine Eq.trans ?_ (hfield number name (ps.filterMap Piece.default?)).symm
      exact congrArg _ (ih (place + name.length) (number + 1))
    | wildcard =>
      refine Eq.trans ?_ (hfield number ['_'] (ps.filterMap Piece.default?)).symm
      exact congrArg _ (ih (place + 1 + 1 + 1) (number + 1))

/-- A field whose number is at least those of the others comes last. -/
theorem insertField_of_le {fields : List Field} (h : ∀ g ∈ fields, g.number ≤ f.number) :
    insertField f fields = fields ++ [f] := by
  induction fields with
  | nil => rfl
  | cons g fields ih =>
    obtain ⟨hg, hfields⟩ := forall_mem_cons.1 h
    rw [insertField, if_neg (Nat.not_lt.2 hg), ih hfields]
    rfl

/-- Fields that are in the order of their numbers stay so. -/
theorem sortFields_of_pairwise {fields : List Field}
    (h : fields.Pairwise fun f g => f.number ≤ g.number) : sortFields fields = fields := by
  induction fields using List.reverseRecOn with
  | nil => rfl
  | append_singleton fields f ih =>
    obtain ⟨hfields, -, hlast⟩ := pairwise_append.1 h
    have hsorted := ih hfields
    unfold sortFields at hsorted
    rw [sortFields, foldl_append, hsorted]
    exact insertField_of_le fun g hg => hlast g hg f (mem_singleton_self f)

variable (place : Int) (cs : List Char)

theorem pairwise_number_fieldsFrom :
    (fieldsFrom place (tokensFrom 1 (pieces cs))).Pairwise fun f g => f.number ≤ g.number := by
  have hnumbers :
    ((fieldsFrom place (tokensFrom 1 (pieces cs))).map fun f => (f.number, f.default)).Pairwise
      fun f g => f.1 ≤ g.1 := by
    rw [fieldsFrom_tokensFrom, pairwise_iff_getElem]
    intro i j hi hj hlt
    rw [getElem_mapIdx, getElem_mapIdx]
    omega
  rw [pairwise_map] at hnumbers
  exact hnumbers

theorem length_pos_of_mem_fieldsFrom (h : f ∈ fieldsFrom place (tokensFrom 1 (pieces cs))) :
    0 < f.default.length := by
  have hmem : (f.number, f.default) ∈ (fieldsFrom place (tokensFrom 1 (pieces cs))).map
      fun f => (f.number, f.default) :=
    mem_map_of_mem h
  rw [fieldsFrom_tokensFrom, mem_mapIdx] at hmem
  obtain ⟨i, hi, hf⟩ := hmem
  obtain ⟨p, hp, hdefault⟩ := mem_filterMap.1 (getElem_mem hi)
  have hne := default_ne_nil (proper_of_mem_pieces hp) hdefault
  rw [← (Prod.mk.inj hf).2, String.length_ofList]
  exact length_pos_iff.2 hne

end Snippet

/-! ## Insertion -/

/-- Inserting a template is replacing the range by the filled text; the fields are those of the
template. -/
theorem Editor.insert_templated (b : Buffer) (d : Disk) (start finish : Int) {text : List Char}
    (h : (Snippet.defaults text).length < 10 ^ Text.digitLimit) :
    Editor.templated.insert b d start finish text =
      (b.replace d start finish (Snippet.fill text)).map fun r =>
        (Snippet.fieldsFrom start (Snippet.tokensFrom 1 (Snippet.pieces text)), r.1, r.2) := by
  rw [Editor.insert, Snippet.insertTemplate, Snippet.tokens_template h]
  show (b.replace d start finish
    (Snippet.expansion (Snippet.tokensFrom 1 (Snippet.pieces text))) >>= _) = _
  rw [Snippet.expansion_tokensFrom, Snippet.filled_pieces]
  cases b.replace d start finish (Snippet.fill text) with
  | error fault => rfl
  | ok replaced =>
    show Except.ok _ = Except.ok _
    rw [Snippet.sortFields_of_pairwise (Snippet.pairwise_number_fieldsFrom start text)]

/-- **Templated insertion preserves the text.** The range of the buffer is replaced by the text with
its holes filled, and nothing else changes. The fields are numbered from one in the order of the
places to fill in and have the defaults that the template gives them; each stands at its place in
the new text, within what was inserted, and they follow one another without overlap. The number of a
field can be read if there are fewer than `10 ^ 4300`. -/
theorem templated_insertion_preserves_text (b : Buffer) (d : Disk) {start finish : Nat}
    (text : List Char) (hrange : start ≤ finish ∧ finish ≤ b.text.length)
    (hfew : (Snippet.defaults text).length < 10 ^ Text.digitLimit) :
    ∃ fields content, content = b.text.take start ++ Snippet.fill text ++ b.text.drop finish ∧
      Editor.templated.insert b d start finish text =
        (match d.writeText b.path content with
        | .ok written => .ok (fields, b.changed content, written)
        | .error fault => .error (.file fault)) ∧
      fields.map (fun f => (f.number, f.default)) =
        (Snippet.defaults text).mapIdx (fun i default => (i + 1, String.ofList default)) ∧
      (∀ f ∈ fields, f.StandsIn content ∧ start ≤ f.offset ∧
        f.offset + f.default.length ≤ start + (Snippet.fill text).length) ∧
      fields.Pairwise fun f g =>
        f.offset < g.offset ∧ f.offset + (f.default.length : Int) ≤ g.offset := by
  refine ⟨Snippet.fieldsFrom start (Snippet.tokensFrom 1 (Snippet.pieces text)), _, rfl,
    ?_, ?_, ?_, ?_⟩
  · have hbounds : (0 : Int) ≤ start ∧ (start : Int) ≤ finish ∧ (finish : Int) ≤ b.text.length := by
      omega
    rw [Editor.insert_templated b d start finish hfew, Buffer.replace, if_pos hbounds]
    simp only [Int.toNat_natCast]
    cases d.writeText b.path (b.text.take start ++ Snippet.fill text ++ b.text.drop finish) <;> rfl
  · rw [Snippet.fieldsFrom_tokensFrom]
    simp only [Nat.add_comm 1, Snippet.defaults]
  · intro f hf
    obtain ⟨left, right, hfill, hoffset⟩ := Snippet.exists_of_mem_fieldsFrom hf
    rw [Snippet.expansion_tokensFrom, Snippet.filled_pieces] at hfill
    refine ⟨⟨b.text.take start ++ left, right ++ b.text.drop finish, ?_, ?_⟩, by omega, ?_⟩
    · rw [hfill]
      simp only [append_assoc]
    · rw [hoffset, length_append, length_take_of_le (Nat.le_trans hrange.1 hrange.2)]
      push_cast
      rfl
    · rw [hfill, hoffset]
      simp only [length_append, String.length_toList]
      omega
  · refine (Snippet.pairwise_fieldsFrom start _).imp_of_mem ?_
    intro f g hf _ hplaces
    have hpos := Snippet.length_pos_of_mem_fieldsFrom start text hf
    omega

/-- Text that is full of what templates are written with, and ends in a backslash right before a
hole. -/
theorem templated_insertion_preserves_text_escapes :
    let b : Buffer := { path := ⟨["A.idr"]⟩, text := "a?b".toList }
    let text := "$\x7b1:x\x7d (_) \\?y'".toList
    ((1 : Nat) ≤ 2 ∧ 2 ≤ b.text.length) ∧ (Snippet.defaults text).length < 10 ^ Text.digitLimit ∧
      ∃ fields content, content = "a$\x7b1:x\x7d (_) \\y'b".toList ∧
        Editor.templated.insert b {} (1 : Nat) (2 : Nat) text = .ok (fields, b.changed content,
          { files := [(⟨["A.idr"]⟩, Text.Utf8.encode content)] }) ∧
        fields.map (fun f => (f.number, f.default)) = [(1, "_"), (2, "y'")] ∧
        ∀ f ∈ fields, f.StandsIn content := by
  have hfew : (Snippet.defaults "$\x7b1:x\x7d (_) \\?y'".toList).length < 10 ^ Text.digitLimit :=
    Nat.lt_of_lt_of_le (show _ < 10 ^ 1 by decide) (Nat.pow_le_pow_right (by decide) (by decide))
  refine ⟨by decide, hfew, ?_⟩
  obtain ⟨fields, content, hcontent, hinsert, hfields, hstand, -⟩ :=
    templated_insertion_preserves_text { path := ⟨["A.idr"]⟩, text := "a?b".toList } {} _
      (by decide : 1 ≤ 2 ∧ 2 ≤ 3) hfew
  refine ⟨fields, content, hcontent.trans (by decide), ?_, hfields.trans (by decide),
    fun f hf => (hstand f hf).1⟩
  rw [hinsert]
  rfl

end IdeMode
