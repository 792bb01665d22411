import IdeMode.Buffer.Target
import IdeMode.Proofs.Buffer.Lines
import Mathlib.Data.List.TakeWhile
set_option autoImplicit false

/-!
# Names and holes at a point

A point may touch a name in several ways: at its first character, inside it, or right behind it. Two
scanners start from it. One takes the run of name characters around the point, the other goes back
to the nearest question mark of the line and takes the name behind that. Here both are described by
the line alone, and for a point in a hole they agree.
-/

namespace IdeMode

open List

/-! ## The line of a number -/

theorem LineTable.length_startsFrom (origin : Nat) (cs : List Char) :
    (startsFrom origin cs).length = cs.count '\n' := by
  induction cs generalizing origin with
  | nil => rfl
  | cons c cs ih =>
    unfold startsFrom
    split
    · next hc => simp [hc, ih]
    · next hc => simp [hc, ih]

variable {cs : List Char}

/-- The end of a line is where the first newline stands. -/
theorem IsLine.takeWhile_eq {before content after : List Char} {number : Nat}
    (h : IsLine cs number before content after) :
    (content ++ after).takeWhile (· != '\n') = content := by
  have hall : ∀ c ∈ content, (c != '\n') = true :=
    fun c hc => by simpa using fun hnl : c = '\n' => h.free (hnl ▸ hc)
  rw [takeWhile_append_of_pos hall]
  rcases h.ends with rfl | ⟨later, rfl⟩ <;> simp

/-- There is one line of each number. -/
theorem IsLine.unique {before content after before' content' after' : List Char} {number : Nat}
    (h : IsLine cs number before content after) (h' : IsLine cs number before' content' after') :
    before = before' ∧ content = content' ∧ after = after' := by
  -- What one of the two has before its line, and the other has not, would end with a newline.
  have hinitial : ∀ {b c a b' c' a' : List Char},
      IsLine cs number b c a → IsLine cs number b' c' a' → b <+: b' → b = b' := by
    rintro b c a b' c' a' hb hb' ⟨more, rfl⟩
    have hcount : more.count '\n' = 0 := by
      have := hb.number_eq.trans hb'.number_eq.symm
      rw [count_append] at this
      omega
    rcases eq_nil_or_concat more with rfl | ⟨init, last, rfl⟩
    · simp
    · rcases hb'.begins with hnil | ⟨earlier, hlast⟩
      · simp at hnil
      · rw [concat_eq_append, ← append_assoc] at hlast
        obtain ⟨-, hlast⟩ := append_inj' hlast rfl
        simp [singleton_inj.1 hlast] at hcount
  have htext : before ++ (content ++ after) = before' ++ (content' ++ after') := by
    rw [← append_assoc, ← append_assoc, ← h.text_eq, ← h'.text_eq]
  have hbefore : before = before' := by
    rcases prefix_or_prefix_of_prefix (prefix_append before _)
      (htext ▸ prefix_append before' _) with hp | hp
    · exact hinitial h h' hp
    · exact (hinitial h' h hp).symm
  subst hbefore
  have hrest := append_cancel_left htext
  have hcontent : content = content' := by rw [← h.takeWhile_eq, hrest, h'.takeWhile_eq]
  subst hcontent
  exact ⟨rfl, rfl, append_cancel_left hrest⟩

theorem IsLine.hasLine {b : Buffer} {line : Int} {before content after : List Char}
    (h : IsLine b.text line.toNat before content after) : b.HasLine line before content after := by
  have hnumber := h.number_eq
  have hlast : line ≤ b.lineCount := by
    have hcount : before.count '\n' ≤ b.text.count '\n' := by
      rw [h.text_eq, append_assoc, count_append]
      omega
    rw [Buffer.lineCount, Buffer.table, LineTable.starts, length_cons, LineTable.length_startsFrom]
    omega
  obtain ⟨_, _, _, hline⟩ := Buffer.exists_hasLine (show 1 ≤ line by omega) hlast
  obtain ⟨rfl, rfl, rfl⟩ := h.unique hline.isLine
  exact hline

/-! ## Runs -/

/-- Around any point of a run, its ends included, the run is found. -/
theorem runAround_of_run {belongs : Char → Bool} {left run right : List Char}
    (hrun : ∀ c ∈ run, belongs c = true) (hleft : ∀ c ∈ left.getLast?, belongs c = false)
    (hright : ∀ c ∈ right.head?, belongs c = false) {k : Nat}
    (hk : k ≤ run.length) : runAround belongs (left ++ run ++ right) (left.length + k) = run := by
  have hstop : ∀ {cs : List Char}, (∀ c ∈ cs.head?, belongs c = false) →
      cs.takeWhile belongs = [] := by
    intro cs hcs
    cases cs with
    | nil => rfl
    | cons c cs => simp [hcs c rfl]
  have hbehind : (left ++ run ++ right).drop (left.length + k) = run.drop k ++ right := by
    rw [append_assoc, ← drop_drop, drop_left, drop_append_of_le_length hk]
  have hbefore : ((left ++ run ++ right).take (left.length + k)).reverse =
      (run.take k).reverse ++ left.reverse := by
    rw [append_assoc, take_length_add_append, take_append_of_le_length hk, reverse_append]
  unfold runAround
  rw [hbehind, hbefore, takeWhile_append_of_pos, takeWhile_append_of_pos, hstop hright, hstop]
  · simp
  · simpa using hleft
  · exact fun c hc => hrun c (mem_of_mem_drop hc)
  · exact fun c hc => hrun c (mem_of_mem_take (mem_reverse.1 hc))

theorem Text.trimBy_of_ends {drops : Char → Bool} (hhead : ∀ c ∈ cs.head?, drops c = false)
    (hlast : ∀ c ∈ cs.getLast?, drops c = false) : trimBy drops cs = cs := by
  have hkeep : ∀ {cs : List Char}, (∀ c ∈ cs.head?, drops c = false) → cs.dropWhile drops = cs := by
    intro cs hcs
    cases cs with
    | nil => rfl
    | cons c cs => simp [hcs c rfl]
  rw [trimBy, hkeep hhead, hkeep (by simpa using hlast), reverse_reverse]

/-! ## Points of a line -/

namespace Buffer

/-- The place in a line that a column means. -/
def placeIn (content : List Char) (column : Int) : Nat :=
  min (max column 1 - 1).toNat content.length

theorem lastMark?_of_not_mem {start : Int} (h : '?' ∉ cs) : lastMark? start cs = none := by
  have hall : cs.reverse.takeWhile (· != '?') = cs.reverse :=
    takeWhile_eq_self_iff.2 fun c hc => by
      simpa using fun hmark : c = '?' => h (hmark ▸ mem_reverse.1 hc)
  simp [lastMark?, hall]

theorem lastMark?_append {start : Int} {left right : List Char} (h : '?' ∉ right) :
    lastMark? start (left ++ '?' :: right) = some (start + left.length) := by
  have hall : ∀ c ∈ right.reverse, (c != '?') = true :=
    fun c hc => by simpa using fun hmark : c = '?' => h (hmark ▸ mem_reverse.1 hc)
  have hafter : (left ++ '?' :: right).reverse.takeWhile (· != '?') = right.reverse := by
    rw [reverse_append, reverse_cons, append_assoc, takeWhile_append_of_pos hall]
    simp
  simp only [lastMark?, hafter, length_reverse, length_append, length_cons]
  rw [if_pos (by omega), show left.length + (right.length + 1) - right.length - 1 =
    left.length by omega]

variable {b : Buffer} {line column : Int} {before content after : List Char} {name : String}

theorem HasLine.placeOffset_eq (h : b.HasLine line before content after) :
    b.offset line column = .ok (Int.ofNat (before.length + placeIn content column)) := by
  obtain ⟨hfirst, hlast⟩ := h.range
  have hrange : ¬ (line < 1 ∨ (b.lineCount : Int) < line) := by omega
  have hplace : min (Int.ofNat before.length + max column 1 - 1)
    (Int.ofNat (before.length + content.length)) =
      Int.ofNat (before.length + placeIn content column) := by
    simp only [placeIn, Int.ofNat_eq_natCast]
    omega
  unfold offset
  simp only [if_neg hrange, h.bounds_eq]
  exact congrArg Except.ok hplace

/-- The name at a point is a run of the line around it, without the dots at its ends. -/
theorem HasLine.nameAt_eq (h : b.HasLine line before content after) {run : List Char}
    (hrun : Text.trimBy (· == '.') (runAround isNameChar content (placeIn content column)) = run) :
    b.nameAt line column = if run = [] then .error (.noTarget line column)
      else .ok (String.ofList run, line) := by
  obtain ⟨hfirst, hlast⟩ := h.range
  have hrange : ¬ (line < 1 ∨ (b.lineCount : Int) < line) := by omega
  unfold placeIn at hrun
  rw [nameAt, if_neg hrange, h.lineContent_eq]
  dsimp only [Bind.bind, Except.bind]
  rw [hrun]
  simp only [List.isEmpty_iff]
  rfl

/-- The nearest question mark is looked for up to and including the point. -/
theorem HasLine.stretch_eq (h : b.HasLine line before content after) :
    stretch b.text (Int.ofNat before.length)
        (min (Int.ofNat (before.length + placeIn content column) + 1)
          (Int.ofNat (before.length + content.length))) =
      content.take (placeIn content column + 1) := by
  have hend : min (Int.ofNat (before.length + placeIn content column) + 1)
    (Int.ofNat (before.length + content.length)) =
      Int.ofNat (before.length + (content.take (placeIn content column + 1)).length) := by
    simp only [length_take, Int.ofNat_eq_natCast]
    omega
  have htext : b.text = before ++ content.take (placeIn content column + 1) ++
      (content.drop (placeIn content column + 1) ++ after) := by
    rw [h.isLine.text_eq, append_assoc, append_assoc, ← append_assoc (List.take _ content),
      take_append_drop]
  rw [hend, htext, stretch_append]

theorem HasLine.drop_eq {left rest : List Char}
    (h : b.HasLine line before (left ++ '?' :: rest) after) :
    b.text.drop (before.length + left.length + 1) = rest ++ after := by
  have htext : b.text = (before ++ left ++ ['?']) ++ (rest ++ after) := by
    rw [h.isLine.text_eq]
    simp
  rw [htext, drop_left' (by simp [Nat.add_assoc])]

/-- A name behind a question mark ends within the line. -/
theorem HasLine.takeWhile_eq {left rest : List Char}
    (h : b.HasLine line before (left ++ '?' :: rest) after) :
    (b.text.drop (before.length + left.length + 1)).takeWhile isNameChar =
      rest.takeWhile isNameChar := by
  rw [h.drop_eq, takeWhile_append]
  split
  · next hall =>
    rw [( takeWhile_prefix isNameChar).eq_of_length hall]
    rcases h.isLine.ends with rfl | ⟨later, rfl⟩
    · simp
    · rw [takeWhile_cons_of_neg (by decide), append_nil]
  · rfl

/-! ## Holes -/

/-- A stretch of the text is the hole of a name: it lies in the line, it is a question mark with the
whole of the name behind it, and no other question mark comes between it and the point. -/
structure HoleBefore (b : Buffer) (line column : Int) (name : String)
    (start finish : Int) : Prop where
  within : ∃ first last, b.bounds line = .ok (first, last) ∧ first ≤ start ∧ finish ≤ last
  stands : ∃ pre post, b.text = pre ++ '?' :: name.toList ++ post ∧ start = Int.ofNat pre.length ∧
    finish = Int.ofNat (pre.length + 1 + name.length) ∧ ∀ c ∈ post.head?, isNameChar c = false
  nearest : ∃ point, b.offset line column = .ok point ∧ start ≤ point ∧
    ∀ i : Nat, start < i → i ≤ point → b.text[i]? ≠ some '?'

/-- A point lies in the hole of a name, from the first character of the name to right behind the
last. The name is a whole run of name characters, and a dot stands at neither end of it. -/
structure HoleAt (b : Buffer) (line column : Int) (before left : List Char) (name : String)
    (right after : List Char) : Prop where
  isLine : IsLine b.text line.toNat before (left ++ '?' :: name.toList ++ right) after
  named : name.toList ≠ []
  chars : ∀ c ∈ name.toList, isNameChar c = true
  ends : ∀ c ∈ right.head?, isNameChar c = false
  undotted : '.' ∉ name.toList.head? ∧ '.' ∉ name.toList.getLast?
  first : left.length + 2 ≤ column
  last : column ≤ left.length + 2 + name.length
  /-- right behind the name the next hole may begin, and the point then lies in that one -/
  clear : column = left.length + 2 + name.length → right.head? ≠ some '?'

theorem exists_lastMark {mark : Char} (h : mark ∈ cs) :
    ∃ left right, cs = left ++ mark :: right ∧ mark ∉ right := by
  obtain ⟨right, left, hcs, hright⟩ := eq_append_cons_of_mem (mem_reverse.2 h)
  refine ⟨left.reverse, right.reverse, ?_, by simpa using hright⟩
  rw [← reverse_reverse cs, hcs]
  simp

/-- The nearest hole, by the part of the line up to the point. -/
theorem HasLine.holeNear_eq {left rest seen : List Char}
    (h : b.HasLine line before (left ++ '?' :: rest) after)
    (htake : (left ++ '?' :: rest).take (placeIn (left ++ '?' :: rest) column + 1) =
      left ++ '?' :: seen) (hseen : '?' ∉ seen) :
    b.holeNear line column (some name) =
      .ok (if String.ofList (rest.takeWhile isNameChar) ≠ name then none else
      some (Int.ofNat (before.length + left.length),
        Int.ofNat (before.length + left.length) + 1 + (rest.takeWhile isNameChar).length)) := by
  have hmark : lastMark? (Int.ofNat before.length) (left ++ '?' :: seen) =
      some (Int.ofNat (before.length + left.length)) :=
    lastMark?_append hseen
  unfold holeNear
  rw [h.placeOffset_eq, h.bounds_eq]
  dsimp only [Bind.bind, Except.bind]
  rw [h.stretch_eq, htake, hmark]
  dsimp only
  rw [show (Int.ofNat (before.length + left.length)).toNat = before.length + left.length from rfl,
    h.takeWhile_eq]
  split <;> rfl

/-- Between a question mark and a point there is no other if there is none up to the point in the
line. -/
theorem HasLine.unmarked {left seen more : List Char}
    (h : b.HasLine line before (left ++ '?' :: (seen ++ more)) after) (hseen : '?' ∉ seen) {k : Nat}
    (hk : k ≤ left.length + seen.length ∨ more = [] ∧ k ≤ left.length + seen.length + 1)
    {i : Nat} (hfirst : before.length + left.length < i) (hlast : i ≤ before.length + k) :
    b.text[i]? ≠ some '?' := by
  obtain ⟨j, rfl⟩ : ∃ j, i = before.length + left.length + 1 + j :=
    ⟨i - (before.length + left.length + 1), by omega⟩
  rw [← List.getElem?_drop, h.drop_eq]
  intro hmark
  by_cases hj : j < seen.length
  · rw [append_assoc, List.getElem?_append_left hj] at hmark
    exact hseen (mem_of_getElem? hmark)
  · -- The point is at the end of the line, where a newline stands or nothing.
    obtain ⟨rfl, hle⟩ := hk.resolve_left (by omega)
    obtain rfl : j = seen.length := by omega
    rw [append_nil, List.getElem?_append_right (Nat.le_refl _), Nat.sub_self] at hmark
    rcases h.isLine.ends with rfl | ⟨later, rfl⟩ <;> simp at hmark

/-- The hole of a name, by the line in which it stands. -/
theorem HasLine.holeBefore {left right : List Char}
    (h : b.HasLine line before (left ++ '?' :: (name.toList ++ right)) after)
    (hends : ∀ c ∈ right.head?, isNameChar c = false)
    (hplace : left.length ≤ placeIn (left ++ '?' :: (name.toList ++ right)) column)
    (hunmarked : ∀ i, before.length + left.length < i →
      i ≤ before.length + placeIn (left ++ '?' :: (name.toList ++ right)) column →
        b.text[i]? ≠ some '?') :
    b.HoleBefore line column name (Int.ofNat (before.length + left.length))
      (Int.ofNat (before.length + left.length + 1 + name.length)) := by
  have htext : b.text = (before ++ left) ++ '?' :: name.toList ++ (right ++ after) := by
    rw [h.isLine.text_eq]
    simp
  have hbehind : ∀ c ∈ (right ++ after).head?, isNameChar c = false := by
    cases right with
    | nil => rcases h.isLine.ends with rfl | ⟨later, rfl⟩ <;> simp [isNameChar, isWordChar]
    | cons c right => exact hends
  refine ⟨⟨_, _, h.bounds_eq, ?_, ?_⟩, ⟨_, _, htext, ?_, ?_, hbehind⟩, _, h.placeOffset_eq, ?_, ?_⟩
  · simp only [Int.ofNat_eq_natCast]
    omega
  · simp only [length_append, length_cons, String.length_toList, Int.ofNat_eq_natCast]
    omega
  · rw [length_append]
  · rw [length_append]
  · simp only [Int.ofNat_eq_natCast]
    omega
  · intro i hfirst hlast
    simp only [Int.ofNat_eq_natCast] at hfirst hlast
    exact hunmarked i (by omega) (by omega)

/-- Where a hole of a name is found, there is one. -/
theorem HasLine.holeBefore_of_holeNear (h : b.HasLine line before content after)
    {start finish : Int} (hfound : b.holeNear line column (some name) =
      .ok (some (start, finish))) : b.HoleBefore line column name start finish := by
  by_cases hmark : '?' ∈ content.take (placeIn content column + 1)
  · obtain ⟨left, seen, htake, hseen⟩ := exists_lastMark hmark
    obtain ⟨more, rfl⟩ : ∃ more, content = left ++ '?' :: (seen ++ more) := by
      refine ⟨content.drop (placeIn content column + 1), ?_⟩
      rw [← cons_append, ← append_assoc, ← htake, take_append_drop]
    have hplace : placeIn (left ++ '?' :: (seen ++ more)) column ≤
        left.length + seen.length + 1 + more.length := by
      simp only [placeIn, length_append, length_cons]
      omega
    have hlength := congrArg List.length htake
    simp only [length_take, length_append, length_cons] at hlength
    have hunmarked : ∀ i, before.length + left.length < i →
        i ≤ before.length + placeIn (left ++ '?' :: (seen ++ more)) column →
          b.text[i]? ≠ some '?' := by
      refine fun i => h.unmarked hseen ?_
      rcases Nat.eq_zero_or_pos more.length with hnil | hpos
      · exact .inr ⟨length_eq_zero_iff.1 hnil, by omega⟩
      · exact .inl (by omega)
    rw [h.holeNear_eq htake hseen] at hfound
    split at hfound
    · cases hfound
    · next hname =>
      obtain ⟨rfl, rfl⟩ := Prod.mk.inj (Option.some.inj (Except.ok.inj hfound))
      have hrun : (seen ++ more).takeWhile isNameChar = name.toList := by
        rw [← not_not.1 hname, String.toList_ofList]
      have hhead := List.head?_dropWhile_not isNameChar (seen ++ more)
      have hrest : seen ++ more = name.toList ++ (seen ++ more).dropWhile isNameChar := by
        rw [← hrun, takeWhile_append_dropWhile]
      generalize (seen ++ more).dropWhile isNameChar = right at hhead hrest
      rw [hrun, String.length_toList]
      rw [hrest] at h hplace hlength hunmarked
      refine h.holeBefore ?_ (by omega) hunmarked
      intro c hc
      rw [hc] at hhead
      exact hhead
  · unfold holeNear at hfound
    rw [h.placeOffset_eq, h.bounds_eq] at hfound
    dsimp only [Bind.bind, Except.bind] at hfound
    rw [h.stretch_eq, lastMark?_of_not_mem hmark] at hfound
    cases hfound

theorem le_lineCount_of_holeNear {found : Option (Int × Int)} {wanted : Option String}
    (h : b.holeNear line column wanted = .ok found) : 1 ≤ line ∧ line ≤ b.lineCount := by
  cases hoffset : b.offset line column with
  | error fault =>
    rw [holeNear, hoffset] at h
    cases h
  | ok point => exact le_lineCount_of_offset hoffset

namespace HoleAt

variable {left right : List Char}

theorem placeIn_eq (h : b.HoleAt line column before left name right after) :
    ∃ k ≤ name.length, placeIn (left ++ '?' :: name.toList ++ right) column = left.length + 1 + k ∧
      (k = name.length → right.head? ≠ some '?') := by
  have hfirst := h.first
  have hlast := h.last
  refine ⟨(column - left.length - 2).toNat, by omega, ?_, fun hk => h.clear (by omega)⟩
  simp only [placeIn, length_append, length_cons, String.length_toList]
  omega

/-- Wherever the point is in a hole, the name of the hole is found. -/
theorem nameAt_eq (h : b.HoleAt line column before left name right after) :
    b.nameAt line column = .ok (name, line) := by
  obtain ⟨k, hk, hplace, -⟩ := h.placeIn_eq
  have hrun : runAround isNameChar (left ++ '?' :: name.toList ++ right)
      (left.length + 1 + k) = name.toList := by
    have haround : runAround isNameChar ((left ++ ['?']) ++ name.toList ++ right)
      ((left ++ ['?']).length + k) = name.toList :=
      runAround_of_run h.chars (by simp [isNameChar, isWordChar]) h.ends
        (by rwa [String.length_toList])
    simpa using haround
  have htrim : Text.trimBy (· == '.') (runAround isNameChar (left ++ '?' :: name.toList ++ right)
      (placeIn (left ++ '?' :: name.toList ++ right) column)) = name.toList := by
    rw [hplace, hrun]
    refine Text.trimBy_of_ends ?_ ?_
    · intro c hc
      simpa using fun hdot : c = '.' => h.undotted.1 (hdot ▸ hc)
    · intro c hc
      simpa using fun hdot : c = '.' => h.undotted.2 (hdot ▸ hc)
  rw [h.isLine.hasLine.nameAt_eq htrim, if_neg h.named, String.ofList_toList]

/-- Wherever the point is in a hole, the hole is the nearest one. -/
theorem holeNear_eq (h : b.HoleAt line column before left name right after) :
    b.holeNear line column (some name) = .ok (some (Int.ofNat (before.length + left.length),
      Int.ofNat (before.length + left.length) + 1 + name.length)) := by
  obtain ⟨k, hk, hplace, hclear⟩ := h.placeIn_eq
  have hline := h.isLine.hasLine
  have happend : left ++ '?' :: name.toList ++ right = left ++ '?' :: (name.toList ++ right) := by
    simp
  rw [happend] at hline hplace
  have htake : (left ++ '?' :: (name.toList ++ right)).take
    (placeIn (left ++ '?' :: (name.toList ++ right)) column + 1) =
      left ++ '?' :: (name.toList ++ right).take (k + 1) := by
    rw [hplace, show left.length + 1 + k + 1 = left.length + (k + 1 + 1) by omega,
      take_length_add_append, take_succ_cons]
  have hnamed : ∀ c ∈ name.toList, c ≠ '?' := by
    rintro _ hc rfl
    exact absurd (h.chars _ hc) (by decide)
  have hseen : '?' ∉ (name.toList ++ right).take (k + 1) := by
    intro hmem
    rw [take_append] at hmem
    rcases mem_append.1 hmem with hmem | hmem
    · exact hnamed _ (mem_of_mem_take hmem) rfl
    · -- Only the character right behind the name is left, and it is no question mark.
      have hone : k + 1 - name.toList.length = 1 ∧ k = name.length := by
        have := length_pos_of_mem hmem
        simp only [length_take, String.length_toList] at this ⊢
        omega
      rw [hone.1] at hmem
      cases right with
      | nil => simp at hmem
      | cons c right => exact hclear hone.2 (by simpa using (mem_singleton.1 hmem).symm)
  have hrun : (name.toList ++ right).takeWhile isNameChar = name.toList := by
    rw [takeWhile_append_of_pos h.chars]
    cases right with
    | nil => simp
    | cons c right => simp [h.ends c rfl]
  rw [hline.holeNear_eq htake hseen, hrun, String.ofList_toList, if_neg (not_not.2 rfl),
    String.length_toList]

end HoleAt

end Buffer

end IdeMode
