import IdeMode.Snippet.Editor
set_option autoImplicit false

/-!
# Lines and ranges of a buffer

What the line table says, in terms of the text alone: a line is a stretch without a newline, between
newlines or the ends of the text, and its number is one more than the number of newlines before it.
And what the replacement of a range does to the text and to the file.
-/

namespace IdeMode

open List

/-- A text consists of what stands before a line, the line, and what comes after it. -/
structure IsLine (cs : List Char) (number : Nat) (before content after : List Char) : Prop where
  text_eq : cs = before ++ content ++ after
  free : '\n' ∉ content
  begins : before = [] ∨ ∃ earlier, before = earlier ++ ['\n']
  ends : after = [] ∨ ∃ later, after = '\n' :: later
  number_eq : before.count '\n' + 1 = number

theorem length_splitOn_newline (cs : List Char) : (cs.splitOn '\n').length = cs.count '\n' + 1 := by
  induction cs with
  | nil => rfl
  | cons c cs ih =>
    rw [splitOn_cons_eq_if_modifyHead, count_cons]
    split
    · rw [length_cons, ih]
    · rw [length_modifyHead, ih, Nat.add_zero]

variable {cs : List Char}

/-- Around a line there are whole lines, whatever is put in its place. -/
theorem IsLine.exists_around {before content after : List Char} {number : Nat}
    (h : IsLine cs number before content after) :
    ∃ above below, above.length + 1 = number ∧ ∀ middle, (before ++ middle ++ after).splitOn '\n' =
        above ++ middle.splitOn '\n' ++ below := by
  obtain ⟨above, habove, hbefore⟩ : ∃ above : List (List Char), above.length + 1 = number ∧
      ∀ rest, (before ++ rest).splitOn '\n' = above ++ rest.splitOn '\n' := by
    rcases h.begins with rfl | ⟨earlier, rfl⟩
    · exact ⟨[], h.number_eq, fun _ => rfl⟩
    · refine ⟨earlier.splitOn '\n', ?_, fun rest => ?_⟩
      · rw [length_splitOn_newline, ← h.number_eq, count_append, count_singleton_self]
      · rw [append_assoc]
        exact splitOn_append_cons_self earlier rest
  rcases h.ends with rfl | ⟨later, rfl⟩
  · refine ⟨above, [], habove, fun middle => ?_⟩
    rw [append_nil, append_nil, hbefore]
  · refine ⟨above, later.splitOn '\n', habove, fun middle => ?_⟩
    rw [append_assoc, hbefore, splitOn_append_cons_self, append_assoc]

namespace LineTable

theorem startsFrom_of_not_mem {origin : Nat} (h : '\n' ∉ cs) : startsFrom origin cs = [] := by
  induction cs generalizing origin with
  | nil => rfl
  | cons c cs ih =>
    obtain ⟨hc, hcs⟩ := not_or.1 (mt mem_cons.2 h)
    rw [startsFrom, if_neg (Ne.symm hc), ih hcs]

theorem startsFrom_newline {origin : Nat} {content rest : List Char} (h : '\n' ∉ content) :
    startsFrom origin (content ++ '\n' :: rest) =
      (origin + content.length + 1) :: startsFrom (origin + content.length + 1) rest := by
  induction content generalizing origin with
  | nil => rfl
  | cons c content ih =>
    obtain ⟨hc, hcontent⟩ := not_or.1 (mt mem_cons.2 h)
    rw [cons_append, startsFrom, if_neg (Ne.symm hc), ih hcontent, length_cons]
    rw [show origin + 1 + content.length + 1 = origin + (content.length + 1) + 1 by omega]

/-- The first line of a text, and where the table says that the next one starts. -/
theorem exists_firstLine (origin : Nat) (cs : List Char) :
    ∃ content after, cs = content ++ after ∧ '\n' ∉ content ∧
      (after = [] ∨ ∃ later, after = '\n' :: later) ∧ (startsFrom origin cs).head? =
        if after = [] then none else some (origin + content.length + 1) := by
  by_cases h : '\n' ∈ cs
  · obtain ⟨content, rest, rfl, hfree⟩ := eq_append_cons_of_mem h
    refine ⟨content, '\n' :: rest, rfl, hfree, .inr ⟨rest, rfl⟩, ?_⟩
    rw [startsFrom_newline hfree]
    rfl
  · exact ⟨cs, [], (append_nil cs).symm, h, .inl rfl, by rw [startsFrom_of_not_mem h]; rfl⟩

/-- An entry of the table is the place right after as many newlines as there are entries before
it. -/
theorem exists_start {k origin : Nat} (hk : k ≤ (startsFrom origin cs).length) :
    ∃ before rest, cs = before ++ rest ∧ before.count '\n' = k ∧
      (before = [] ∨ ∃ earlier, before = earlier ++ ['\n']) ∧
      (origin :: startsFrom origin cs)[k]? = some (origin + before.length) ∧
      (startsFrom origin cs).drop k = startsFrom (origin + before.length) rest := by
  induction k generalizing origin cs with
  | zero => exact ⟨[], cs, rfl, rfl, .inl rfl, rfl, rfl⟩
  | succ k ih =>
    have hmem : '\n' ∈ cs := by
      by_cases h : '\n' ∈ cs
      · exact h
      · rw [startsFrom_of_not_mem h] at hk
        exact absurd hk (Nat.not_succ_le_zero k)
    obtain ⟨content, rest, rfl, hfree⟩ := eq_append_cons_of_mem hmem
    rw [startsFrom_newline hfree] at hk ⊢
    obtain ⟨before, rest', rfl, hcount, hbegins, hentry, hdrop⟩ := ih (Nat.le_of_succ_le_succ hk)
    have hplace : origin + (content ++ '\n' :: before).length =
        origin + content.length + 1 + before.length := by
      rw [length_append, length_cons]
      omega
    refine ⟨content ++ '\n' :: before, rest', by simp, ?_, .inr ?_, ?_, ?_⟩
    · rw [count_append, count_cons_self, count_eq_zero_of_not_mem hfree, hcount, Nat.zero_add]
    · obtain rfl | ⟨earlier, rfl⟩ := hbegins
      · exact ⟨content, rfl⟩
      · exact ⟨content ++ '\n' :: earlier, by simp⟩
    · rw [hplace]
      exact hentry
    · rw [hplace]
      exact hdrop

/-- Every number up to the size of the table is that of a line, which starts where the table says;
the next entry, if there is one, is the place after the newline that ends the line. -/
theorem exists_isLine {line : Int} (hfirst : 1 ≤ line) (hlast : line ≤ (starts cs).length) :
    ∃ before content after, IsLine cs line.toNat before content after ∧
      entryAt? (starts cs) (line - 1) = some before.length ∧ entryAt? (starts cs) line =
        if after = [] then none else some (before.length + content.length + 1) := by
  obtain ⟨k, rfl⟩ : ∃ k : Nat, line = k + 1 := ⟨(line - 1).toNat, by omega⟩
  have hle : k ≤ (startsFrom 0 cs).length := by
    simp only [starts, length_cons] at hlast
    omega
  obtain ⟨before, rest, rfl, hcount, hbegins, hentry, hdrop⟩ := exists_start hle
  obtain ⟨content, after, rfl, hfree, hends, hhead⟩ := exists_firstLine (0 + before.length) rest
  refine ⟨before, content, after, ⟨(append_assoc ..).symm, hfree, hbegins, hends, by omega⟩, ?_, ?_⟩
  · rw [entryAt?, if_pos (by omega), show ((k : Int) + 1 - 1).toNat = k by omega]
    rw [Nat.zero_add] at hentry
    exact hentry
  · rw [← hdrop, List.head?_drop, Nat.zero_add] at hhead
    rw [entryAt?, if_pos (by omega), show ((k : Int) + 1).toNat = k + 1 by omega]
    exact hhead

end LineTable

namespace Buffer

variable {b : Buffer} {line : Int}

/-- A stretch by what stands before it and after it. -/
theorem stretch_append (pre middle post : List Char) :
    stretch (pre ++ middle ++ post) (Int.ofNat pre.length)
      (Int.ofNat (pre.length + middle.length)) = middle := by
  have hclamp : ∀ n : Nat, n ≤ (pre ++ middle ++ post).length →
      clampIndex (pre ++ middle ++ post).length (Int.ofNat n) = n := by
    intro n hn
    simp only [clampIndex, Int.ofNat_eq_natCast]
    omega
  rw [stretch, hclamp _ (by simp), hclamp _ (by simp), take_left' (by simp), drop_left' rfl]

/-- Where a line starts and ends, and what it holds. -/
structure HasLine (b : Buffer) (line : Int) (before content after : List Char) : Prop where
  isLine : IsLine b.text line.toNat before content after
  range : 1 ≤ line ∧ line ≤ b.lineCount
  start_eq : LineTable.entryAt? b.table (line - 1) = some before.length
  next_eq : LineTable.entryAt? b.table line =
    if after = [] then none else some (before.length + content.length + 1)

theorem exists_hasLine (hfirst : 1 ≤ line) (hlast : line ≤ b.lineCount) :
    ∃ before content after, b.HasLine line before content after := by
  obtain ⟨before, content, after, hline, hstart, hnext⟩ := LineTable.exists_isLine hfirst hlast
  exact ⟨before, content, after, hline, ⟨hfirst, hlast⟩, hstart, hnext⟩

namespace HasLine

variable {before content after : List Char}

/-- Only the last line ends with the text. -/
theorem after_eq_nil_iff (h : b.HasLine line before content after) :
    after = [] ↔ line = b.lineCount := by
  obtain ⟨hfirst, hlast⟩ := h.range
  have hnext := h.next_eq
  rw [LineTable.entryAt?, if_pos (by omega)] at hnext
  constructor
  · intro hafter
    rw [if_pos hafter, List.getElem?_eq_none_iff] at hnext
    unfold lineCount at hlast ⊢
    omega
  · intro heq
    rw [List.getElem?_eq_none (by unfold lineCount at heq; omega)] at hnext
    split at hnext
    · assumption
    · cases hnext

theorem bounds_eq (h : b.HasLine line before content after) :
    b.bounds line = .ok (Int.ofNat before.length, Int.ofNat (before.length + content.length)) := by
  have hlength : b.text.length = before.length + content.length + after.length := by
    rw [h.isLine.text_eq, length_append, length_append]
  unfold bounds LineTable.bounds?
  rw [h.start_eq, h.next_eq]
  dsimp only
  by_cases hafter : after = []
  · have hlast : ¬ line < b.table.length := by
      rw [h.after_eq_nil_iff.1 hafter]
      exact Int.lt_irrefl _
    rw [if_neg hlast, hlength, hafter]
    rfl
  · have hlt : line < b.table.length :=
      Int.lt_iff_le_and_ne.2 ⟨h.range.2, mt h.after_eq_nil_iff.2 hafter⟩
    rw [if_pos hlt, if_neg hafter]
    refine congrArg Except.ok (Prod.ext rfl ?_)
    simp

theorem offset_eq (h : b.HasLine line before content after) :
    b.offset line = .ok (Int.ofNat before.length) := by
  obtain ⟨hfirst, hlast⟩ := h.range
  have hrange : ¬ (line < 1 ∨ (b.lineCount : Int) < line) := by omega
  unfold offset
  simp only [if_neg hrange, h.bounds_eq]
  refine congrArg Except.ok ?_
  simp only [Int.ofNat_eq_natCast]
  omega

theorem endOfLine_eq (h : b.HasLine line before content after) :
    b.endOfLine line = .ok (Int.ofNat (before.length + content.length)) := by
  unfold endOfLine
  rw [h.bounds_eq]
  rfl

theorem lineContent_eq (h : b.HasLine line before content after) :
    b.lineContent line = .ok content := by
  unfold lineContent
  rw [h.bounds_eq, h.isLine.text_eq]
  exact congrArg Except.ok (stretch_append before content after)

/-- The next line starts right after the newline that ends a line. -/
theorem offset_succ (h : b.HasLine line before content after) (hlast : line < b.lineCount) :
    (∃ later, after = '\n' :: later) ∧
      b.offset (line + 1) = .ok (Int.ofNat (before.length + content.length + 1)) := by
  have hafter : after ≠ [] := by
    intro hafter
    have := h.after_eq_nil_iff.1 hafter
    omega
  refine ⟨h.isLine.ends.resolve_left hafter, ?_⟩
  have hfirst : 1 ≤ line + 1 := by
    have := h.range
    omega
  obtain ⟨before', content', after', h'⟩ := exists_hasLine hfirst hlast
  have hstart := h'.start_eq
  rw [show line + 1 - 1 = line by omega, h.next_eq, if_neg hafter] at hstart
  rw [h'.offset_eq, Option.some.inj hstart]

end HasLine

/-- A buffer has no bounds for a line beyond its last. -/
theorem le_lineCount_of_bounds {range : Int × Int} (hfirst : 1 ≤ line)
    (h : b.bounds line = .ok range) : line ≤ b.lineCount := by
  unfold bounds at h
  cases hentry : LineTable.entryAt? b.table (line - 1) with
  | none =>
    rw [LineTable.bounds?, hentry] at h
    cases h
  | some start =>
    rw [LineTable.entryAt?, if_pos (by omega)] at hentry
    have hlt := (List.getElem?_eq_some_iff.1 hentry).1
    unfold lineCount
    omega

theorem le_lineCount_of_endOfLine {finish : Int} (hfirst : 1 ≤ line)
    (h : b.endOfLine line = .ok finish) : line ≤ b.lineCount := by
  cases hbounds : b.bounds line with
  | error fault =>
    rw [endOfLine, hbounds] at h
    cases h
  | ok range => exact le_lineCount_of_bounds hfirst hbounds

theorem le_lineCount_of_offset {column place : Int} (h : b.offset line column = .ok place) :
    1 ≤ line ∧ line ≤ b.lineCount := by
  unfold offset at h
  split at h
  · cases h
  · omega

/-! ## Ranges -/

/-- What a replacement that succeeds does: the range lies in the text, and the file is written with
the new text. -/
theorem replace_eq_ok {b' : Buffer} {disk disk' : Disk} {start finish : Int} {text : List Char}
    (h : b.replace disk start finish text = .ok (b', disk')) :
    (0 ≤ start ∧ start ≤ finish ∧ finish ≤ b.text.length) ∧
      b' = b.changed (b.text.take start.toNat ++ text ++ b.text.drop finish.toNat) ∧
      disk.writeText b.path b'.text = .ok disk' := by
  unfold replace at h
  split at h
  · next hrange =>
    dsimp only at h
    split at h
    · next hwrite =>
      cases h
      exact ⟨hrange, rfl, hwrite⟩
    · cases h
  · cases h

end Buffer

/-- Whatever the editor, compiler output is inserted by one replacement of the range. -/
theorem Editor.exists_replace {e : Editor} {b b' : Buffer} {disk disk' : Disk} {start finish : Int}
    {text : List Char} {fields : List Field}
    (h : e.insert b disk start finish text = .ok (fields, b', disk')) :
    ∃ inserted, b.replace disk start finish inserted = .ok (b', disk') := by
  cases e with
  | plain =>
    unfold insert at h
    cases hreplaced : b.replace disk start finish text with
    | error f =>
      rw [hreplaced] at h
      cases h
    | ok replaced =>
      rw [hreplaced] at h
      cases h
      exact ⟨text, hreplaced⟩
  | templated =>
    unfold insert Snippet.insertTemplate at h
    cases htokens : Snippet.tokens (Snippet.template text) with
    | error f =>
      rw [htokens] at h
      cases h
    | ok tokens =>
      rw [htokens] at h
      change (b.replace disk start finish (Snippet.expansion tokens) >>= _) = _ at h
      cases hreplaced : b.replace disk start finish (Snippet.expansion tokens) with
      | error f =>
        rw [hreplaced] at h
        cases h
      | ok replaced =>
        rw [hreplaced] at h
        cases h
        exact ⟨Snippet.expansion tokens, hreplaced⟩

end IdeMode
