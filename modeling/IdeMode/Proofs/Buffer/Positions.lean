import IdeMode.Proofs.Buffer.Holes
set_option autoImplicit false

/-!
# Offsets and positions

From an offset to a line and column leads a search in the line table, and back lead the bounds of
the line. Every offset of a text lies in one line or right behind it, before its newline or the end
of the text. There the two ways are inverse to each other.
-/

namespace IdeMode

open List

namespace LineTable

theorem startsFrom_append (origin : Nat) (cs ds : List Char) :
    startsFrom origin (cs ++ ds) = startsFrom origin cs ++ startsFrom (origin + cs.length) ds := by
  induction cs generalizing origin with
  | nil => rfl
  | cons c cs ih =>
    rw [cons_append, startsFrom, startsFrom, ih, length_cons, Nat.add_right_comm origin 1,
      Nat.add_assoc origin]
    split <;> rfl

theorem le_of_mem_startsFrom {origin start : Nat} {cs : List Char}
    (h : start ∈ startsFrom origin cs) : start ≤ origin + cs.length := by
  induction cs generalizing origin with
  | nil => cases h
  | cons c cs ih =>
    have hrest : start ∈ startsFrom (origin + 1) cs → start ≤ origin + (c :: cs).length := by
      intro hmem
      have := ih hmem
      rw [length_cons]
      omega
    unfold startsFrom at h
    split at h
    · rcases mem_cons.1 h with rfl | hmem
      · simp
      · exact hrest hmem
    · exact hrest h

end LineTable

/-- Around every offset there is a line. -/
theorem IsLine.exists_at (cs : List Char) {o : Nat} (ho : o ≤ cs.length) :
    ∃ before left right after, IsLine cs (before.count '\n' + 1) before (left ++ right) after ∧
      before.length + left.length = o := by
  obtain ⟨before, left, hpre, hleft, hbegins⟩ :
    ∃ before left, cs.take o = before ++ left ∧ '\n' ∉ left ∧
      (before = [] ∨ ∃ earlier, before = earlier ++ ['\n']) := by
    by_cases hmem : '\n' ∈ cs.take o
    · obtain ⟨earlier, left, hsplit, hleft⟩ := Buffer.exists_lastMark hmem
      exact ⟨earlier ++ ['\n'], left, by simp [hsplit], hleft, .inr ⟨earlier, rfl⟩⟩
    · exact ⟨[], cs.take o, rfl, hmem, .inl rfl⟩
  obtain ⟨right, after, hpost, hright, hends, -⟩ := LineTable.exists_firstLine 0 (cs.drop o)
  refine ⟨before, left, right, after, ⟨?_, by simp [hleft, hright], hbegins, hends, rfl⟩, ?_⟩
  · rw [← append_assoc, ← hpre, append_assoc, ← hpost, take_append_drop]
  · rw [← length_append, ← hpre, length_take_of_le ho]

namespace Buffer

variable {b : Buffer} {line : Int} {before content after : List Char}

/-- The lines of the text, in order. -/
theorem HasLine.getElem?_splitOn (h : b.HasLine line before content after) :
    (b.text.splitOn '\n')[line.toNat - 1]? = some content := by
  obtain ⟨above, below, hnumber, haround⟩ := h.isLine.exists_around
  rw [h.isLine.text_eq, haround, splitOn_eq_singleton h.isLine.free, ← hnumber]
  simp

/-- The search for an offset in a line, its end included, stops right behind the entry of the
line. -/
theorem HasLine.position_eq (h : b.HasLine line before content after) {k : Nat}
    (hk : k ≤ content.length) :
    b.position (Int.ofNat (before.length + k)) = (line, (k : Int) + 1) := by
  have htable : b.table = (0 :: LineTable.startsFrom 0 before) ++
        LineTable.startsFrom (before.length + content.length) after := by
    rw [table, LineTable.starts, h.isLine.text_eq, LineTable.startsFrom_append,
      LineTable.startsFrom_append, LineTable.startsFrom_of_not_mem h.isLine.free, append_nil,
      length_append, Nat.zero_add]
    rfl
  have hupto : ∀ start ∈ 0 :: LineTable.startsFrom 0 before,
      decide (Int.ofNat start ≤ Int.ofNat (before.length + k)) = true := by
    intro start hstart
    rw [decide_eq_true_iff, Int.ofNat_eq_natCast, Int.ofNat_eq_natCast, Int.ofNat_le]
    rcases mem_cons.1 hstart with rfl | hmem
    · exact Nat.zero_le _
    · have := LineTable.le_of_mem_startsFrom hmem
      omega
  have hbeyond : (LineTable.startsFrom (before.length + content.length) after).takeWhile
      (fun start => decide (Int.ofNat start ≤ Int.ofNat (before.length + k))) = [] := by
    rcases h.isLine.ends with rfl | ⟨later, rfl⟩
    · rfl
    · rw [LineTable.startsFrom, if_pos rfl, takeWhile_cons_of_neg]
      simp only [Int.ofNat_eq_natCast, decide_eq_true_iff]
      omega
  have hnumber : (1 + before.count '\n' : Nat) = line := by
    have := h.isLine.number_eq
    have := h.range
    omega
  unfold position LineTable.position
  rw [htable, takeWhile_append_of_pos hupto, hbeyond, append_nil, length_cons,
    LineTable.length_startsFrom, Nat.add_comm, ← htable]
  dsimp only
  rw [show Int.ofNat (1 + before.count '\n') = line from hnumber, hnumber, h.start_eq]
  refine Prod.ext rfl ?_
  simp only [Option.getD_some, Int.ofNat_eq_natCast]
  omega

/-- **Offsets and positions are inverse to each other.** The lines start one after the other, none
holds a newline, and joined by newlines they are the text. Every offset up to the end of the text
has a position, at a line and a column in it or right behind it, and the offset of that is the same.
And for every line and every column the offset has as its position that line, and the column moved
into it. -/
theorem positions_and_offsets_inverse (b : Buffer) :
    b.table.Pairwise (· < ·) ∧
    (∃ lines : List (List Char), lines.length = b.lineCount ∧
      (∀ (k : Nat) (hk : k < lines.length), b.lineContent (k + 1) = .ok lines[k] ∧
        '\n' ∉ lines[k]) ∧ ['\n'].intercalate lines = b.text) ∧
    (∀ o : Int, 0 ≤ o → o ≤ b.text.length → ∃ (line column : Int) (content : List Char),
      b.position o = (line, column) ∧ (1 ≤ line ∧ line ≤ b.lineCount) ∧
        b.lineContent line = .ok content ∧
      (1 ≤ column ∧ column ≤ content.length + 1) ∧ b.offset line column = .ok o) ∧
    ∀ line column : Int, 1 ≤ line → line ≤ b.lineCount → ∃ (o : Int) (content : List Char),
      b.lineContent line = .ok content ∧ b.offset line column = .ok o ∧
      b.position o = (line, max 1 (min column (content.length + 1))) := by
  refine ⟨LineTable.pairwise_starts b.text,
    ⟨b.text.splitOn '\n', ?_, ?_, intercalate_splitOn '\n'⟩, ?_, ?_⟩
  · rw [length_splitOn_newline, lineCount, table, LineTable.starts, length_cons,
      LineTable.length_startsFrom]
  · intro k hk
    have hlast : (k + 1 : Int) ≤ b.lineCount := by
      rw [length_splitOn_newline] at hk
      rw [lineCount, table, LineTable.starts, length_cons, LineTable.length_startsFrom]
      omega
    obtain ⟨before, content, after, hline⟩ := exists_hasLine (show (1 : Int) ≤ k + 1 by omega) hlast
    have hcontent := hline.getElem?_splitOn
    rw [show ((k : Int) + 1).toNat - 1 = k by omega, List.getElem?_eq_getElem hk] at hcontent
    rw [Option.some.inj hcontent]
    exact ⟨hline.lineContent_eq, hline.isLine.free⟩
  · intro o hfirst hlast
    obtain ⟨n, rfl⟩ := Int.eq_ofNat_of_zero_le hfirst
    obtain ⟨before, left, right, after, hisLine, rfl⟩ :=
      IsLine.exists_at b.text (Int.ofNat_le.1 hlast)
    have hline : b.HasLine ((before.count '\n' + 1 : Nat) : Int) before (left ++ right) after :=
      IsLine.hasLine hisLine
    have hplace : placeIn (left ++ right) (left.length + 1) = left.length := by
      simp only [placeIn, length_append]
      omega
    refine ⟨_, _, _, hline.position_eq (k := left.length) (by simp), hline.range,
      hline.lineContent_eq, ?_, ?_⟩
    · rw [length_append]
      omega
    · rw [hline.placeOffset_eq, hplace]
      rfl
  · intro line column hfirst hlast
    obtain ⟨before, content, after, hline⟩ := exists_hasLine hfirst hlast
    refine ⟨_, content, hline.lineContent_eq, hline.placeOffset_eq, ?_⟩
    have hplace : placeIn content column ≤ content.length := Nat.min_le_right _ _
    rw [hline.position_eq hplace]
    refine Prod.ext rfl ?_
    simp only [placeIn]
    omega

end Buffer

end IdeMode
