import IdeMode.Proofs.Buffer.Lines
import IdeMode.Proofs.Text.Utf8
set_option autoImplicit false

/-!
# Line terminators and edits

A file is read with every line terminator turned into a newline, and it is written as the text
stands. So the first edit after a file was read turns every terminator outside its range into a
newline, and only the edits after it leave the rest of the file alone.
-/

namespace IdeMode

open List

namespace Text

/-- No line terminator lies across the border of two texts. -/
def Seam (x y : List Char) : Prop := ¬ (x.getLast? = some '\r' ∧ y.head? = some '\n')

variable {c : Char} {x y z : List Char}

theorem Seam.nil (y : List Char) : Seam [] y :=
  fun hends => absurd hends.1 (Option.some_ne_none _).symm

theorem Seam.append (hleft : Seam x (y ++ z)) (h : Seam y z) : Seam (x ++ y) z := by
  cases y with
  | nil => rwa [append_nil]
  | cons d y =>
    rwa [Seam, List.getLast?_append, List.getLast?_cons, Option.some_or, ← List.getLast?_cons]

theorem Seam.of_cons (h : Seam (c :: x) y) : Seam x y := by
  cases x with
  | nil => exact .nil y
  | cons d x => rwa [Seam, List.getLast?_cons_cons] at h

theorem normalizeNewlines_cons (h : Seam [c] x) :
    normalizeNewlines (c :: x) = (if c = '\r' then '\n' else c) :: normalizeNewlines x := by
  rw [normalizeNewlines]
  rintro rest rfl rfl
  exact h ⟨rfl, rfl⟩

theorem normalizeNewlines_append (h : Seam x y) :
    normalizeNewlines (x ++ y) = normalizeNewlines x ++ normalizeNewlines y := by
  fun_induction normalizeNewlines x with
  | case1 => rfl
  | case2 cs ih => exact congrArg (List.cons '\n') (ih h.of_cons.of_cons)
  | case3 c cs hsingle ih =>
    have hc : Seam [c] (cs ++ y) := by
      cases cs with
      | nil => exact h
      | cons d cs =>
        exact fun hends => hsingle cs (Option.some.inj hends.1) (by rw [Option.some.inj hends.2])
    rw [cons_append, normalizeNewlines_cons hc, ih h.of_cons, cons_append]

/-- Every place of the text that is read lies between two characters of the file, and not inside a
terminator. -/
theorem exists_seam (cs : List Char) {n : Nat} (hn : n ≤ (normalizeNewlines cs).length) :
    ∃ x y, cs = x ++ y ∧ Seam x y ∧ (normalizeNewlines x).length = n := by
  fun_induction normalizeNewlines cs generalizing n with
  | case1 => exact ⟨[], [], rfl, .nil _, (Nat.le_zero.1 hn).symm⟩
  | case2 cs ih =>
    cases n with
    | zero => exact ⟨[], _, rfl, .nil _, rfl⟩
    | succ n =>
      obtain ⟨x, y, rfl, hseam, hlength⟩ := ih (Nat.le_of_succ_le_succ hn)
      exact ⟨['\r', '\n'] ++ x, y, rfl, .append (by simp [Seam]) hseam, congrArg (· + 1) hlength⟩
  | case3 c cs hsingle ih =>
    cases n with
    | zero => exact ⟨[], _, rfl, .nil _, rfl⟩
    | succ n =>
      obtain ⟨x, y, rfl, hseam, hlength⟩ := ih (Nat.le_of_succ_le_succ hn)
      have hc : Seam [c] (x ++ y) := by
        rintro ⟨hc, hnext⟩
        obtain ⟨rest, hrest⟩ := List.head?_eq_some_iff.1 hnext
        exact hsingle rest (Option.some.inj hc) hrest
      refine ⟨c :: x, y, rfl, hc.append hseam, ?_⟩
      rw [normalizeNewlines_cons, length_cons, hlength]
      rintro ⟨hlast, hnext⟩
      exact hc ⟨hlast, by rw [List.head?_append, hnext]; rfl⟩

/-- Every range of the text that is read is a stretch of the file. -/
theorem exists_stretch (cs : List Char) {m n : Nat} (hle : m ≤ n)
    (hn : n ≤ (normalizeNewlines cs).length) :
    ∃ x y z, cs = x ++ y ++ z ∧ Seam x (y ++ z) ∧ Seam (x ++ y) z ∧
      (normalizeNewlines x).length = m ∧ (normalizeNewlines (x ++ y)).length = n := by
  obtain ⟨x, rest, rfl, hx, hm⟩ := exists_seam cs (Nat.le_trans hle hn)
  have hwhole := congrArg List.length (normalizeNewlines_append hx)
  rw [length_append, hm] at hwhole
  obtain ⟨y, z, rfl, hy, hwidth⟩ := exists_seam rest (show n - m ≤ _ by omega)
  rw [normalizeNewlines_append hy, length_append, hwidth] at hwhole
  have hz := hx.append hy
  have hlast := congrArg List.length (normalizeNewlines_append hz)
  rw [length_append, append_assoc] at hlast
  exact ⟨x, y, z, (append_assoc ..).symm, hx, hz, hm, by omega⟩

end Text

namespace Buffer

open Text

/-- In the file, every edit of the buffer replaces exactly the characters of its range. -/
def EditsInPlace (b : Buffer) (disk : Disk) : Prop :=
  ∀ start finish text b' disk', b.replace disk start finish text = .ok (b', disk') →
    ∃ x y z, disk.file? b.path = some (Utf8.encode (x ++ y ++ z)) ∧ x.length = start ∧
      (x ++ y).length = finish ∧ disk'.file? b.path = some (Utf8.encode (x ++ text ++ z))

/-- After an edit the file holds the text as it stands. -/
theorem editsInPlace {b b' : Buffer} {disk disk' : Disk} {start finish : Int} {text : List Char}
    (h : b.replace disk start finish text = .ok (b', disk')) : b'.EditsInPlace disk' := by
  obtain ⟨-, hb, hwrite⟩ := replace_eq_ok h
  have hfile : disk'.file? b'.path = some (Utf8.encode b'.text) := by
    rw [show b'.path = b.path from hb ▸ rfl]
    exact (Disk.file?_write hwrite _).trans (if_pos rfl)
  intro start finish text b'' disk'' hreplace
  obtain ⟨hrange, rfl, hwrite⟩ := replace_eq_ok hreplace
  have hcut := take_append_drop finish.toNat b'.text
  have hstart := take_append_drop start.toNat (b'.text.take finish.toNat)
  rw [take_take, Nat.min_eq_left (by omega)] at hstart
  refine ⟨_, (b'.text.take finish.toNat).drop start.toNat, _, ?_, ?_, ?_,
    (Disk.file?_write hwrite _).trans (if_pos rfl)⟩
  · rw [hfile, hstart, hcut]
  · rw [length_take]
    omega
  · rw [hstart, length_take]
    omega

theorem ofDisk_eq {disk : Disk} {p : Path} {raw : List Char}
    (h : disk.file? p = some (Utf8.encode raw)) :
    ofDisk disk p = .ok { path := p, text := normalizeNewlines raw } := by
  unfold ofDisk Disk.readText Disk.read
  rw [h]
  dsimp only
  rw [Utf8.decode?, Utf8.decodeFrom?_encode]

theorem exists_replace_eq_ok {b : Buffer} {disk : Disk} {start finish : Int}
    (hfile : (disk.file? b.path).isSome)
    (hrange : 0 ≤ start ∧ start ≤ finish ∧ finish ≤ b.text.length) (text : List Char) :
    ∃ b' disk', b.replace disk start finish text = .ok (b', disk') := by
  unfold replace Disk.writeText Disk.write
  rw [if_pos hrange]
  dsimp only
  rw [if_pos (.inl hfile)]
  exact ⟨_, _, rfl⟩

theorem normalizeNewlines_around_eq_iff {before text after : List Char} :
    normalizeNewlines before ++ text ++ normalizeNewlines after = before ++ text ++ after ↔
      '\r' ∉ before ∧ '\r' ∉ after := by
  constructor
  · intro heq
    have hcount := congrArg (List.count '\r') heq
    simp only [count_append, count_eq_zero.2 (not_mem_normalizeNewlines _)] at hcount
    constructor <;> rw [← count_eq_zero] <;> omega
  · rintro ⟨hbefore, hafter⟩
    rw [normalizeNewlines_of_not_mem hbefore, normalizeNewlines_of_not_mem hafter]

/-- **What the first edit does to the rest of the file.** A file of UTF-8 with any line terminators
is read, and a range is replaced; every range of the text can be. The range is a stretch of the
file, and what is written around the new text are the two ends of the file with every terminator
turned into a newline; no other file changes. So the file keeps what is outside the range if and
only if there is no carriage return there. An edit that follows another always keeps it. -/
theorem first_edit_turns_terminators {disk : Disk} {p : Path} {raw : List Char}
    (hfile : disk.file? p = some (Utf8.encode raw)) (start finish : Int) (text : List Char) :
    (∃ b, ofDisk disk p = .ok b ∧ (0 ≤ start ∧ start ≤ finish ∧ finish ≤ b.text.length →
        ∃ b' disk', b.replace disk start finish text = .ok (b', disk')) ∧
      ∀ b' disk', b.replace disk start finish text = .ok (b', disk') →
        ∃ before cut after, raw = before ++ cut ++ after ∧
          (normalizeNewlines before).length = start ∧
            (normalizeNewlines (before ++ cut)).length = finish ∧
          Seam before (cut ++ after) ∧ Seam (before ++ cut) after ∧
          (∀ q, disk'.file? q = if p = q then
            some (Utf8.encode (normalizeNewlines before ++ text ++ normalizeNewlines after))
            else disk.file? q) ∧ (disk'.file? p = some (Utf8.encode (before ++ text ++ after)) ↔
            '\r' ∉ before ∧ '\r' ∉ after)) ∧
    ∀ (b b' : Buffer) (disk disk' : Disk) (start finish : Int) (text : List Char),
      b.replace disk start finish text = .ok (b', disk') → b'.EditsInPlace disk' := by
  refine ⟨⟨_, ofDisk_eq hfile,
    fun hrange => exists_replace_eq_ok (by rw [hfile]; rfl) hrange text, ?_⟩,
    fun _ _ _ _ _ _ _ => editsInPlace⟩
  intro b' disk' hreplace
  obtain ⟨⟨hstart, hle, hfinish⟩, rfl, hwrite⟩ := replace_eq_ok hreplace
  have hfiles := Disk.file?_write hwrite
  dsimp only at hfinish
  obtain ⟨before, cut, after, rfl, hbefore, hafter, hm, hn⟩ :=
    exists_stretch raw (show start.toNat ≤ finish.toNat by omega) (by omega)
  have htext : (normalizeNewlines (before ++ cut ++ after)).take start.toNat ++ text ++
      (normalizeNewlines (before ++ cut ++ after)).drop finish.toNat =
      normalizeNewlines before ++ text ++ normalizeNewlines after := by
    rw [normalizeNewlines_append hafter, drop_left' hn, ← normalizeNewlines_append hafter,
      append_assoc before, normalizeNewlines_append hbefore, take_left' hm]
  dsimp only [changed] at hfiles
  rw [htext] at hfiles
  refine ⟨before, cut, after, rfl, by omega, by omega, hbefore, hafter, hfiles, ?_⟩
  rw [hfiles p, if_pos rfl, Option.some_inj, ← normalizeNewlines_around_eq_iff]
  exact ⟨Utf8.encode_inj, congrArg Utf8.encode⟩

/-- The first of two lines is edited: it loses its carriage return, and so does the second. -/
theorem first_edit_turns_terminators_windows :
    let disk : Disk := { files := [(⟨["A.idr"]⟩, Utf8.encode "a\r\nb\r\n".toList)] }
    ∃ b b' disk', ofDisk disk ⟨["A.idr"]⟩ = .ok b ∧
      b.replace disk 0 1 "x".toList = .ok (b', disk') ∧
      disk'.file? ⟨["A.idr"]⟩ = some (Utf8.encode "x\nb\n".toList) ∧
      disk'.file? ⟨["A.idr"]⟩ ≠ some (Utf8.encode "x\r\nb\r\n".toList) ∧ b'.EditsInPlace disk' := by
  intro disk
  have hfile : disk.file? ⟨["A.idr"]⟩ = some (Utf8.encode "a\r\nb\r\n".toList) := rfl
  obtain ⟨⟨b, hopen, hreplace, -⟩, hedit⟩ := first_edit_turns_terminators hfile 0 1 "x".toList
  obtain rfl := Except.ok.inj hopen
  obtain ⟨b', disk', hok⟩ := hreplace (by decide)
  exact ⟨_, b', disk', hopen, hok, by cases hok; rfl, by cases hok; decide, hedit _ _ _ _ _ _ _ hok⟩

end Buffer

end IdeMode
