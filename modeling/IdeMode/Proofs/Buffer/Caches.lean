import IdeMode.Proofs.Buffer.Lines
import IdeMode.Proofs.Prog.Environment
set_option autoImplicit false

/-!
# What is kept beside the text

A buffer derives its line table and its digest from the text whenever they are asked for, and says
of a failed operation only that it failed. An editor keeps all of it: the text, the digest, the line
table and the listeners are stored one by one, and an operation that fails half way leaves behind
what it did until then. Here is the buffer stored so, with its operations step by step. What is
stored never gets out of step, and the operations do what the buffer says. A failed operation leaves
everything as it was, except that the file is lost if the text to be written has no encoding.
-/

namespace IdeMode

/-- A buffer as it is stored, with the files around it. -/
structure Cell where
  disk : Disk
  path : Path
  text : List Char := []
  /-- the digest of the text; empty before the file was read -/
  digest : String := ""
  table : List Nat := [0]
  /-- how often each listener was told of a change -/
  heard : List Nat := []

namespace Cell

/-- An operation on a stored buffer: what it stored before a fault stays stored. -/
abbrev Method (α : Type) : Type := Prog Cell Empty α

/-- The digest by which a text is known. -/
def digestOf (text : List Char) : String := Text.Sha256.digest (Text.Utf8.encode text)

/-- Stores a text and what is derived from it. -/
def put (text : List Char) (digest : String) : Method Unit :=
  modify fun c => { c with text := text, digest := digest, table := LineTable.starts text }

/-- Tells every listener of a change. -/
def announce : Method Unit := modify fun c => { c with heard := c.heard.map (· + 1) }

/-- Reads the file again. The text is taken for the same if its digest is, and the first time nobody
is told. -/
def refresh : Method Bool := do
  let c ← get
  let text ← Prog.ofResult ((c.disk.readText c.path).mapError Fault.file)
  if digestOf text = c.digest then return false
  put text (digestOf text)
  unless c.digest = "" do announce
  return true

/-- Writes a text to the file, then stores it, then tells of it. -/
def save (text : List Char) : Method Unit := do
  let c ← get
  let disk ← Prog.ofResult ((c.disk.writeText c.path text).mapError Fault.file)
  modify fun c => { c with disk := disk }
  put text (digestOf text)
  announce

/-- Opens the file for a text that has no encoding: the file is empty before that shows. -/
def spoil : Method Unit := do
  let c ← get
  let disk ← Prog.ofResult ((c.disk.writeText c.path []).mapError Fault.file)
  modify fun c => { c with disk := disk }
  throw (.file .unencodable)

/-- Replaces a range of the text. -/
def replace (start finish : Int) (text : Buffer.Wording) : Method Unit := do
  let c ← get
  if 0 ≤ start ∧ start ≤ finish ∧ finish ≤ c.text.length then
    match text with
    | .text cs => save (c.text.take start.toNat ++ cs ++ c.text.drop finish.toNat)
    | .unencodable => spoil
  else throw (.badRange start finish c.text.length)

/-- Replaces the content of a line, which is looked up in the stored table. -/
def setLine (line : Int) (text : Buffer.Wording) : Method Unit := do
  let c ← get
  match LineTable.bounds? c.table c.text.length line with
  | some range => replace range.1 range.2 text
  | none => throw .outOfTable

/-- An operation on a buffer. -/
inductive Operation where
  | refresh
  | replace (start finish : Int) (text : Buffer.Wording)
  | insert (place : Int) (text : Buffer.Wording)
  | setLine (line : Int) (text : Buffer.Wording)

namespace Operation

/-- An operation on a stored buffer; the answer is whether it changed. -/
def method : Operation → Method Bool
  | .refresh => Cell.refresh
  | .replace start finish text => do Cell.replace start finish text; return true
  | .insert place text => do Cell.replace place place text; return true
  | .setLine line text => do Cell.setLine line text; return true

/-- The same operation on a buffer and the files around it. -/
def apply (b : Buffer) (d : Disk) : Operation → Result (Bool × Buffer) × Disk
  | .refresh => (b.reread d, d)
  | .replace start finish text => (b.replaceBy d start finish text).map (·.map (true, ·)) id
  | .insert place text => (b.insertBy d place text).map (·.map (true, ·)) id
  | .setLine line text => (b.setLineBy d line text).map (·.map (true, ·)) id

/-- The text that is to be written. -/
def text? : Operation → Option Buffer.Wording
  | .refresh => none
  | .replace _ _ text | .insert _ text | .setLine _ text => some text

end Operation

/-- What is stored beside the text is derived from it. -/
structure Sound (c : Cell) : Prop where
  digest_eq : c.digest = digestOf c.text
  table_eq : c.table = LineTable.starts c.text

/-- The stored buffers that there can be: the file was read, and since then listeners were added,
others changed files in any way, and operations ended well or in a fault. -/
inductive Reached : Cell → Prop where
  | opened {disk : Disk} {path : Path} {c : Cell} {changed : Bool}
    (h : refresh.run { disk := disk, path := path } = (.finished (.ok changed), c)) : Reached c
  | listened {c : Cell} (h : Reached c) : Reached { c with heard := c.heard ++ [0] }
  | outside {c : Cell} (h : Reached c) (disk : Disk) : Reached { c with disk := disk }
  | operated {c : Cell} (h : Reached c) (op : Operation) : Reached (op.method.run c).2

/-! ## One operation -/

/-- The buffer that is stored, with no change announced yet. -/
def buffer (c : Cell) : Buffer := { path := c.path, text := c.text }

/-- What is stored after the buffer and the files became others; each change is told to every
listener. -/
def follow (c : Cell) (b : Buffer) (d : Disk) : Cell :=
  { c with
    disk := d, text := b.text, digest := b.digest, table := b.table,
      heard := c.heard.map (· + b.revision) }

/-- An operation on a stored buffer ends as the buffer says, and where that fails everything but the
files is as it was. -/
def Follows {α : Type} (c : Cell) (outcome : Prog.Halt Cell Empty α × Cell)
    (r : Result (α × Buffer) × Disk) : Prop :=
  outcome = match r with
    | (.ok (a, b), d) => (.finished (.ok a), c.follow b d)
    | (.error f, d) => (.finished (.error f), { c with disk := d })

variable {c : Cell}

theorem digestOf_ne_empty (text : List Char) : digestOf text ≠ "" := by
  have hdigits : ∀ (n : Nat) (rest : List Char),
      String.ofList (Text.hexPadded 8 n ++ rest) ≠ "" := by
    intro n rest hnil
    have hlength := congrArg String.length hnil
    simp only [Text.hexPadded, String.length_ofList, List.length_append, List.length_replicate,
      String.length_empty] at hlength
    omega
  exact hdigits _ _

theorem follows_replace (c : Cell) (start finish : Int) (text : Buffer.Wording) :
    c.Follows ((replace start finish text).run c)
      ((c.buffer.replaceBy c.disk start finish text).map (·.map ((), ·)) id) := by
  show Prog.run (if 0 ≤ start ∧ start ≤ finish ∧ finish ≤ c.text.length then _ else _) c = _
  cases text with
  | text cs =>
    dsimp only [Buffer.replaceBy, Buffer.replace]
    rw [show c.buffer.text = c.text from rfl]
    split
    · -- the file is written first, so a file that cannot be written leaves nothing stored
      show Prog.run (Prog.ofResult (Except.mapError Fault.file (c.disk.writeText c.path _)) >>= _)
        c = _
      dsimp only [buffer]
      cases c.disk.writeText c.path (c.text.take start.toNat ++ cs ++ c.text.drop finish.toNat) <;>
        rfl
    · rfl
  | unencodable =>
    dsimp only [Buffer.replaceBy]
    rw [show c.buffer.text = c.text from rfl]
    split
    · show Prog.run (Prog.ofResult (Except.mapError Fault.file (c.disk.writeText c.path [])) >>= _)
        c = _
      dsimp only [buffer]
      cases c.disk.writeText c.path [] <;> rfl
    · rfl

theorem setLineBy_eq (c : Cell) (line : Int) (text : Buffer.Wording) :
    c.buffer.setLineBy c.disk line text =
      match LineTable.bounds? (LineTable.starts c.text) c.text.length line with
    | some range => c.buffer.replaceBy c.disk range.1 range.2 text
    | none => (.error .outOfTable, c.disk) := by
  show (match (match LineTable.bounds? (LineTable.starts c.text) c.text.length line with
    | some range => Except.ok range
    | none => Except.error Fault.outOfTable) with
    | .ok (start, finish) => c.buffer.replaceBy c.disk start finish text
    | .error fault => (.error fault, c.disk)) = _
  cases LineTable.bounds? (LineTable.starts c.text) c.text.length line <;> rfl

theorem follows_setLine (hc : c.Sound) (line : Int) (text : Buffer.Wording) :
    c.Follows ((setLine line text).run c)
      ((c.buffer.setLineBy c.disk line text).map (·.map ((), ·)) id) := by
  show c.Follows (Prog.run (match LineTable.bounds? c.table c.text.length line with
    | some range => replace range.1 range.2 text
    | none => throw .outOfTable) c) _
  rw [setLineBy_eq, ← hc.table_eq]
  cases LineTable.bounds? c.table c.text.length line with
  | none => rfl
  | some range => exact follows_replace c range.1 range.2 text

theorem Follows.andReturn {α : Type} {a : α} {p : Method Unit} {r : Result Buffer × Disk}
    (h : c.Follows (p.run c) (r.map (·.map ((), ·)) id)) :
    c.Follows ((do p; return a : Method α).run c) (r.map (·.map (a, ·)) id) := by
  rw [Prog.run_bind, h]
  obtain ⟨_ | _, _⟩ := r <;> rfl

theorem run_refresh (c : Cell) : refresh.run c =
    match c.disk.readText c.path with
    | .error f => (.finished (.error (.file f)), c)
    | .ok text =>
      if digestOf text = c.digest then (.finished (.ok false), c)
      else (.finished (.ok true), { c with
        text := text, digest := digestOf text, table := LineTable.starts text,
        heard := if c.digest = "" then c.heard else c.heard.map (· + 1) }) := by
  show Prog.run (Prog.ofResult (Except.mapError Fault.file (c.disk.readText c.path)) >>= _) c = _
  cases c.disk.readText c.path with
  | error f => rfl
  | ok text =>
    show Prog.run (if digestOf text = c.digest then _ else _) c = _
    dsimp only
    split
    · rfl
    · by_cases hfirst : c.digest = ""
      · rw [if_pos hfirst, if_pos hfirst]
        rfl
      · rw [if_neg hfirst, if_neg hfirst]
        rfl

/-- The digest of the text in the file is that of the stored text only if the texts are the same. -/
def Distinguishes (c : Cell) : Prop :=
  ∀ text, c.disk.readText c.path = .ok text → digestOf text = c.digest → text = c.text

theorem follows_refresh (hc : c.Sound) (hdistinct : c.Distinguishes) :
    c.Follows (refresh.run c) (c.buffer.reread c.disk, c.disk) := by
  have hread : c.digest ≠ "" := hc.digest_eq ▸ digestOf_ne_empty c.text
  unfold Follows Buffer.reread
  rw [run_refresh, show c.buffer.path = c.path from rfl]
  cases htext : c.disk.readText c.path with
  | error f => rfl
  | ok text =>
    dsimp only
    rw [if_neg hread]
    by_cases hsame : text = c.text
    · have hkept : c.follow c.buffer c.disk = c := by
        have hdigest : c.buffer.digest = c.digest := hc.digest_eq.symm
        have htable : c.buffer.table = c.table := hc.table_eq.symm
        unfold follow
        rw [hdigest, htable]
        simp [buffer]
      rw [if_pos (hsame ▸ hc.digest_eq.symm), if_pos (show text = c.buffer.text from hsame)]
      exact congrArg _ hkept.symm
    · rw [if_neg fun heq => hsame (hdistinct text htext heq),
        if_neg (show ¬ text = c.buffer.text from hsame)]
      rfl

/-- An operation on a stored buffer does what the buffer says. To read the file again, the digest
has to tell the text there from the stored one. -/
theorem follows_method (hc : c.Sound) {op : Operation}
    (hdistinct : op = .refresh → c.Distinguishes) :
    c.Follows (op.method.run c) (op.apply c.buffer c.disk) := by
  cases op with
  | refresh => exact follows_refresh hc (hdistinct rfl)
  | replace start finish text => exact (follows_replace c start finish text).andReturn
  | insert place text => exact (follows_replace c place place text).andReturn
  | setLine line text => exact (follows_setLine hc line text).andReturn

/-! ## All operations -/

theorem Sound.operated (hc : c.Sound) (op : Operation) : (op.method.run c).2.Sound := by
  by_cases hop : op = .refresh
  · subst hop
    show (refresh.run c).2.Sound
    rw [run_refresh]
    split
    · exact hc
    · split
      · exact hc
      · exact ⟨rfl, rfl⟩
  · rw [show op.method.run c = _ from follows_method hc fun h => absurd h hop]
    split
    · exact ⟨rfl, rfl⟩
    · exact ⟨hc.digest_eq, hc.table_eq⟩

theorem Reached.sound (h : Reached c) : c.Sound := by
  induction h with
  | opened h =>
    rw [run_refresh] at h
    split at h
    · cases h
    · rw [if_neg (digestOf_ne_empty _)] at h
      cases h
      exact ⟨rfl, rfl⟩
  | listened _ ih => exact ⟨ih.digest_eq, ih.table_eq⟩
  | outside _ disk ih => exact ⟨ih.digest_eq, ih.table_eq⟩
  | operated _ op ih => exact ih.operated op

/-- A range was replaced: in the text, in the file, and every listener was told once. -/
structure Mutated (c : Cell) (start finish : Int) (inserted : List Char) (c' : Cell) : Prop where
  range : 0 ≤ start ∧ start ≤ finish ∧ finish ≤ c.text.length
  text_eq : c'.text = c.text.take start.toNat ++ inserted ++ c.text.drop finish.toNat
  file_eq :
    ∀ q, c'.disk.file? q = if c.path = q then some (Text.Utf8.encode c'.text) else c.disk.file? q
  heard_eq : c'.heard = c.heard.map (· + 1)

/-- The text of the file was taken over, and every listener was told once if it was another. -/
structure Refreshed (c : Cell) (text : List Char) (changed : Bool) (c' : Cell) : Prop where
  read : c.disk.readText c.path = .ok text
  text_eq : c'.text = text
  disk_eq : c'.disk = c.disk
  changed_iff : changed = true ↔ text ≠ c.text
  heard_eq : c'.heard = if text = c.text then c.heard else c.heard.map (· + 1)

/-- The file was emptied, and nothing else has changed. -/
structure Spoiled (c c' : Cell) : Prop where
  file_eq : ∀ q, c'.disk.file? q = if c.path = q then some [] else c.disk.file? q
  kept : { c' with disk := c.disk } = c

/-- What an operation that ended well did. Whether a text read again is another is judged by its
digest. -/
def Operation.Effect (c : Cell) (changed : Bool) (c' : Cell) : Operation → Prop
  | .refresh => c.Distinguishes → ∃ text, c.Refreshed text changed c'
  | .replace start finish text => ∃ cs, text = .text cs ∧ c.Mutated start finish cs c'
  | .insert place text => ∃ cs, text = .text cs ∧ c.Mutated place place cs c'
  | .setLine line text => ∃ cs range, text = .text cs ∧
    LineTable.bounds? (LineTable.starts c.text) c.text.length line = some range ∧
      c.Mutated range.1 range.2 cs c'

/-- The operation had its effect, or it failed and everything is as it was, or its text has no
encoding and the file is lost. -/
def Operation.Atomic (op : Operation) (c : Cell) : Prog.Halt Cell Empty Bool × Cell → Prop
  | (.finished (.ok changed), c') => op.Effect c changed c'
  | (.finished (.error f), c') =>
    c' = c ∨ op.text? = some .unencodable ∧ f = .file .unencodable ∧ c.Spoiled c'
  | (.waiting .., _) => False

/-- What the replacement of a range comes to. -/
theorem replaceBy_spec {start finish : Int} {text : Buffer.Wording} :
    match c.buffer.replaceBy c.disk start finish text with
    | (.ok b, d) => ∃ cs, text = .text cs ∧ c.Mutated start finish cs (c.follow b d)
    | (.error f, d) =>
      d = c.disk ∨ text = .unencodable ∧ f = .file .unencodable ∧
        c.Spoiled { c with disk := d } := by
  cases text with
  | text cs =>
    dsimp only [Buffer.replaceBy]
    cases hreplace : c.buffer.replace c.disk start finish cs with
    | error f => exact .inl rfl
    | ok r =>
      obtain ⟨hrange, hbuffer, hwrite⟩ := Buffer.replace_eq_ok hreplace
      refine ⟨cs, rfl, hrange, congrArg Buffer.text hbuffer, Disk.file?_write hwrite, ?_⟩
      rw [follow, hbuffer]
      rfl
  | unencodable =>
    dsimp only [Buffer.replaceBy]
    by_cases hrange : 0 ≤ start ∧ start ≤ finish ∧ finish ≤ c.buffer.text.length
    · rw [if_pos hrange]
      cases hwrite : c.disk.writeText c.buffer.path [] with
      | error f => exact .inl rfl
      | ok d => exact .inr ⟨rfl, rfl, Disk.file?_write hwrite, rfl⟩
    · rw [if_neg hrange]
      exact .inl rfl

/-- What the buffer says of an operation is atomic. -/
theorem atomic_of_follows {op : Operation} (hop : op ≠ .refresh)
    {outcome : Prog.Halt Cell Empty Bool × Cell}
    (h : c.Follows outcome (op.apply c.buffer c.disk)) : op.Atomic c outcome := by
  have hreplace : ∀ start finish text, op.text? = some text →
      (∀ cs b d, text = .text cs → c.Mutated start finish cs (c.follow b d) →
        op.Effect c true (c.follow b d)) →
      op.apply c.buffer c.disk = (c.buffer.replaceBy c.disk start finish text).map
        (·.map (true, ·)) id → op.Atomic c outcome := by
    intro start finish text htext heffect happly
    have hspec := @replaceBy_spec c start finish text
    rw [h, happly]
    generalize c.buffer.replaceBy c.disk start finish text = r at hspec ⊢
    obtain ⟨f | b, d⟩ := r
    · rcases hspec with rfl | ⟨rfl, rfl, hspoiled⟩
      · exact .inl rfl
      · exact .inr ⟨htext, rfl, hspoiled⟩
    · obtain ⟨cs, hcs, hmutated⟩ := hspec
      exact heffect cs b d hcs hmutated
  cases op with
  | refresh => exact absurd rfl hop
  | replace start finish text =>
    exact hreplace start finish text rfl (fun cs _ _ hcs hm => ⟨cs, hcs, hm⟩) rfl
  | insert place text =>
    exact hreplace place place text rfl (fun cs _ _ hcs hm => ⟨cs, hcs, hm⟩) rfl
  | setLine line text =>
    have happly : (Operation.setLine line text).apply c.buffer c.disk =
        (c.buffer.setLineBy c.disk line text).map (·.map (true, ·)) id := rfl
    rw [setLineBy_eq] at happly
    cases hbounds : LineTable.bounds? (LineTable.starts c.text) c.text.length line with
    | none =>
      rw [hbounds] at happly
      rw [h, happly]
      exact .inl rfl
    | some range =>
      rw [hbounds] at happly
      exact hreplace range.1 range.2 text rfl
        (fun cs _ _ hcs hm => ⟨cs, range, hcs, hbounds, hm⟩) happly

theorem atomic_refresh (hc : c.Sound) : Operation.refresh.Atomic c (refresh.run c) := by
  rw [run_refresh]
  cases htext : c.disk.readText c.path with
  | error f => exact .inl rfl
  | ok text =>
    dsimp only
    by_cases hdigest : digestOf text = c.digest
    · rw [if_pos hdigest]
      intro hdistinct
      have hsame := hdistinct text htext hdigest
      exact ⟨text, htext, hsame.symm, rfl, by simp [hsame], by simp [hsame]⟩
    · have hother : text ≠ c.text := fun hsame => hdigest (hsame ▸ hc.digest_eq.symm)
      rw [if_neg hdigest, if_neg (hc.digest_eq ▸ digestOf_ne_empty c.text)]
      intro _
      exact ⟨text, htext, rfl, rfl, by simp [hother], by simp [hother]⟩

/-- **What is stored stays in step.** Whatever operations, listeners and changes of files by others
came before, the digest and the line table are those of the text. An operation that fails leaves
everything as it was, the files and the listeners included, with one exception: if the text that it
is to write has no encoding, the file is empty afterwards, and only what is stored is as it was. One
that replaces a range does so in the text and writes that to the file, and every listener is told
once. To read the file again takes over its text, and every listener is told once exactly if it is
another one, as far as the digest can tell. In all of this the stored buffer does what the buffer
says. -/
theorem stored_buffer_stays_in_step {c : Cell} (h : Reached c) (op : Operation) :
    c.Sound ∧ op.Atomic c (op.method.run c) ∧ ((op = .refresh → c.Distinguishes) →
      c.Follows (op.method.run c) (op.apply c.buffer c.disk)) := by
  have hc := h.sound
  refine ⟨hc, ?_, follows_method hc⟩
  by_cases hop : op = .refresh
  · subst hop
    exact atomic_refresh hc
  · exact atomic_of_follows hop (follows_method hc fun heq => absurd heq hop)

/-- A file is opened, a listener is added, another program deletes the file, and then the first
character is replaced: the file is there again with the new text. A text without an encoding leaves
an empty file instead. -/
theorem stored_buffer_stays_in_step_deleted :
    ∃ c c' c'', Reached c ∧ c.text = "ab".toList ∧ c.disk.file? ⟨["A.idr"]⟩ = none ∧
      c.heard = [0] ∧ c.Sound ∧ (Operation.replace 0 1 (.text "x".toList)).method.run c =
        (.finished (.ok true), c') ∧
      c.Mutated 0 1 "x".toList c' ∧ c'.text = "xb".toList ∧ c'.heard = [1] ∧
      (Operation.replace 0 1 .unencodable).method.run c =
        (.finished (.error (.file .unencodable)), c'') ∧
      c''.disk.file? ⟨["A.idr"]⟩ = some [] ∧ c''.text = c.text ∧ c''.heard = [0] := by
  let text := "ab".toList
  let disk : Disk := { files := [(⟨["A.idr"]⟩, Text.Utf8.encode text)] }
  have hopen : refresh.run { disk := disk, path := ⟨["A.idr"]⟩ } = (.finished (.ok true), {
      disk := disk, path := ⟨["A.idr"]⟩, text := text, digest := digestOf text,
        table := LineTable.starts text }) := by
    have hread : disk.readText ⟨["A.idr"]⟩ = .ok text := rfl
    rw [run_refresh, hread]
    exact if_neg (digestOf_ne_empty text)
  have hreached := ((Reached.opened hopen).listened).outside {}
  obtain ⟨hsound, ⟨cs, hcs, hmutated⟩, -⟩ :=
    stored_buffer_stays_in_step hreached (.replace 0 1 (.text "x".toList))
  obtain rfl : "x".toList = cs := Buffer.Wording.text.inj hcs
  exact ⟨_, _, _, hreached, rfl, rfl, rfl, hsound, rfl, hmutated, hmutated.text_eq,
    hmutated.heard_eq, rfl, rfl, rfl, rfl⟩

end Cell

end IdeMode
