import IdeMode.Proofs.Buffer.Lines
import IdeMode.Proofs.Editing.Touches
import IdeMode.Proofs.Text.Utf8
import IdeMode.Request.Session
set_option autoImplicit false

/-!
# What editing commands do to documents and files

Whatever others do while a command waits, the command itself makes one edit or none. The edit is
made in the text that the session has in memory, at the line with the number that was asked for, and
it writes the whole of that text: the file keeps what others wrote to it meanwhile only as far as
the text in memory agrees with it, and the line need no longer be the one from which the command
read its identifier.
-/

namespace IdeMode

open List

/-- Where a command that works on a line puts its text. -/
inductive Placement where
  /-- in place of the line -/
  | over
  /-- at the end of the line -/
  | atEnd
  /-- below the line, or at its end if it is the last -/
  | below

/-- A text after an edit at one of its lines. -/
def Placement.edited (text before content after : List Char) : Placement → List Char
  | .over => before ++ text ++ after
  | .atEnd => before ++ content ++ text ++ after
  | .below =>
    match after with
    | [] => before ++ content ++ text
    | newline :: later => before ++ content ++ newline :: text ++ later

namespace EditCommand

/-- Where a command puts its text, if it works on a line. -/
def placement? : EditCommand → Option Placement
  | .caseSplit | .makeWith => some .over
  | .addClause _ => some .atEnd
  | .addMissing => some .below
  | .proofSearch _ | .refine .. => none

/-- The command loads the document again after its edit. -/
def reloads : EditCommand → Bool
  | .refine .. => true
  | _ => false

end EditCommand

/-! ## Replacements -/

variable {name : String}

namespace Replacement

variable {x : Replacement} {s d : Nat}

/-- The text in memory with the range replaced. -/
theorem Works.text_eq (h : x.Works s d) :
    x.buffer.text = (x.old s d).text.take x.start.toNat ++ x.text ++
      (x.old s d).text.drop x.finish.toNat := by
  obtain ⟨-, hbuffer, -⟩ := Buffer.replace_eq_ok h
  rw [hbuffer]
  rfl

/-- The file of the document holds the new text, and the other files hold what they held. -/
theorem Works.file_eq (h : x.Works s d) (q : Path) :
    x.disk.file? q = if (x.old s d).path = q then some (Text.Utf8.encode x.buffer.text)
        else x.world.host.disk.file? q := by
  obtain ⟨-, -, hwrite⟩ := Buffer.replace_eq_ok h
  exact Disk.file?_write hwrite q

theorem Works.edited_over {line : Int} {before content after : List Char} (h : x.Works s d)
    (hline : (x.old s d).HasLine line before content after)
    (hstart : x.start = Int.ofNat before.length)
    (hfinish : x.finish = Int.ofNat (before.length + content.length)) :
    x.buffer.text = before ++ x.text ++ after := by
  rw [h.text_eq, hline.isLine.text_eq, hstart, hfinish]
  simp only [Int.ofNat_eq_natCast, Int.toNat_natCast]
  rw [drop_left' (by simp), append_assoc before content after, take_left' rfl]

theorem Works.edited_at {pre post : List Char} (h : x.Works s d)
    (htext : (x.old s d).text = pre ++ post) (hstart : x.start = Int.ofNat pre.length)
    (hfinish : x.finish = Int.ofNat pre.length) : x.buffer.text = pre ++ x.text ++ post := by
  rw [h.text_eq, htext, hstart, hfinish]
  simp only [Int.ofNat_eq_natCast, Int.toNat_natCast]
  rw [drop_left' rfl, take_left' rfl]

/-- A replacement puts its text in the place of a hole. -/
def FillsHole (x : Replacement) (s d : Nat) (name : String) : Prop :=
  ∃ before after, (x.old s d).text = before ++ '?' :: name.toList ++ after ∧
    x.buffer.text = before ++ x.text ++ after

theorem Works.fillsHole {line : Int} {before content after left right : List Char} (h : x.Works s d)
    (hline : (x.old s d).HasLine line before content after)
    (hcontent : content = left ++ '?' :: name.toList ++ right)
    (hstart : x.start = Int.ofNat before.length + left.length)
    (hfinish : x.finish = Int.ofNat before.length + left.length + name.length + 1) :
    x.FillsHole s d name := by
  have hold : (x.old s d).text = (before ++ left) ++ '?' :: name.toList ++ (right ++ after) := by
    rw [hline.isLine.text_eq, hcontent]
    simp
  have hbegin : x.start.toNat = (before ++ left).length := by
    rw [hstart, length_append]
    rfl
  have hend : x.finish.toNat = ((before ++ left) ++ '?' :: name.toList).length := by
    rw [hfinish]
    simp only [length_append, length_cons, String.length_toList, Int.ofNat_eq_natCast]
    omega
  refine ⟨before ++ left, right ++ after, hold, ?_⟩
  rw [h.text_eq, hold, hbegin, hend, drop_left' rfl, append_assoc (before ++ left), take_left' rfl]

end Replacement

namespace Client

open Prog World

variable {s d : Nat} {e : Editor} {line column : Int} {w : World} {α β : Type}
  {P : Replacement → Prop}

/-! ## The commands -/

/-- A command ended in a fault with nothing touched, or well and right after its edit, of which `P`
holds. -/
def Ends (s d : Nat) (P : Replacement → Prop) (r : Result α) (w : World) (g : Progress) : Prop :=
  match r with
  | .ok _ => ∃ x, g = .edited x ∧ w = x.adopted s d ∧ x.Works s d ∧ P x
  | .error _ => g = .untouched

variable {Q : Result (List Field) → World → Progress → Prop}

theorem safe_applyEdit {start finish : Int} {text : String}
    (herror : ∀ fault, Q (.error fault) w .untouched)
    (hok : ∀ fields x, x.Works s d → x.world = w → x.start = start → x.finish = finish →
      Q (.ok fields) (x.adopted s d) (.edited x)) :
    Safe (editing s d) (applyEdit s d e start finish text) Q w .untouched := by
  refine safe_session (.get (.ofResult_bind ?_ fun fault _ => herror fault))
  rintro ⟨fields, b, disk⟩ hinsert
  obtain ⟨inserted, hreplaced⟩ := Editor.exists_replace hinsert
  -- The two stores of `commit` are the two steps of the replacement.
  let x : Replacement := ⟨w, start, finish, inserted, b, disk⟩
  refine ⟨.written x, .write (x := x) hreplaced, .edited x, .adopt (x := x), ?_⟩
  exact hok fields x hreplaced rfl rfl rfl

theorem nameAt_line {b : Buffer} {number : Int} (h : b.nameAt line column = .ok (name, number)) :
    number = line ∧ 1 ≤ line ∧ line ≤ b.lineCount := by
  unfold Buffer.nameAt at h
  split at h
  · cases h
  · next hrange =>
    cases htext : b.lineContent line with
    | error fault =>
      rw [htext] at h
      cases h
    | ok text =>
      rw [htext] at h
      simp only [Bind.bind, Except.bind] at h
      split at h
      · cases h
      · obtain ⟨-, hnumber⟩ := Prod.mk.inj (Except.ok.inj h)
        exact ⟨hnumber.symm, by omega, by omega⟩

theorem safe_askAbout_bind {tag : String} {extra : List Value}
    {f : String × Int × Response → Action β} {Q : Result β → World → Progress → Prop}
    (herror : ∀ fault w, Q (.error fault) w .untouched)
    (hok : ∀ name r w', ((w.session s).buffer d).nameAt line column = .ok (name, line) →
      Safe (editing s d) (f (name, line, r)) Q w' .untouched) :
    Safe (editing s d) (askAbout s d tag line column extra >>= f) Q w .untouched := by
  refine Safe.bind ?_
  refine safe_session (.ofResult_bind ?_ fun fault _ => herror fault w)
  rintro ⟨name, number⟩ hname
  obtain ⟨rfl, -⟩ := nameAt_line hname
  refine safe_spared_bind (g := .untouched) (sparing_ensureLoaded s d) trivial
    (fun _ w' => ?_) herror
  refine safe_spared_bind (g := .untouched) (sparing_sessionCall s _ _) trivial
    (fun r w' => ?_) herror
  exact hok name r w' hname

/-- A command that works on a line made its edit at the line with the number that was asked for, in
the text as it was found then. `asked` is the buffer from which the identifier was read. -/
structure AtLine (s d : Nat) (line column : Int) (place : Placement) (asked : Buffer)
    (x : Replacement) : Prop where
  named : ∃ name, asked.nameAt line column = .ok (name, line)
  lands : ∃ before content after, (x.old s d).HasLine line before content after ∧
    x.buffer.text = place.edited x.text before content after

theorem safe_replaceLineBy {tag : String} {messages : String → List String} :
    Safe (editing s d) (replaceLineBy s d e tag line column messages)
      (Ends s d (AtLine s d line column .over ((w.session s).buffer d))) w .untouched := by
  refine safe_askAbout_bind (fun _ _ => rfl) fun name r w' hname => ?_
  refine safe_session (.ofResult_bind (fun start hstart => ?_) fun _ _ => rfl)
  refine .ofResult_bind (fun finish hfinish => ?_) fun _ _ => rfl
  refine Safe.bind (safe_applyEdit (fun _ => rfl) ?_)
  rintro fields x hworks rfl rfl rfl
  obtain ⟨hfirst, hlast⟩ := Buffer.le_lineCount_of_offset hstart
  obtain ⟨before, content, after, hline⟩ := Buffer.exists_hasLine hfirst hlast
  rw [hline.offset_eq] at hstart
  rw [hline.endOfLine_eq] at hfinish
  refine ⟨x, rfl, rfl, hworks, ⟨name, hname⟩, before, content, after, hline, ?_⟩
  exact hworks.edited_over hline (Except.ok.inj hstart).symm (Except.ok.inj hfinish).symm

theorem safe_addClause {proof : Bool} :
    Safe (editing s d) (addClause s d e line column proof)
      (Ends s d (AtLine s d line column .atEnd ((w.session s).buffer d))) w .untouched := by
  refine safe_askAbout_bind (fun _ _ => rfl) fun name r w' hname => ?_
  refine safe_session (.ofResult_bind (fun finish hfinish => ?_) fun _ _ => rfl)
  refine Safe.bind (safe_applyEdit (fun _ => rfl) ?_)
  rintro fields x hworks rfl hstart hend
  obtain ⟨-, hfirst, -⟩ := nameAt_line hname
  obtain ⟨before, content, after, hline⟩ :=
    Buffer.exists_hasLine hfirst (Buffer.le_lineCount_of_endOfLine hfirst hfinish)
  rw [hline.endOfLine_eq] at hfinish
  have hplace : finish = Int.ofNat (before ++ content).length := by
    rw [← Except.ok.inj hfinish, length_append]
  refine ⟨x, rfl, rfl, hworks, ⟨name, hname⟩, before, content, after, hline, ?_⟩
  exact hworks.edited_at hline.isLine.text_eq (hstart.trans hplace) (hend.trans hplace)

theorem safe_addMissing :
    Safe (editing s d) (addMissing s d e line column)
      (Ends s d (AtLine s d line column .below ((w.session s).buffer d))) w .untouched := by
  refine safe_askAbout_bind (fun _ _ => rfl) fun name r w' hname => ?_
  obtain ⟨-, hfirst, -⟩ := nameAt_line hname
  refine safe_session ?_
  dsimp only
  split
  · next hnext =>
    refine .ofResult_bind (fun place hplace => ?_) fun _ _ => rfl
    refine Safe.bind (safe_applyEdit (fun _ => rfl) ?_)
    rintro fields x hworks rfl hstart hend
    obtain ⟨before, content, after, hline⟩ := Buffer.exists_hasLine hfirst (Int.le_of_lt hnext)
    obtain ⟨⟨later, rfl⟩, hoffset⟩ := hline.offset_succ hnext
    have hplace' : place = Int.ofNat (before ++ content ++ ['\n']).length := by
      rw [hoffset] at hplace
      rw [← Except.ok.inj hplace, length_append, length_append]
      rfl
    refine ⟨x, rfl, rfl, hworks, ⟨name, hname⟩, before, content, _, hline, ?_⟩
    have hsplit : (x.old s d).text = (before ++ content ++ ['\n']) ++ later := by
      rw [append_assoc (before ++ content)]
      exact hline.isLine.text_eq
    rw [hworks.edited_at hsplit (hstart.trans hplace') (hend.trans hplace')]
    simp [Placement.edited]
  · next hnext =>
    refine .ofResult_bind (fun place hplace => ?_) fun _ _ => rfl
    refine Safe.bind (safe_applyEdit (fun _ => rfl) ?_)
    rintro fields x hworks rfl hstart hend
    have hlast := Buffer.le_lineCount_of_endOfLine hfirst hplace
    obtain ⟨before, content, after, hline⟩ := Buffer.exists_hasLine hfirst hlast
    obtain rfl := hline.after_eq_nil_iff.2 (by omega)
    rw [hline.endOfLine_eq] at hplace
    have hplace' : place = Int.ofNat (before ++ content).length := by
      rw [← Except.ok.inj hplace, length_append]
    refine ⟨x, rfl, rfl, hworks, ⟨name, hname⟩, before, content, [], hline, ?_⟩
    have htext := hworks.edited_at hline.isLine.text_eq (hstart.trans hplace') (hend.trans hplace')
    rw [htext, append_nil]
    rfl

theorem safe_proofSearch {hints : List String} :
    Safe (editing s d) (proofSearch s d e line column hints)
      (Ends s d fun _ => True) w .untouched := by
  refine safe_askAbout_bind (fun _ _ => rfl) fun name r w' hname => ?_
  refine safe_session (.ofResult_bind (fun found _ => ?_) fun _ _ => rfl)
  cases found with
  | none => rfl
  | some range =>
    refine Safe.bind (safe_applyEdit (fun _ => rfl) ?_)
    rintro fields x hworks - - -
    exact ⟨x, rfl, rfl, hworks, trivial⟩

theorem Refinement.exists_of_findHole? {hole text : List Char} {column : Nat}
    (h : findHole? hole text = some column) :
    ∃ left right, text = left ++ '?' :: hole ++ right ∧ left.length = column := by
  induction text generalizing column with
  | nil => cases h
  | cons c cs ih =>
    unfold findHole? at h
    split at h
    · next hfound =>
      obtain ⟨rfl, hname⟩ := hfound
      rw [startsWithName, Bool.and_eq_true, isPrefixOf_iff_prefix] at hname
      obtain ⟨right, rfl⟩ := hname.1
      exact ⟨[], right, rfl, Option.some.inj h⟩
    · obtain ⟨column', hcolumn, rfl⟩ := Option.map_eq_some_iff.1 h
      obtain ⟨left, right, rfl, hlength⟩ := ih hcolumn
      exact ⟨c :: left, right, rfl, congrArg (· + 1) hlength⟩

/-- A replacement works, and its range is the first in its line that goes by the name of a hole. -/
structure FillsFirst (s d : Nat) (line : Int) (name : String) (x : Replacement) : Prop where
  works : x.Works s d
  found : ∃ before content after column, (x.old s d).HasLine line before content after ∧
    Refinement.findHole? name.toList content = some column ∧
      x.start = Int.ofNat before.length + column ∧
    x.finish = Int.ofNat before.length + column + name.length + 1

theorem FillsFirst.fillsHole {x : Replacement} (h : FillsFirst s d line name x) :
    x.FillsHole s d name := by
  obtain ⟨before, content, after, column, hline, hfound, hstart, hfinish⟩ := h.found
  obtain ⟨left, right, hcontent, rfl⟩ := Refinement.exists_of_findHole? hfound
  exact h.works.fillsHole hline hcontent hstart hfinish

/-- The hole is filled where it stands in its line. -/
theorem safe_fillHoleIn {r : Refinement} (expression : String)
    (herror : ∀ fault, Q (.error fault) w .untouched)
    (hok : ∀ fields x, x.world = w → FillsFirst r.session r.document r.line r.hole x →
      Q (.ok fields) (x.adopted r.session r.document) (.edited x)) {text : List Char} (htext :
      text = [] ∨ ((w.session r.session).buffer r.document).lineContent r.line = .ok text) :
    Safe (editing r.session r.document) (match Refinement.findHole? r.hole.toList text with
      | none => throw (.vanished r.hole)
      | some column => do
        let start ← Prog.ofResult (((w.session r.session).buffer r.document).offset r.line)
        applyEdit r.session r.document r.editor (start + column)
          (start + column + r.hole.length + 1) expression) Q w .untouched := by
  cases hfound : Refinement.findHole? r.hole.toList text with
  | none => exact herror _
  | some column =>
    refine .ofResult_bind (fun start hstart => ?_) fun fault _ => herror fault
    refine safe_applyEdit herror ?_
    rintro fields x hworks rfl hbegin hend
    obtain ⟨hfirst, hlast⟩ := Buffer.le_lineCount_of_offset hstart
    obtain ⟨before, content, after, hline⟩ := Buffer.exists_hasLine hfirst hlast
    rw [hline.lineContent_eq] at htext
    rw [hline.offset_eq] at hstart
    cases hstart
    rcases htext with rfl | htext
    · cases hfound
    · obtain rfl := Except.ok.inj htext
      exact hok fields x rfl ⟨hworks, before, content, after, column, hline, hfound, hbegin, hend⟩

theorem safe_fillHole {r : Refinement} {expression : String}
    (herror : ∀ fault, Q (.error fault) w .untouched)
    (hok : ∀ fields x, x.world = w → FillsFirst r.session r.document r.line r.hole x →
      Q (.ok fields) (x.adopted r.session r.document) (.edited x)) :
    Safe (editing r.session r.document) (r.fillHole expression) Q w .untouched := by
  refine safe_session ?_
  dsimp only
  split
  · refine .ofResult_bind (fun text htext => ?_) fun fault _ => herror fault
    exact safe_fillHoleIn expression herror hok (.inr htext)
  · exact safe_fillHoleIn expression herror hok (.inl rfl)

/-- The hole at the point is filled, or nothing is touched. -/
theorem safe_fillRefined (s d : Nat) (e : Editor) (line column : Int) (variant : Variant)
    (stem : String) (choices : List String) (w : World) :
    Safe (editing s d) (fillRefined s d e line column variant stem choices) (Ends s d fun x =>
        ∃ name, ((w.session s).buffer d).nameAt line column = .ok (name, line) ∧
          x.FillsHole s d name) w .untouched := by
  refine safe_session (.ofResult_bind ?_ fun fault _ => rfl)
  rintro ⟨name, number⟩ hname
  obtain ⟨rfl, -⟩ := nameAt_line hname
  refine safe_spared_bind (g := .untouched) (sparing_converse _ stem choices) trivial ?_
    fun _ _ => rfl
  rintro ⟨expression, offered⟩ w
  refine Safe.bind (safe_fillHole (r := ⟨s, d, e, variant, name, number⟩) (fun _ => rfl) ?_)
  intro fields x _ hfills
  exact ⟨x, rfl, rfl, hfills.works, name, hname, hfills.fillsHole⟩

/-- A refinement ended before its edit in a fault, or after its edit; then it may still end in a
fault, because the document is loaded once more. -/
def EndsRefined (s d : Nat) (r : Result α) (_ : World) (g : Progress) : Prop :=
  (∃ x, g = .edited x ∧ x.Works s d) ∨ (g = .untouched ∧ ∃ fault, r = .error fault)

theorem EndsRefined.settled (r : Result α) (w : World) (g : Progress)
    (h : EndsRefined s d r w g) : g.Settled := by
  rcases h with ⟨x, rfl, -⟩ | ⟨rfl, -⟩ <;> trivial

theorem safe_refine {variant : Variant} {stem : String} {choices : List String} :
    Safe (editing s d) (refine s d e line column variant stem choices)
      (EndsRefined s d) w .untouched := by
  refine Safe.bind ((safe_fillRefined s d e line column variant stem choices w).mono ?_)
  intro r w g hends
  cases r with
  | error fault => exact .inr ⟨hends, fault, rfl⟩
  | ok filled =>
    obtain ⟨x, rfl, -, hworks, -⟩ := hends
    have hedited : ∀ (r : Result Edit) (w : World), EndsRefined s d r w (.edited x) :=
      fun _ _ => .inl ⟨x, rfl, hworks⟩
    exact safe_spared_bind (g := .edited x) (sparing_load s d) trivial (fun _ w => hedited _ w)
      fun fault w => hedited _ w

theorem Ends.mono {P' : Replacement → Prop} (hP : ∀ x, P x → P' x) (r : Result α) (w : World)
    (g : Progress) (h : Ends s d P r w g) : Ends s d P' r w g := by
  cases r with
  | error fault => exact h
  | ok a =>
    obtain ⟨x, hg, hw, hworks, hx⟩ := h
    exact ⟨x, hg, hw, hworks, hP x hx⟩

/-- Every command but a refinement ends with its edit, and one that works on a line makes it
there. -/
theorem safe_perform (s d : Nat) (e : Editor) (line column : Int) (w : World)
    {command : EditCommand} (h : command.reloads = false) :
    Safe (editing s d) (perform s d e line column command)
      (Ends s d fun x => ∀ place, command.placement? = some place →
        AtLine s d line column place ((w.session s).buffer d) x) w .untouched := by
  have hplaced : ∀ place x, AtLine s d line column place ((w.session s).buffer d) x →
      ∀ place', some place = some place' →
        AtLine s d line column place' ((w.session s).buffer d) x := by
    rintro place x hx _ ⟨⟩
    exact hx
  cases command with
  | caseSplit =>
    unfold perform caseSplit
    exact safe_replaceLineBy.mono (Ends.mono (hplaced .over))
  | addClause proof => exact safe_addClause.mono (Ends.mono (hplaced .atEnd))
  | addMissing => exact safe_addMissing.mono (Ends.mono (hplaced .below))
  | makeWith =>
    unfold perform makeWith
    exact safe_replaceLineBy.mono (Ends.mono (hplaced .over))
  | proofSearch hints => exact safe_proofSearch.mono (Ends.mono fun _ _ => nofun)
  | refine variant stem choices => cases h

/-! ## Runs -/

/-- An environment in which the compiler answers every call with a text; before it does, others
change the world. -/
def answering (meanwhile : World → World) (text : String) : Environment World Await Unit :=
  fun on _ w _ =>
  match on with
  | .outcome s id =>
    (.woken, (meanwhile w).modifyDispatch s fun d =>
      { d with outcomes := d.outcomes.set id (.answered (Response.ofPayload [.str text])) }, ())
  | _ => (.woken, w, ())

/-- A world with one session, whose compiler holds its only document. -/
def deskWorld (text : String) : World where
  host :=
    { cwd := ⟨[]⟩
      disk := ({} : Disk).place ⟨["A.idr"]⟩ (Text.Utf8.encode text.toList)
      children := [{ pid := Host.firstPid, behaviour := {} }] }
  sessions := [{
    transport := { child := some 0 }
    loaded := some 0
    dirty := [(⟨["A.idr"]⟩, false)]
    documents :=
      [{ name := "A.idr", buffer := { path := ⟨["A.idr"]⟩, text := text.toList }, watched := true }]
      }]

/-- Another command inserts a line below the first. -/
def insertAbove (w : World) : World :=
  w.modifySession 0 fun session =>
    session.adopt 0 ((session.buffer 0).changed "f x = ?h\nf z = ?m\ng y = ?k\n".toList)

section Runs

variable {ε : Type} (env : Environment World Await ε) (memory : ε)

/-- What a command did by itself in a run, by how far it came. -/
theorem exists_progress {p : Action α} {Q : Result α → World → Progress → Prop}
    (h : Safe (editing s d) p Q w .untouched) (hsettled : ∀ r w g, Q r w g → g.Settled) :
    ∃ g, Q (runIn env p w memory).1 (runIn env p w memory).2.1 g ∧
      ((g = .untouched ∧ Untouched (stores env p w memory)) ∨
        ∃ x, g = .edited x ∧ EditsOnce s d x (stores env p w memory)) := by
  obtain ⟨g, hleads, hend⟩ := h.leads (fun _ _ _ _ _ _ => rfl) env memory
  exact ⟨g, hend, leads_untouched hleads rfl (hsettled _ _ _ hend)⟩

theorem Ends.settled (r : Result α) (w : World) (g : Progress)
    (h : Ends s d P r w g) : g.Settled := by
  cases r with
  | error fault =>
    cases show g = .untouched from h
    trivial
  | ok a =>
    obtain ⟨x, rfl, -⟩ := h
    trivial

/-- A command that ends with its edit failed without a trace, or edited once and left the world as
the edit made it. -/
theorem edits_of_ends {p : Action α} (h : Safe (editing s d) p (Ends s d P) w .untouched) :
    match (runIn env p w memory).1 with
    | .error _ => Untouched (stores env p w memory)
    | .ok _ =>
      ∃ x, EditsOnce s d x (stores env p w memory) ∧
        (runIn env p w memory).2.1 = x.adopted s d ∧ P x := by
  obtain ⟨g, hend, hsteps⟩ := exists_progress env memory h Ends.settled
  cases hr : (runIn env p w memory).1 with
  | error fault =>
    rw [hr] at hend
    rcases hsteps with ⟨-, huntouched⟩ | ⟨x, hx, -⟩
    · exact huntouched
    · cases hx.symm.trans hend
  | ok a =>
    rw [hr] at hend
    obtain ⟨x, hg, hw, -, hP⟩ := hend
    rcases hsteps with ⟨hnone, -⟩ | ⟨y, hy, hedits⟩
    · cases hnone.symm.trans hg
    · cases hy.symm.trans hg
      exact ⟨x, hedits, hw, hP⟩

/-- **A failed command leaves no edit behind.** Whatever the compiler answers and whatever others do
while the command waits: if it fails, none of its own steps changed a document or a file, and if it
returns, it replaced one range, once. -/
theorem failed_command_leaves_no_edit (s d : Nat) (e : Editor) (line column : Int)
    (command : EditCommand) (h : command.reloads = false) (w : World) :
    match (runIn env (perform s d e line column command) w memory).1 with
    | .error _ => Untouched (stores env (perform s d e line column command) w memory)
    | .ok _ => ∃ x, EditsOnce s d x (stores env (perform s d e line column command) w memory) := by
  have hedits := edits_of_ends env memory (safe_perform s d e line column w h)
  split
  · next hr =>
    rw [hr] at hedits
    exact hedits
  · next hr =>
    rw [hr] at hedits
    obtain ⟨x, hx, -⟩ := hedits
    exact ⟨x, hx⟩

/-- A line of a document is split into two cases. -/
theorem failed_command_leaves_no_edit_caseSplit : EditCommand.caseSplit.reloads = false ∧
    (((runIn (answering id "f Z = ?a\nf (S k) = ?b") (perform 0 0 .plain 1 3 .caseSplit)
      (deskWorld "f x = ?h\n") ()).2.1.session 0).buffer 0).text =
      "f Z = ?a\nf (S k) = ?b\n".toList ∧
    ∃ x, EditsOnce 0 0 x (stores (answering id "f Z = ?a\nf (S k) = ?b")
      (perform 0 0 .plain 1 3 .caseSplit) (deskWorld "f x = ?h\n") ()) := by
  have hok : (runIn (answering id "f Z = ?a\nf (S k) = ?b") (perform 0 0 .plain 1 3 .caseSplit)
      (deskWorld "f x = ?h\n") ()).1.toBool = true := by decide +kernel
  have hedits := failed_command_leaves_no_edit (answering id "f Z = ?a\nf (S k) = ?b") () 0 0 .plain
    1 3 .caseSplit rfl (deskWorld "f x = ?h\n")
  refine ⟨rfl, by decide +kernel, ?_⟩
  split at hedits
  · next hr =>
    rw [hr] at hok
    cases hok
  · exact hedits

/-- What a command leaves of the text that it finds in the file of its document. The new text is
made from the text in memory alone. -/
structure Overwrites (s d : Nat) (x : Replacement) : Prop where
  /-- the file of the document holds the text in memory with the range replaced, and no other file
  changed -/
  file_eq : ∀ q, x.disk.file? q =
    if (x.old s d).path = q then
      some (Text.Utf8.encode
        ((x.old s d).text.take x.start.toNat ++ x.text ++ (x.old s d).text.drop x.finish.toNat))
    else x.world.host.disk.file? q
  /-- the text that was in the file is kept but for the range exactly if it agreed with the text in
  memory elsewhere -/
  keeps_iff : ∀ found : List Char, x.start.toNat ≤ found.length →
    (x.disk.file? (x.old s d).path =
        some (Text.Utf8.encode (found.take x.start.toNat ++ x.text ++ found.drop x.finish.toNat)) ↔
      found.take x.start.toNat = (x.old s d).text.take x.start.toNat ∧
        found.drop x.finish.toNat = (x.old s d).text.drop x.finish.toNat)

theorem overwrites {x : Replacement} (h : x.Works s d) : Overwrites s d x := by
  have hfile := h.file_eq
  rw [h.text_eq] at hfile
  refine ⟨hfile, fun found hfound => ?_⟩
  obtain ⟨⟨hstart, hfinish, hlength⟩, -⟩ := Buffer.replace_eq_ok h
  have htake : (found.take x.start.toNat).length =
      ((x.old s d).text.take x.start.toNat).length := by
    rw [length_take_of_le hfound, length_take_of_le]
    omega
  rw [hfile, if_pos rfl]
  constructor
  · intro heq
    have htext := Text.Utf8.encode_inj (Option.some.inj heq)
    rw [append_assoc, append_assoc] at htext
    obtain ⟨hbefore, hrest⟩ := append_inj htext htake.symm
    exact ⟨hbefore.symm, (append_cancel_left hrest).symm⟩
  · rintro ⟨hbefore, hafter⟩
    rw [hbefore, hafter]

/-- **A command puts back the text in memory.** Whatever others write to files while a command
waits, the command touches no file and fails, or it writes one file, once, right before it ends or,
as a refinement, before it loads the document again. Of what was in the file then it keeps all but
its own range exactly if that agreed with the text in memory. -/
theorem command_overwrites_file (s d : Nat) (e : Editor) (line column : Int)
    (command : EditCommand) (w : World) :
    ((∃ fault, (runIn env (perform s d e line column command) w memory).1 = .error fault) ∧
        Untouched (stores env (perform s d e line column command) w memory)) ∨
      ∃ x, EditsOnce s d x (stores env (perform s d e line column command) w memory) ∧
        Overwrites s d x ∧ (command.reloads = false →
          (runIn env (perform s d e line column command) w memory).1.toBool = true ∧
            (runIn env (perform s d e line column command) w memory).2.1.host.disk = x.disk) := by
  cases hreloads : command.reloads with
  | false =>
    have hedits := edits_of_ends env memory (safe_perform s d e line column w hreloads)
    cases hr : (runIn env (perform s d e line column command) w memory).1 with
    | error fault =>
      rw [hr] at hedits
      exact .inl ⟨⟨fault, rfl⟩, hedits⟩
    | ok edit =>
      rw [hr] at hedits
      obtain ⟨x, honce, hw, -⟩ := hedits
      refine .inr ⟨x, honce, overwrites honce.1, fun _ => ⟨rfl, ?_⟩⟩
      rw [hw]
      rfl
  | true =>
    have hrefined : Safe (editing s d) (perform s d e line column command)
        (EndsRefined s d) w .untouched := by
      cases command with
      | refine variant stem choices =>
        simp only [perform]
        cases Variant.ofText? variant with
        | some v => exact safe_refine
        | none => exact .inr ⟨rfl, .badValue, rfl⟩
      | _ => cases hreloads
    obtain ⟨g, hend, hsteps⟩ := exists_progress env memory hrefined EndsRefined.settled
    rcases hsteps with ⟨rfl, huntouched⟩ | ⟨x, rfl, honce⟩
    · rcases hend with ⟨x, hx, -⟩ | ⟨-, hfault⟩
      · cases hx
      · exact .inl ⟨hfault, huntouched⟩
    · exact .inr ⟨x, honce, overwrites honce.1, nofun⟩

/-- **A command that works on a line keeps to its number.** Between reading the identifier and
making the edit others may change the document. The command fails with nothing touched, or makes its
edit at the line that has the number asked for by then, whatever became of the line from which the
identifier was read. -/
theorem line_command_keeps_number (s d : Nat) (e : Editor) (line column : Int)
    (command : EditCommand) (place : Placement) (h : command.placement? = some place) (w : World) :
    match (runIn env (perform s d e line column command) w memory).1 with
    | .error _ => Untouched (stores env (perform s d e line column command) w memory)
    | .ok _ => ∃ x name asked before content after,
      EditsOnce s d x (stores env (perform s d e line column command) w memory) ∧
      (runIn env (perform s d e line column command) w memory).2.1 = x.adopted s d ∧
      ((w.session s).buffer d).nameAt line column = .ok (name, line) ∧
      ((w.session s).buffer d).lineContent line = .ok asked ∧
      IsLine (x.old s d).text line.toNat before content after ∧
      x.buffer.text = place.edited x.text before content after := by
  have hreloads : command.reloads = false := by
    cases command <;> first | rfl | cases h
  have hedits := edits_of_ends env memory (safe_perform s d e line column w hreloads)
  split
  · next hr =>
    rw [hr] at hedits
    exact hedits
  · next hr =>
    rw [hr] at hedits
    obtain ⟨x, honce, hw, hplaced⟩ := hedits
    obtain ⟨⟨name, hname⟩, before, content, after, hline, htext⟩ := hplaced place h
    obtain ⟨-, hfirst, hlast⟩ := nameAt_line hname
    obtain ⟨_, asked, _, hasked⟩ := Buffer.exists_hasLine hfirst hlast
    exact ⟨x, name, asked, before, content, after, honce, hw, hname, hasked.lineContent_eq,
      hline.isLine, htext⟩

/-- While a case split waits for its answer, a line is inserted above the one that was asked about.
The line that is replaced is the new one, and the other stays. -/
theorem line_command_keeps_number_inserted : EditCommand.caseSplit.placement? = some .over ∧
    (((runIn (answering insertAbove "g Z = ?a") (perform 0 0 .plain 2 3 .caseSplit)
      (deskWorld "f x = ?h\ng y = ?k\n") ()).2.1.session 0).buffer 0).text =
      "f x = ?h\ng Z = ?a\ng y = ?k\n".toList ∧ ∃ x name asked before content after,
      EditsOnce 0 0 x (stores (answering insertAbove "g Z = ?a") (perform 0 0 .plain 2 3 .caseSplit)
        (deskWorld "f x = ?h\ng y = ?k\n") ()) ∧
      (((deskWorld "f x = ?h\ng y = ?k\n").session 0).buffer 0).nameAt 2 3 = .ok (name, 2) ∧
      (((deskWorld "f x = ?h\ng y = ?k\n").session 0).buffer 0).lineContent 2 = .ok asked ∧
      IsLine (x.old 0 0).text 2 before content after ∧
        x.buffer.text = before ++ x.text ++ after := by
  have hok : (runIn (answering insertAbove "g Z = ?a") (perform 0 0 .plain 2 3 .caseSplit)
      (deskWorld "f x = ?h\ng y = ?k\n") ()).1.toBool = true := by decide +kernel
  have hedits := line_command_keeps_number (answering insertAbove "g Z = ?a") () 0 0 .plain 2 3
    .caseSplit .over rfl (deskWorld "f x = ?h\ng y = ?k\n")
  refine ⟨rfl, by decide +kernel, ?_⟩
  split at hedits
  · next hr =>
    rw [hr] at hok
    cases hok
  · obtain ⟨x, name, asked, before, content, after, honce, -, hname, hasked, hline, htext⟩ := hedits
    exact ⟨x, name, asked, before, content, after, honce, hname, hasked, hline, htext⟩

end Runs

end Client

end IdeMode
