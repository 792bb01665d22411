import IdeMode.Proofs.Editing.Commands
import IdeMode.Proofs.Session.Log
import IdeMode.Proofs.Snippet.Filling
set_option autoImplicit false

/-!
# Line by line

What the commands that work on a line do to the lines of a document. They compute the range that
they replace in different ways: the stretch of the line, its end, or the start of the next one. In
the end each puts whole lines in the place of the line or below it, and all other lines stay as they
are, whether or not the text ends with a newline.
-/

namespace IdeMode

open List

/-! ## Lines put at a line -/

/-- The number of lines that stay above the text that is put at a line. -/
def Placement.kept (number : Nat) : Placement → Nat
  | .over => number - 1
  | .atEnd | .below => number

namespace EditCommand

/-- The request that a command makes, if it works on a line. -/
def lineTag? : EditCommand → Option String
  | .caseSplit => some "case-split"
  | .makeWith => some "make-with"
  | .addClause proof => some (if proof then "add-proof-clause" else "add-clause")
  | .addMissing => some "add-missing"
  | .proofSearch _ | .refine .. => none

end EditCommand

/-- A text after the lines of another text were put at one of its lines: in the place of the line,
or below it. -/
def Placement.withLines (text before content after : List Char) : Placement → List Char
  | .over => before ++ text ++ after
  | .atEnd | .below => before ++ (content ++ '\n' :: text) ++ after

/-- All other lines stay. -/
theorem IsLine.splitOn_withLines {cs before content after : List Char} {number : Nat}
    (h : IsLine cs number before content after) (place : Placement) (text : List Char) :
    (place.withLines text before content after).splitOn '\n' =
      (cs.splitOn '\n').take (place.kept number) ++ text.splitOn '\n' ++
        (cs.splitOn '\n').drop number := by
  obtain ⟨above, below, rfl, haround⟩ := h.exists_around
  have hlines : cs.splitOn '\n' = above ++ [content] ++ below := by
    rw [h.text_eq, haround, splitOn_eq_singleton h.free]
  have hdrop : (above ++ [content] ++ below).drop (above.length + 1) = below := drop_left' (by simp)
  have hbelow : (before ++ (content ++ '\n' :: text) ++ after).splitOn '\n' =
      (above ++ [content] ++ below).take (above.length + 1) ++ text.splitOn '\n' ++ below := by
    rw [haround, splitOn_append_cons_self_of_not_mem h.free, take_left' (by simp)]
    simp
  rw [hlines, hdrop]
  rcases place
  · rw [Placement.withLines, Placement.kept, haround, Nat.add_sub_cancel,
      append_assoc above [content], take_left' rfl]
  · exact hbelow
  · exact hbelow

/-! ## What an editor inserts -/

namespace Snippet

/-- A character with which a hole or a wildcard starts. -/
def opensField (c : Char) : Bool := c == '?' || c == '('

theorem fieldCount_piecesWithin_le (bound : Nat) (cs : List Char) :
    fieldCount (piecesWithin bound cs) ≤ cs.countP opensField := by
  induction bound generalizing cs with
  | zero => exact Nat.zero_le _
  | succ bound ih =>
    have hrest : ∀ {rest cs : List Char}, rest.Sublist cs →
        fieldCount (piecesWithin bound rest) ≤ cs.countP opensField :=
      fun hsub => Nat.le_trans (ih _) hsub.countP_le
    unfold piecesWithin
    split
    · exact Nat.zero_le _
    · next c rest =>
      rw [countP_cons_of_pos (by decide)]
      split
      · rw [fieldCount_cons, if_pos (by rfl), Nat.add_comm]
        exact Nat.succ_le_succ (hrest
          ((dropWhile_suffix _).sublist.trans (sublist_cons_self c rest)))
      · rw [fieldCount_cons, if_neg (by decide), Nat.zero_add]
        exact Nat.le_succ_of_le (ih _)
    · next rest =>
      rw [countP_cons_of_pos (by decide), fieldCount_cons, if_pos (by rfl), Nat.add_comm]
      exact Nat.succ_le_succ (hrest (suffix_append ['_', ')'] rest).sublist)
    · next c rest _ _ =>
      rw [fieldCount_cons, if_neg (by simp [Piece.default?]), Nat.zero_add]
      exact hrest (sublist_cons_self c rest)

theorem fill_newline_cons (cs : List Char) : fill ('\n' :: cs) = '\n' :: fill cs := by
  have hmark : '?' ∉ ['\n'] := by decide
  exact fill_append_of_not_mem hmark cs

theorem fill_append_newline (cs : List Char) : fill (cs ++ ['\n']) = fill cs ++ ['\n'] := by
  induction cs with
  | nil => rfl
  | cons c cs ih =>
    have hhead : (cs ++ ['\n']).head?.any isHoleStart = cs.head?.any isHoleStart := by
      cases cs with
      | nil => decide
      | cons d cs => rfl
    rw [cons_append, fill, fill, hhead, ih]
    split <;> rfl

end Snippet

namespace Editor

/-- What an editor makes of compiler output. -/
def inserted (text : List Char) : Editor → List Char
  | .plain => text
  | .templated => Snippet.fill text

theorem inserted_newline_cons (e : Editor) (text : List Char) :
    e.inserted ('\n' :: text) = '\n' :: e.inserted text := by
  cases e with
  | plain => rfl
  | templated => exact Snippet.fill_newline_cons text

theorem inserted_append_newline (e : Editor) (text : List Char) :
    e.inserted (text ++ ['\n']) = e.inserted text ++ ['\n'] := by
  cases e with
  | plain => rfl
  | templated => exact Snippet.fill_append_newline text

/-- The numbers of the fields that a text can have are not too long to be read. -/
def Reads (text : List Char) (e : Editor) : Prop :=
  e = .templated → text.countP Snippet.opensField < 10 ^ Text.digitLimit

theorem insert_eq {e : Editor} {text : List Char} (h : e.Reads text) (b : Buffer) (disk : Disk)
    (start finish : Int) : ∃ fields, e.insert b disk start finish text =
      (b.replace disk start finish (e.inserted text)).map fun r => (fields, r.1, r.2) := by
  cases e with
  | plain =>
    refine ⟨[], ?_⟩
    cases b.replace disk start finish text <;> rfl
  | templated =>
    have hfew := Nat.lt_of_le_of_lt (Snippet.fieldCount_piecesWithin_le text.length text) (h rfl)
    exact ⟨_, insert_templated b disk start finish hfew⟩

end Editor

/-! ## Edits in a run -/

/-- A document with a text is there, so that a session can take over a buffer for it. -/
theorem Replacement.buffer_adopted {x : Replacement} {s d : Nat} (h : (x.old s d).text ≠ []) :
    ((x.adopted s d).session s).buffer d = x.buffer := by
  have hs : s < x.world.sessions.length := by
    by_contra hs
    refine h ?_
    rw [old, World.session, List.getElem?_eq_none (Nat.le_of_not_lt hs)]
    rfl
  have hd : d < (x.world.session s).documents.length := by
    by_contra hd
    refine h ?_
    rw [old, Session.buffer, Session.document?, List.getElem?_eq_none (Nat.le_of_not_lt hd)]
    rfl
  have hsession : (x.adopted s d).session s = (x.world.session s).adopt d x.buffer :=
    World.session_modifySession_self (w := x.written) hs _
  rw [hsession, Session.buffer, Session.document?, Session.documents_adopt, List.getElem?_modify_eq,
    List.getElem?_eq_getElem hd]
  rfl

namespace Client

open Prog World

variable {s d : Nat} {e : Editor} {line column : Int} {w : World} {α ε : Type}

/-- How a program ends that gives a document a new text: the text is written to the file, and the
document takes it over. If the file cannot be written, nothing changes. -/
def Rewrites (s d : Nat) (content : List Char) (P : α → Prop) (w : World) (memory : ε)
    (outcome : Result α × World × ε) : Prop :=
  match w.host.disk.writeText ((w.session s).buffer d).path content with
  | .ok disk => ∃ a w', outcome = (.ok a, w', memory) ∧ P a ∧
      (w'.session s).buffer d = ((w.session s).buffer d).changed content ∧ w'.host.disk = disk
  | .error fault => outcome = (.error (.file fault), w, memory)

variable {env : Environment World Await ε} {memory : ε}

theorem runIn_session_bind {f : Session → Action α} :
    runIn env (session s >>= f) w memory = runIn env (f (w.session s)) w memory := rfl

theorem runIn_ofResult_bind {β : Type} {r : Result β} {b : β} (h : r = .ok b) {f : β → Action α} :
    runIn env (Prog.ofResult r >>= f) w memory = runIn env (f b) w memory := by
  rw [h]
  rfl

/-- The value is passed on after the edit. -/
theorem Rewrites.map {β : Type} {content : List Char} {P : α → Prop} {Q : β → Prop}
    {p : Action α} {f : α → β} (h : Rewrites s d content P w memory (runIn env p w memory))
    (hf : ∀ a, P a → Q (f a)) :
    Rewrites s d content Q w memory (runIn env (p >>= fun a => pure (f a)) w memory) := by
  unfold Rewrites at h ⊢
  split at h
  · next hwrite =>
    obtain ⟨a, w', hrun, ha, hdone⟩ := h
    exact ⟨f a, w', runIn_bind_ok env hrun, hf a ha, hdone⟩
  · next hwrite => exact runIn_bind_error env h

/-- An edit replaces its range by what the editor makes of the text. -/
theorem rewrites_applyEdit {text : String} {pre middle post : List Char}
    (hreads : e.Reads text.toList) (htext : ((w.session s).buffer d).text = pre ++ middle ++ post)
    (hne : ((w.session s).buffer d).text ≠ []) {start finish : Int}
    (hstart : start = Int.ofNat pre.length) (hfinish : finish = Int.ofNat (pre ++ middle).length) :
    Rewrites s d (pre ++ e.inserted text.toList ++ post) (fun _ => True) w memory
      (runIn env (applyEdit s d e start finish text) w memory) := by
  obtain ⟨fields, hinsert⟩ :=
    Editor.insert_eq hreads ((w.session s).buffer d) w.host.disk start finish
  have hrun : runIn env (applyEdit s d e start finish text) w memory = runIn env
          (Prog.ofResult (e.insert ((w.session s).buffer d) w.host.disk start finish
            text.toList) >>= fun r =>
        commit s d r.2.1 r.2.2 >>= fun _ => pure r.1) w memory := rfl
  have hrange : 0 ≤ start ∧ start ≤ finish ∧ finish ≤ ((w.session s).buffer d).text.length := by
    rw [hstart, hfinish, htext]
    simp only [length_append, Int.ofNat_eq_natCast]
    omega
  have hcontent : ((w.session s).buffer d).text.take start.toNat ++ e.inserted text.toList ++
      ((w.session s).buffer d).text.drop finish.toNat = pre ++ e.inserted text.toList ++ post := by
    rw [htext, hstart, hfinish]
    simp only [Int.ofNat_eq_natCast, Int.toNat_natCast]
    rw [drop_left' rfl, append_assoc pre middle post, take_left' rfl]
  rw [Buffer.replace, if_pos hrange, hcontent] at hinsert
  dsimp only at hinsert
  rw [Rewrites, hrun]
  cases hwrite : w.host.disk.writeText ((w.session s).buffer d).path
    (pre ++ e.inserted text.toList ++ post) with
  | error fault =>
    rw [hwrite] at hinsert
    rw [hinsert]
    rfl
  | ok disk =>
    rw [hwrite] at hinsert
    rw [hinsert]
    let x : Replacement := ⟨w, start, finish, e.inserted text.toList,
      ((w.session s).buffer d).changed (pre ++ e.inserted text.toList ++ post), disk⟩
    exact ⟨fields, x.adopted s d, rfl, trivial, x.buffer_adopted hne, rfl⟩

theorem rewrites_insertion {text : String} {pre post content : List Char}
    (hreads : e.Reads text.toList) (htext : ((w.session s).buffer d).text = pre ++ post)
    (hne : ((w.session s).buffer d).text ≠ []) {place : Int} (hplace : place = Int.ofNat pre.length)
    (hcontent : pre ++ e.inserted text.toList ++ post = content) :
    Rewrites s d content (fun _ => True) w memory
      (runIn env (applyEdit s d e place place text) w memory) := by
  have hfinish : place = Int.ofNat (pre ++ []).length := by rw [append_nil, hplace]
  rw [← append_nil pre] at htext
  rw [← hcontent]
  exact rewrites_applyEdit hreads htext hne hplace hfinish

/-! ## The commands -/

theorem nameAt_of_askAbout {tag : String} {extra : List Value} {name : String} {number : Int}
    {r : Response} {w' : World} {memory' : ε}
    (h : runIn env (askAbout s d tag line column extra) w memory =
      (.ok (name, number, r), w', memory')) :
    ((w.session s).buffer d).nameAt line column = .ok (name, number) := by
  obtain ⟨_, _, _, hsession, h⟩ := exists_of_runIn_bind_ok env h
  cases hsession
  obtain ⟨⟨name', number'⟩, _, _, hname, h⟩ := exists_of_runIn_bind_ok env h
  obtain ⟨_, _, _, -, h⟩ := exists_of_runIn_bind_ok env h
  obtain ⟨_, _, _, -, h⟩ := exists_of_runIn_bind_ok env h
  cases h
  exact (Prod.mk.inj hname).1

/-- There is no name in an empty text. -/
theorem text_ne_nil_of_nameAt {b : Buffer} {name : String} {number : Int}
    (h : b.nameAt line column = .ok (name, number)) : b.text ≠ [] := by
  intro hnil
  obtain ⟨-, hfirst, hlast⟩ := nameAt_line h
  obtain ⟨before, content, after, hline⟩ := Buffer.exists_hasLine hfirst hlast
  have hcontent : content = [] := by
    have htext := hline.isLine.text_eq
    rw [hnil, nil_eq_append_iff, append_eq_nil_iff] at htext
    exact htext.1.2
  have hname : Text.trimBy (· == '.') (runAround isNameChar [] (min (max column 1 - 1).toNat 0)) =
      [] := by
    rw [Nat.min_zero]
    rfl
  rw [Buffer.nameAt, if_neg (by omega), hline.lineContent_eq, hcontent] at h
  dsimp only [Bind.bind, Except.bind] at h
  rw [length_nil, hname] at h
  cases h

/-- The compiler was asked about a line, and answered while the document has that line. -/
structure Answered (env : Environment World Await ε) (s d : Nat) (e : Editor) (tag : String)
    (line column : Int) (r : Response) (before content after : List Char) (w : World) (memory : ε)
    (w' : World) (memory' : ε) : Prop where
  runIn_eq : ∃ name, runIn env (askAbout s d tag line column []) w memory =
    (.ok (name, line, r), w', memory')
  hasLine : ((w'.session s).buffer d).HasLine line before content after
  text_ne_nil : ((w'.session s).buffer d).text ≠ []
  reads : e.Reads (Editing.withoutTerminator r.text).toList

namespace Answered

variable {tag : String} {r : Response} {before content after : List Char} {w' : World} {memory' : ε}

theorem rewrites_replaceLineBy (h : Answered env s d e tag line column r before content after w
    memory w' memory') (messages : String → List String) :
    Rewrites s d (before ++ e.inserted (Editing.withoutTerminator r.text).toList ++ after)
      (fun edit => edit.text = Editing.withoutTerminator r.text) w' memory'
      (runIn env (replaceLineBy s d e tag line column messages) w memory) := by
  obtain ⟨name, hask⟩ := h.runIn_eq
  rw [replaceLineBy, runIn_bind_ok env hask]
  rw [runIn_session_bind, runIn_ofResult_bind h.hasLine.offset_eq,
    runIn_ofResult_bind h.hasLine.endOfLine_eq]
  refine (rewrites_applyEdit h.reads h.hasLine.isLine.text_eq h.text_ne_nil rfl ?_).map
    fun _ _ => rfl
  rw [length_append]

/-- Both ways to add lines at the end of a line start with a newline. -/
theorem rewrites_atEnd (h : Answered env s d e tag line column r before content after w
    memory w' memory') {f : List Field → Edit}
    (hf : ∀ fields, (f fields).text = Editing.withoutTerminator r.text) {finish : Int}
    (hfinish : finish = Int.ofNat (before.length + content.length)) : Rewrites s d
      (before ++ (content ++ '\n' :: e.inserted (Editing.withoutTerminator r.text).toList) ++ after)
      (fun edit => edit.text = Editing.withoutTerminator r.text) w' memory'
      (runIn env (applyEdit s d e finish finish
          ("\n" ++ Editing.withoutTerminator r.text) >>= fun fields =>
        pure (f fields)) w' memory') := by
  have htext : ("\n" ++ Editing.withoutTerminator r.text).toList =
      '\n' :: (Editing.withoutTerminator r.text).toList :=
    String.toList_append
  have hreads : e.Reads ("\n" ++ Editing.withoutTerminator r.text).toList := by
    rw [htext, Editor.Reads, countP_cons_of_neg (by decide)]
    exact h.reads
  have hcontent : before ++ content ++
    e.inserted ("\n" ++ Editing.withoutTerminator r.text).toList ++ after =
      before ++ (content ++ '\n' :: e.inserted (Editing.withoutTerminator r.text).toList) ++
        after := by
    rw [htext, e.inserted_newline_cons, append_assoc before]
  rw [← length_append] at hfinish
  exact (rewrites_insertion hreads h.hasLine.isLine.text_eq h.text_ne_nil hfinish hcontent).map
    fun fields _ => hf fields

theorem rewrites_addClause {proof : Bool}
    (h : Answered env s d e (if proof then "add-proof-clause" else "add-clause") line column r
      before content after w memory w' memory') : Rewrites s d
      (before ++ (content ++ '\n' :: e.inserted (Editing.withoutTerminator r.text).toList) ++ after)
      (fun edit => edit.text = Editing.withoutTerminator r.text) w' memory'
      (runIn env (addClause s d e line column proof) w memory) := by
  obtain ⟨name, hask⟩ := h.runIn_eq
  rw [addClause, runIn_bind_ok env hask]
  rw [runIn_session_bind, runIn_ofResult_bind h.hasLine.endOfLine_eq]
  exact h.rewrites_atEnd (fun _ => rfl) rfl

theorem rewrites_addMissing (h : Answered env s d e "add-missing" line column r before content after
    w memory w' memory') : Rewrites s d
      (before ++ (content ++ '\n' :: e.inserted (Editing.withoutTerminator r.text).toList) ++ after)
      (fun edit => edit.text = Editing.withoutTerminator r.text) w' memory'
      (runIn env (addMissing s d e line column) w memory) := by
  obtain ⟨name, hask⟩ := h.runIn_eq
  rw [addMissing, runIn_bind_ok env hask]
  dsimp only
  rw [runIn_session_bind]
  split
  · next hnext =>
    obtain ⟨⟨later, rfl⟩, hoffset⟩ := h.hasLine.offset_succ hnext
    have htext : (Editing.withoutTerminator r.text ++ "\n").toList =
        (Editing.withoutTerminator r.text).toList ++ ['\n'] := String.toList_append
    have hreads : e.Reads (Editing.withoutTerminator r.text ++ "\n").toList := by
      rw [htext, Editor.Reads, countP_append]
      exact h.reads
    have hplace : ((w'.session s).buffer d).text = (before ++ content ++ ['\n']) ++ later := by
      rw [h.hasLine.isLine.text_eq, append_assoc (before ++ content)]
      rfl
    have hlength : Int.ofNat (before.length + content.length + 1) =
        Int.ofNat (before ++ content ++ ['\n']).length := by
      rw [length_append, length_append]
      rfl
    have hcontent : before ++ content ++ ['\n'] ++
      e.inserted (Editing.withoutTerminator r.text ++ "\n").toList ++ later =
        before ++ (content ++ '\n' :: e.inserted (Editing.withoutTerminator r.text).toList) ++
          '\n' :: later := by
      rw [htext, e.inserted_append_newline]
      simp
    rw [runIn_ofResult_bind hoffset]
    exact (rewrites_insertion hreads hplace h.text_ne_nil hlength hcontent).map fun _ _ => rfl
  · rw [runIn_ofResult_bind h.hasLine.endOfLine_eq]
    exact h.rewrites_atEnd (fun _ => rfl) rfl

/-- The document is rewritten with the lines of the answer at the line that was asked about. -/
theorem rewrites_perform (h : Answered env s d e tag line column r before content after w
    memory w' memory') {command : EditCommand} (htag : command.lineTag? = some tag)
    {place : Placement} (hplace : command.placement? = some place) :
    Rewrites s d (place.withLines (e.inserted (Editing.withoutTerminator r.text).toList) before
      content after) (fun edit => edit.text = Editing.withoutTerminator r.text) w' memory'
      (runIn env (perform s d e line column command) w memory) := by
  cases command with
  | caseSplit =>
    cases htag
    cases hplace
    unfold perform caseSplit
    exact h.rewrites_replaceLineBy _
  | makeWith =>
    cases htag
    cases hplace
    unfold perform makeWith
    exact h.rewrites_replaceLineBy _
  | addClause proof =>
    cases htag
    cases hplace
    exact h.rewrites_addClause
  | addMissing =>
    cases htag
    cases hplace
    exact h.rewrites_addMissing
  | proofSearch hints => cases hplace
  | refine variant stem choices => cases hplace

end Answered

theorem length_withoutTerminator_le (text : String) :
    (Editing.withoutTerminator text).toList.length ≤ text.toList.length := by
  unfold Editing.withoutTerminator
  split
  · rw [String.toList_ofList, length_dropLast]
    exact Nat.sub_le _ _
  · exact Nat.le_refl _

/-- **Commands that work on a line keep all other lines.** The compiler was asked about the
identifier at a line, and its answer came while the document still had its text. Then the command
puts the lines of the answer, of which one newline at the end does not count, in the place of the
line or right below it, and every other line stays. The template editor does the same with the names
of the holes for the holes; it can number them if the answer has fewer than `10 ^ 4300`
characters. -/
theorem line_commands_keep_other_lines (env : Environment World Await ε) (memory : ε)
    (s d : Nat) (e : Editor) (line column : Int) (command : EditCommand) {tag : String}
    (htag : command.lineTag? = some tag) {place : Placement}
    (hplace : command.placement? = some place) {w w' : World} {memory' : ε} {name : String}
    {number : Int} {r : Response} (hask : runIn env (askAbout s d tag line column []) w memory =
      (.ok (name, number, r), w', memory'))
    (hsame : ((w'.session s).buffer d).text = ((w.session s).buffer d).text)
    (hfew : e = .templated → r.text.length < 10 ^ Text.digitLimit) :
    ∃ content, content.splitOn '\n' = (((w.session s).buffer d).text.splitOn '\n').take
        (place.kept line.toNat) ++
        (e.inserted (Editing.withoutTerminator r.text).toList).splitOn '\n' ++
        (((w.session s).buffer d).text.splitOn '\n').drop line.toNat ∧
      Rewrites s d content (fun edit => edit.text = Editing.withoutTerminator r.text) w' memory'
        (runIn env (perform s d e line column command) w memory) := by
  have hname := nameAt_of_askAbout hask
  obtain ⟨rfl, hfirst, hlast⟩ := nameAt_line hname
  have hlast' : number ≤ ((w'.session s).buffer d).lineCount := by
    rw [Buffer.lineCount, Buffer.table, hsame]
    exact hlast
  obtain ⟨before, content, after, hline⟩ := Buffer.exists_hasLine hfirst hlast'
  have hreads : e.Reads (Editing.withoutTerminator r.text).toList := by
    intro he
    refine Nat.lt_of_le_of_lt
      (Nat.le_trans countP_le_length (length_withoutTerminator_le r.text)) ?_
    exact hfew he
  have hne : ((w'.session s).buffer d).text ≠ [] := hsame ▸ text_ne_nil_of_nameAt hname
  have hanswered : Answered env s d e tag number column r before content after w
      memory w' memory' :=
    ⟨⟨name, hask⟩, hline, hne, hreads⟩
  refine ⟨_, ?_, hanswered.rewrites_perform htag hplace⟩
  rw [← hsame]
  exact hline.isLine.splitOn_withLines place _

/-- Missing clauses are added below the last line of a text that ends without a newline; their holes
become fields. -/
theorem line_commands_keep_other_lines_addMissing :
    let env := answering id "f Z = ?a\nf (S k) = ?b\n"
    let w := deskWorld "f : Nat -> Nat\nf x = ?h"
    ∃ name number r w', runIn env (askAbout 0 0 "add-missing" 2 3 []) w () =
      (.ok (name, number, r), w', ()) ∧
      ((w'.session 0).buffer 0).text = ((w.session 0).buffer 0).text ∧
      r.text.length < 10 ^ Text.digitLimit ∧
      ∃ content, content = "f : Nat -> Nat\nf x = ?h\nf Z = a\nf (S k) = b".toList ∧
        Rewrites 0 0 content (fun edit => edit.text = "f Z = ?a\nf (S k) = ?b") w' ()
          (runIn env (perform 0 0 .templated 2 3 .addMissing) w ()) := by
  intro env w
  have htext :
    ((((runIn env (askAbout 0 0 "add-missing" 2 3 []) w ()).2.1.session 0).buffer 0).text) =
      ((w.session 0).buffer 0).text := by decide +kernel
  have hanswer : (runIn env (askAbout 0 0 "add-missing" 2 3 []) w ()).1.toOption.map
    (fun a => a.2.2.text) = some "f Z = ?a\nf (S k) = ?b\n" := by decide +kernel
  rcases hask : runIn env (askAbout 0 0 "add-missing" 2 3 []) w () with
    ⟨fault | ⟨name, number, r⟩, w', ⟨⟩⟩
  · rw [hask] at hanswer
    cases hanswer
  · rw [hask] at htext hanswer
    have hr : r.text = "f Z = ?a\nf (S k) = ?b\n" := Option.some.inj hanswer
    have hfew : r.text.length < 10 ^ Text.digitLimit := by
      rw [hr]
      exact Nat.lt_of_lt_of_le (show _ < 10 ^ 2 by decide)
        (Nat.pow_le_pow_right (by decide) (by decide))
    refine ⟨name, number, r, w', rfl, htext, hfew, ?_⟩
    obtain ⟨content, hlines, hrewrites⟩ :=
      line_commands_keep_other_lines env () 0 0 .templated 2 3 .addMissing rfl rfl hask
      htext fun _ => hfew
    rw [hr] at hlines hrewrites
    have hcontent : ['\n'].intercalate (content.splitOn '\n') = content := intercalate_splitOn '\n'
    refine ⟨content, ?_, hrewrites⟩
    rw [← hcontent, hlines]
    decide +kernel

end Client

end IdeMode
