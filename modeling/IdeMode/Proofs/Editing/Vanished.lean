import IdeMode.Proofs.Editing.HoleEdits
import IdeMode.Request.Tool
set_option autoImplicit false

/-!
# Targets that vanish

While a command waits for the compiler, its line or its hole may go. A hole that is gone is reported
as such. A line that is gone is reported by a refinement only; the other commands look the line up
as if it were there, and end in a fault that no tool shows.
-/

namespace IdeMode

open List

namespace EditCommand

/-- The request that a command makes about a point, unless it is a refinement. -/
def question? : EditCommand → Option (String × List Value)
  | .proofSearch hints => some ("proof-search", [.list ((Editing.hintNames hints).map Value.str)])
  | command => command.lineTag?.map fun tag => (tag, [])

/-- How a command ends that finds nothing to edit. -/
def lostFault (b : Buffer) (line : Int) (name : String) (command : EditCommand) : Fault :=
  if line ≤ b.lineCount then .vanished name
  else match command with
    | .caseSplit | .makeWith | .proofSearch _ => .noLine line b.lineCount
    | .addClause _ | .addMissing => .outOfTable
    | .refine .. => .vanished name

/-- The command is to fill a hole, and there is none of its name: before the point, or on the
line. -/
def Lost (b : Buffer) (line column : Int) (name : String) : EditCommand → Prop
  | .proofSearch _ => ∀ start finish, ¬ b.HoleBefore line column name start finish
  | .refine .. => ∀ before content after, b.HasLine line before content after →
    ∀ place, ¬ Client.GoesBy name.toList content place
  | _ => False

/-- The range of a text that a command replaces. -/
def range (b : Buffer) (line column : Int) (name : String) : EditCommand → Result (Int × Int)
  | .caseSplit | .makeWith => do return (← b.offset line, ← b.endOfLine line)
  | .addClause _ => do
    let place ← b.endOfLine line
    return (place, place)
  | .addMissing => do
    let place ← if line < b.lineCount then b.offset (line + 1) else b.endOfLine line
    return (place, place)
  | .proofSearch _ => do
    match ← b.holeNear line column (some name) with
    | none => throw (.vanished name)
    | some found => return found
  | .refine .. => do
    match Client.Refinement.findHole? name.toList
      (← if line ≤ b.lineCount then b.lineContent line else pure []) with
    | none => throw (.vanished name)
    | some place => do
      let start := (← b.offset line) + place
      return (start, start + name.length + 1)

end EditCommand

/-! ## The range in the text -/

namespace Buffer

variable {b : Buffer} {line column : Int} {name : String}

theorem offset_eq_noLine (h : b.lineCount < line) :
    b.offset line column = .error (.noLine line b.lineCount) := by
  rw [offset, if_pos (.inr h)]
  rfl

theorem endOfLine_eq_outOfTable (hfirst : 1 ≤ line) (h : b.lineCount < line) :
    b.endOfLine line = .error .outOfTable := by
  have hbounds : b.bounds line = .error .outOfTable := by
    cases hfound : LineTable.bounds? b.table b.text.length line with
    | none => rw [bounds, hfound]
    | some range =>
      have hle :=
        le_lineCount_of_bounds hfirst (show b.bounds line = .ok range by rw [bounds, hfound])
      omega
  rw [endOfLine, hbounds]
  rfl

theorem range_of_lineCount_lt (hfirst : 1 ≤ line) (h : b.lineCount < line) (command : EditCommand) :
    command.range b line column name = .error (command.lostFault b line name) := by
  have hnext : ¬ line < b.lineCount := by omega
  have hline : ¬ line ≤ b.lineCount := by omega
  unfold EditCommand.lostFault
  rw [if_neg hline]
  cases command with
  | caseSplit | makeWith => rw [EditCommand.range, offset_eq_noLine h]; rfl
  | addClause proof => rw [EditCommand.range, endOfLine_eq_outOfTable hfirst h]; rfl
  | addMissing => rw [EditCommand.range, if_neg hnext, endOfLine_eq_outOfTable hfirst h]; rfl
  | proofSearch hints => rw [EditCommand.range, holeNear, offset_eq_noLine h]; rfl
  | refine variant stem choices => rw [EditCommand.range, if_neg hline]; rfl

variable {before content after : List Char}

theorem HasLine.exists_holeNear_eq (h : b.HasLine line before content after) (column : Int)
    (wanted : Option String) : ∃ found, b.holeNear line column wanted = .ok found := by
  unfold holeNear
  rw [h.placeOffset_eq, h.bounds_eq]
  dsimp only [Bind.bind, Except.bind]
  split
  · exact ⟨_, rfl⟩
  · split
    · split <;> exact ⟨_, rfl⟩
    · exact ⟨_, rfl⟩

/-- Where the line is there, a command has a range in the text, or its hole is lost. -/
theorem HasLine.range_cases (h : b.HasLine line before content after) (column : Int) (name : String)
    (command : EditCommand) :
    command.range b line column name = .error (.vanished name) ∧ command.lineTag? = none ∨
      ∃ start finish, command.range b line column name = .ok (start, finish) ∧
        0 ≤ start ∧ start ≤ finish ∧ finish ≤ b.text.length ∧
          ¬ command.Lost b line column name := by
  have hlength : b.text.length = before.length + content.length + after.length := by
    rw [h.isLine.text_eq, length_append, length_append]
  have hin : ∀ {m n : Nat},
    command.range b line column name = .ok (Int.ofNat m, Int.ofNat n) → m ≤ n →
      n ≤ b.text.length → ¬ command.Lost b line column name →
      ∃ start finish, command.range b line column name = .ok (start, finish) ∧
        0 ≤ start ∧ start ≤ finish ∧ finish ≤ b.text.length ∧ ¬ command.Lost b line column name :=
    fun hrange hle hend hfound =>
      ⟨_, _, hrange, Int.natCast_nonneg _, Int.ofNat_le.2 hle, Int.ofNat_le.2 hend, hfound⟩
  cases command with
  | caseSplit | makeWith =>
    exact .inr (hin (by rw [EditCommand.range, h.offset_eq, h.endOfLine_eq]; rfl) (by omega)
      (by omega) id)
  | addClause proof =>
    exact .inr (hin (by rw [EditCommand.range, h.endOfLine_eq]; rfl) (by omega) (by omega) id)
  | addMissing =>
    by_cases hnext : line < b.lineCount
    · obtain ⟨⟨later, rfl⟩, hoffset⟩ := h.offset_succ hnext
      rw [length_cons] at hlength
      exact .inr (hin (by rw [EditCommand.range, if_pos hnext, hoffset]; rfl) (by omega)
        (by omega) id)
    · exact .inr (hin (by rw [EditCommand.range, if_neg hnext, h.endOfLine_eq]; rfl) (by omega)
        (by omega) id)
  | proofSearch hints =>
    obtain ⟨found, hnear⟩ := h.exists_holeNear_eq column (some name)
    cases found with
    | none =>
      rw [EditCommand.range, hnear]
      exact .inl ⟨rfl, rfl⟩
    | some found =>
      have hhole := h.holeBefore_of_holeNear hnear
      obtain ⟨pre, post, htext, hstart, hfinish, -⟩ := hhole.stands
      have htotal := congrArg List.length htext
      simp only [length_append, length_cons, String.length_toList] at htotal
      refine .inr (hin ?_ (Nat.le_add_right pre.length (1 + name.length)) (by omega)
        fun hlost => hlost _ _ hhole)
      rw [EditCommand.range, hnear, ← Nat.add_assoc, ← hstart, ← hfinish]
      rfl
  | refine variant stem choices =>
    have hlast := h.range.2
    cases hfound : Client.Refinement.findHole? name.toList content with
    | none =>
      refine .inl ⟨?_, rfl⟩
      rw [EditCommand.range, if_pos hlast, h.lineContent_eq]
      dsimp only [Bind.bind, Except.bind]
      rw [hfound]
      rfl
    | some place =>
      have hhole := (Client.Refinement.findHole?_eq_some_iff.1 hfound).1
      have hthere : ¬ (EditCommand.refine variant stem choices).Lost b line column name :=
        fun hlost => hlost _ _ _ h _ hhole
      obtain ⟨left, right, hcontent, rfl, -⟩ := hhole
      have htotal := congrArg List.length hcontent
      simp only [length_append, length_cons, String.length_toList] at htotal
      refine .inr (hin ?_ (Nat.le_add_right (before.length + left.length) (name.length + 1))
        (by omega) hthere)
      rw [EditCommand.range, if_pos hlast, h.lineContent_eq]
      dsimp only [Bind.bind, Except.bind]
      rw [hfound, h.offset_eq]
      rfl

end Buffer

/-! ## The commands -/

namespace Client

open Prog World

variable {ε : Type} {env : Environment World Await ε} {s d : Nat} {e : Editor} {line column : Int}
  {w w' : World} {memory memory' : ε} {command : EditCommand} {name : String}

/-- A command has all its answers: it was asked about a name, and the compiler has answered. -/
inductive Consulted (env : Environment World Await ε) (s d : Nat) (e : Editor) (line column : Int)
    (w : World) (memory : ε) : EditCommand → String → World → ε → Prop where
  | asked {command : EditCommand} {tag : String} {extra : List Value} {name : String} {number : Int}
    {r : Response} {w' : World} {memory' : ε} (hquestion : command.question? = some (tag, extra))
    (h : runIn env (askAbout s d tag line column extra) w memory =
      (.ok (name, number, r), w', memory')) :
    Consulted env s d e line column w memory command name w' memory'
  | refined {variant : String} {v : Variant} {stem : String} {choices : List String}
    {name : String} {w' : World} {memory' : ε} {sought : String × List (List String)}
    (hvariant : Variant.ofText? variant = some v)
    (hname : ((w.session s).buffer d).nameAt line column = .ok (name, line))
    (h : runIn env (Refinement.converse ⟨s, d, e, v, name, line⟩ stem choices) w memory =
      (.ok sought, w', memory')) :
    Consulted env s d e line column w memory (.refine variant stem choices) name w' memory'

/-- A run comes to edit a range, or it ends because there is none. -/
def Reaches (env : Environment World Await ε) (s d : Nat) (e : Editor) (w' : World) (memory' : ε)
    (outcome : Result Edit × World × ε) : Result (Int × Int) → Prop
  | .error fault => outcome = (.error fault, w', memory')
  | .ok (start, finish) =>
    ∃ text rest, outcome = runIn env (applyEdit s d e start finish text >>= rest) w' memory'

theorem Reaches.bind {α : Type} {r : Result α} {f : α → Action Edit} {g : α → Result (Int × Int)}
    (h : ∀ a, Reaches env s d e w' memory' (runIn env (f a) w' memory') (g a)) :
    Reaches env s d e w' memory' (runIn env (Prog.ofResult r >>= f) w' memory') (r >>= g) := by
  cases r with
  | error fault => rfl
  | ok a => exact h a

namespace Consulted

theorem one_le (h : Consulted env s d e line column w memory command name w' memory') :
    1 ≤ line := by
  cases h with
  | asked _ h => exact (nameAt_line (nameAt_of_askAbout h)).2.1
  | refined _ hname _ => exact (nameAt_line hname).2.1

/-- From its answers on, a command replaces its range in the text that there is then. -/
theorem reaches_range (h : Consulted env s d e line column w memory command name w' memory') :
    Reaches env s d e w' memory' (runIn env (perform s d e line column command) w memory)
      (command.range ((w'.session s).buffer d) line column name) := by
  cases h with
  | refined hvariant hname h =>
    rw [perform, hvariant]
    rw [(refine_eq_converse env memory e _ _ _ hname).1, runIn_bind_ok env h, Refinement.finish,
      Refinement.fillHole, EditCommand.range, bind_assoc, runIn_session_bind]
    dsimp only
    split
    · rw [bind_assoc]
      refine .bind fun text => ?_
      cases Refinement.findHole? name.toList text with
      | none => rfl
      | some place =>
        rw [bind_assoc]
        exact .bind fun start => ⟨_, _, rfl⟩
    · rfl
  | asked hquestion h =>
    obtain rfl := (nameAt_line (nameAt_of_askAbout h)).1.symm
    cases command with
    | caseSplit =>
      cases hquestion
      rw [perform, caseSplit, replaceLineBy, runIn_bind_ok env h]
      exact .bind fun start => .bind fun finish => ⟨_, _, rfl⟩
    | makeWith =>
      cases hquestion
      rw [perform, makeWith, replaceLineBy, runIn_bind_ok env h]
      exact .bind fun start => .bind fun finish => ⟨_, _, rfl⟩
    | addClause proof =>
      cases hquestion
      rw [perform, addClause, runIn_bind_ok env h]
      exact .bind fun place => ⟨_, _, rfl⟩
    | addMissing =>
      cases hquestion
      rw [perform, addMissing, runIn_bind_ok env h]
      dsimp only
      rw [runIn_session_bind, EditCommand.range]
      split
      · exact .bind fun place => ⟨_, _, rfl⟩
      · exact .bind fun place => ⟨_, _, rfl⟩
    | proofSearch hints =>
      cases hquestion
      rw [perform, proofSearch, runIn_bind_ok env h]
      refine .bind fun found => ?_
      cases found with
      | none => rfl
      | some found => exact ⟨_, _, rfl⟩
    | refine variant stem choices => cases hquestion

end Consulted

/-- A tool shows how its command failed, or fails in the same way. -/
theorem Consulted.runIn_edit {fault : Fault}
    (h : Consulted env s d e line column w memory command name w' memory')
    (hfault : runIn env (perform s d e line column command) w memory = (.error fault, w', memory'))
    (hlost : fault = command.lostFault ((w'.session s).buffer d) line name)
    (file session : String) (w₀ : World) (memory₀ : ε)
    (hdesk : runIn env (desk file session) w₀ memory₀ = (.ok ⟨s, d⟩, w, memory))
    (heditor : e = Editor.ofFlag w.registry.snippets) :
    runIn env (ToolRequest.edit file command line column session).action w₀ memory₀ =
      (if fault.isReported then .ok (.text ("ERROR: " ++ fault.message))
        else .error fault, w', memory') := by
  subst heditor
  have haction : (ToolRequest.edit file command line column session).action =
      .text <$> editFile file session
        fun k e => perform k.session k.document e line column command := by
    cases h with
    | refined hvariant _ _ => simp only [ToolRequest.action, refineTool, perform, hvariant]
    | asked hquestion _ =>
      cases command with
      | refine variant stem choices => cases hquestion
      | _ => rfl
  have hedit :
    runIn env (editFile file session fun k e => perform k.session k.document e line column command)
      w₀ memory₀ = runIn env (onFile.shown file (some s) fault) w' memory' := by
    have hrun :
      runIn env (do perform s d (Editor.ofFlag (← get).registry.snippets) line column command :
        Action Edit) w memory = (.error fault, w', memory') := hfault
    unfold editFile onFile
    rw [runIn_bind, runIn_attempt, hdesk]
    dsimp only
    rw [runIn_bind, runIn_attempt, hrun]
  rw [haction, map_eq_pure_bind, runIn_bind, hedit, hlost]
  unfold EditCommand.lostFault
  by_cases hline : line ≤ ((w'.session s).buffer d).lineCount
  · rw [if_pos hline]
    rfl
  · rw [if_neg hline]
    cases command <;> rfl

/-- **What becomes of a command whose target is lost.** The compiler has answered, and others
changed the document in any way while the command waited. If the line is gone, only a refinement
reports that, as a hole that vanished: the other commands end in the fault of a line or an index
that does not exist, which no tool shows. If the line is there and the hole is not, proof search and
refinement report that it vanished, and the tool shows so. As long as the line is there, no command
goes wrong over it: a hole is reported, or a range of the text is edited. -/
theorem lost_target_faults (h : Consulted env s d e line column w memory command name w' memory') :
    let b := (w'.session s).buffer d
    let fault := command.lostFault b line name
    (b.lineCount < line ∨ command.Lost b line column name →
      runIn env (perform s d e line column command) w memory = (.error fault, w', memory') ∧
      ∀ file session w₀ memory₀,
        runIn env (desk file session) w₀ memory₀ = (.ok ⟨s, d⟩, w, memory) →
        e = Editor.ofFlag w.registry.snippets →
        runIn env (ToolRequest.edit file command line column session).action w₀ memory₀ =
          (if fault.isReported then .ok (.text ("ERROR: " ++ fault.message)) else .error fault,
            w', memory')) ∧ (line ≤ b.lineCount →
      runIn env (perform s d e line column command) w memory =
        (.error (.vanished name), w', memory') ∧ command.lineTag? = none ∨
        ∃ (start finish : Int) (text : String) (rest : List Field → Action Edit),
          0 ≤ start ∧ start ≤ finish ∧ finish ≤ b.text.length ∧
          runIn env (perform s d e line column command) w memory =
            runIn env (applyEdit s d e start finish text >>= rest) w' memory') := by
  intro b fault
  have hreaches := h.reaches_range
  by_cases hline : line ≤ b.lineCount
  · obtain ⟨_, _, _, hthere⟩ := Buffer.exists_hasLine h.one_le hline
    rcases hthere.range_cases column name command with ⟨hvanished, htag⟩ | ⟨start, finish, hrange,
      hfirst, hle, hlast, hfound⟩
    · have hfault : fault = .vanished name := if_pos hline
      rw [hvanished] at hreaches
      rw [hfault]
      exact ⟨fun _ => ⟨hreaches, h.runIn_edit hreaches hfault.symm⟩, fun _ => .inl ⟨hreaches, htag⟩⟩
    · rw [hrange] at hreaches
      obtain ⟨text, rest, hrun⟩ := hreaches
      refine ⟨fun hlost => absurd hlost (not_or.2 ⟨Int.not_lt.2 hline, hfound⟩), fun _ => ?_⟩
      exact .inr ⟨start, finish, text, rest, hfirst, hle, hlast, hrun⟩
  · rw [Buffer.range_of_lineCount_lt h.one_le (Int.not_le.1 hline)] at hreaches
    exact ⟨fun _ => ⟨hreaches, h.runIn_edit hreaches rfl⟩, fun hle => absurd hle hline⟩

/-- Another command leaves only the first line. -/
def shorten (w : World) : World :=
  w.modifySession 0 fun session => session.adopt 0 ((session.buffer 0).changed "f : Nat".toList)

/-- Proof search is asked for a hole on the second line, and when the answer comes there is no
second line. -/
theorem lost_target_faults_shortened :
    let env := answering shorten "Z\n"
    let w := deskWorld "f : Nat\nf = ?h"
    ∃ name w', Consulted env 0 0 .plain 2 6 w () (.proofSearch []) name w' () ∧
      runIn env (perform 0 0 .plain 2 6 (.proofSearch [])) w () =
        (.error (.noLine 2 1), w', ()) := by
  intro env w
  have htext :
    (((runIn env (askAbout 0 0 "proof-search" 2 6 [.list []]) w ()).2.1.session 0).buffer 0).text =
      "f : Nat".toList := by decide +kernel
  have hok : (runIn env (askAbout 0 0 "proof-search" 2 6 [.list []]) w ()).1.toBool = true := by
    decide +kernel
  rcases hask : runIn env (askAbout 0 0 "proof-search" 2 6 [.list []]) w () with
    ⟨fault | ⟨name, number, r⟩, w', ⟨⟩⟩
  · rw [hask] at hok
    cases hok
  · rw [hask] at htext
    have h : Consulted env 0 0 .plain 2 6 w () (.proofSearch []) name w' () := .asked rfl hask
    have hcount : ((w'.session 0).buffer 0).lineCount = 1 := by
      rw [Buffer.lineCount, Buffer.table, htext]
      rfl
    refine ⟨name, w', h, ?_⟩
    rw [((lost_target_faults h).1 (.inl (by rw [hcount]; decide))).1]
    unfold EditCommand.lostFault
    rw [hcount]
    rfl

end Client

end IdeMode
