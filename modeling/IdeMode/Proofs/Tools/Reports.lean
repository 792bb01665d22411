import IdeMode.Proofs.Session.Arrivals
set_option autoImplicit false

/-!
# Reports of diagnostics

A diagnostic is kept whatever its message is, but only a text can be shown. So a diagnostic without
a text makes every report about its file fail, until the next load of the file begins.
-/

namespace IdeMode

open Client Prog World List

/-- Whether a value is taken for a diagnostic does not depend on the message. -/
theorem Warning.isOk_ofValue (file start finish m m' : Value) (rest : List Value) :
    (ofValue (.list (file :: start :: finish :: m :: rest))).isOk =
      (ofValue (.list (file :: start :: finish :: m' :: rest))).isOk := by
  unfold ofValue
  dsimp only
  cases pairOf? start with
  | none => rfl
  | some a =>
    cases pairOf? finish with
    | none => rfl
    | some b => rfl

/-- The diagnostics of a file as they are shown, or all of them. -/
def Session.listing (session : Session) (p : Option Path) : Result String :=
  ((session.warningsFor p).mapM warningLines).map fun lines => "\n".intercalate lines.flatten

/-- Diagnostics are shown if all of them have a text, whatever their places are. -/
theorem mapM_warningLines (ws : List Warning) :
    (∀ x ∈ ws, x.message.bare? ≠ none) ∧ (∃ lines, ws.mapM warningLines = .ok lines) ∨
      (∃ x ∈ ws, x.message.bare? = none) ∧ ws.mapM warningLines = .error .notText := by
  induction ws with
  | nil => exact .inl ⟨forall_mem_nil _, [], rfl⟩
  | cons x ws ih =>
    rw [mapM_cons, warningLines]
    cases hbare : x.message.bare? with
    | none => exact .inr ⟨⟨x, mem_cons_self, hbare⟩, rfl⟩
    | some text =>
      rcases ih with ⟨htexts, lines, hlines⟩ | ⟨⟨y, hy, hnone⟩, hfault⟩
      · refine .inl ⟨forall_mem_cons.2 ⟨hbare ▸ Option.some_ne_none _, htexts⟩, ?_⟩
        rw [hlines]
        exact ⟨_, rfl⟩
      · refine .inr ⟨⟨y, mem_cons_of_mem x hy, hnone⟩, ?_⟩
        rw [hfault]
        rfl

theorem Session.mem_warningsFor {session : Session} {scope : Option Path} {x : Warning} :
    x ∈ session.warningsFor scope ↔
      ∃ p, (∀ q, scope = some q → q = p) ∧ x ∈ session.warningsFor (some p) := by
  unfold Session.warningsFor
  cases scope with
  | none => simp
  | some q => simp

namespace Diagnostics

/-- A text that shows diagnostics. -/
inductive Report where
  /-- what the tool for diagnostics shows, in a session by its name -/
  | tool (file : Option String) (name : String)
  /-- what is shown after a load of a document, or where none was needed -/
  | load (d : Nat) (loaded : Bool)
  /-- what is shown of a load that failed -/
  | failure (diagnostic : String) (p : Path)

namespace Report

/-- Makes the text, in a session. -/
def text (s : Nat) : Report → Action String
  | .tool file name => warningsTool file name
  | .load d loaded => do
    let b := (← session s).buffer d
    let status :=
      if loaded then "Loaded " ++ b.fileName else b.fileName ++ " already loaded (unchanged)"
    let warnings ← warningsText s (some b.path)
    return if warnings.isEmpty then status else status ++ "\n\n" ++ warnings
  | .failure diagnostic p => faultText (some s) (.loadFailed diagnostic p)

/-- The file whose diagnostics are shown, unless all are. -/
def scope (s : Nat) (w : World) : Report → Result (Option Path)
  | .tool none _ => .ok none
  | .tool (some file) _ =>
    if file.isEmpty then .ok none else if Path.isName file then .ok (some (w.host.cwd.resolve file))
      else .error .badValue
  | .load d _ => .ok (some ((w.session s).buffer d).path)
  | .failure _ p => .ok (some p)

/-- The name is that of the session. -/
def IsOf (s : Nat) (w : World) : Report → Prop
  | .tool _ name => ∃ e, w.registry.entries.get? name = some e ∧ e.session = s
  | _ => True

variable {s : Nat} {w : World}

theorem run_warningsText (s : Nat) (p : Option Path) (w : World) :
    (warningsText s p).run w = (.finished ((w.session s).listing p), w) := by
  show Prog.run (ofResult (((w.session s).warningsFor p).mapM warningLines) >>= _) w = _
  unfold Session.listing
  cases ((w.session s).warningsFor p).mapM warningLines with
  | ok lines => rfl
  | error f => rfl

/-- A report lays out the diagnostics of its file. -/
theorem run_text {report : Report} (hof : report.IsOf s w) : ∃ layout : String → String,
    (report.text s).run w = (.finished
      (report.scope s w >>= fun p => ((w.session s).listing p).map layout), w) := by
  cases report with
  | tool file name =>
    obtain ⟨e, he, rfl⟩ := hof
    let layout : String → String := fun text => if text.isEmpty then "No warnings." else text
    have hfound : (entryNamed name).run w = (.finished (.ok (some e)), w) := he ▸ rfl
    have hshow := fun p => run_map_finished (f := layout) (run_warningsText e.session p w)
    refine ⟨layout, ?_⟩
    unfold text warningsTool scope
    rw [run_bind_ok hfound]
    cases file with
    | none => exact hshow none
    | some file =>
      dsimp only
      split
      · exact hshow none
      · unfold resolve
        split
        · exact hshow _
        · rfl
  | load d loaded => exact ⟨_, run_map_finished (f := _) (run_warningsText s _ w)⟩
  | failure diagnostic p => exact ⟨_, run_map_finished (f := _) (run_warningsText s _ w)⟩

end Report

/-- The diagnostic arrived after the last load of its file began, and the file is the one in
question if there is one. -/
def Arrived (marks : List Mark) (scope : Option Path) (x : Warning) : Prop :=
  ∃ p, (∀ q, scope = some q → q = p) ∧ x ∈ (since (Mark.loads p) marks).filterMap (Mark.warning? p)

variable {ε : Type} {env : Environment World Await ε} {log : ε → List Mark} {s : Nat} {w : World}

/-- A report fails if it is given no name of a file for one, or if a diagnostic that it should show
arrived with a message that is no text, and only then. With such a report the load tool ends, and a
load that failed. The message has no part in whether a diagnostic is kept. -/
theorem report_shown_iff_texts (henv : Logs log s env) (hs : s < w.sessions.length)
    (hfresh : (w.session s).warnings = []) (doings : List Doing) (e : ε) :
    let last := Doing.follow env log s doings w e
    (∀ report : Report, report.IsOf s last.1 → (∀ fault, report.scope s last.1 = .error fault →
        (report.text s).run last.1 = (.finished (.error fault), last.1)) ∧
      ∀ scope, report.scope s last.1 = .ok scope →
        ((∀ x, Arrived last.2 scope x → x.message.bare? ≠ none) ↔
          ∃ text, (report.text s).run last.1 = (.finished (.ok text), last.1)) ∧
        ((∃ x, Arrived last.2 scope x ∧ x.message.bare? = none) →
          (report.text s).run last.1 = (.finished (.error .notText), last.1))) ∧
    (∀ file force name, ∃ action, loadTool file force name =
      onFile file name action fun k loaded => (Report.load k.document loaded).text k.session) ∧
    (∀ file diagnostic p, onFile.shown file (some s) (.loadFailed diagnostic p) =
        (Report.failure diagnostic p).text s) ∧ ∀ file start finish message message' rest,
      (Warning.ofValue (.list (file :: start :: finish :: message :: rest))).isOk =
        (Warning.ofValue (.list (file :: start :: finish :: message' :: rest))).isOk := by
  intro last
  refine ⟨fun report hof => ?_, fun file force name => ⟨_, rfl⟩, fun file diagnostic p => rfl,
    Warning.isOk_ofValue⟩
  obtain ⟨layout, hrun⟩ := Report.run_text hof
  refine ⟨fun fault hfault => ?_, fun scope hscope => ?_⟩
  · rw [hrun, hfault]
    rfl
  · have hkept : ∀ x, Arrived last.2 scope x ↔ x ∈ (last.1.session s).warningsFor scope := by
      intro x
      rw [Session.mem_warningsFor]
      unfold Arrived
      simp only [last, Doing.warningsFor_follow henv hs hfresh doings e]
    simp only [hkept]
    replace hrun : (report.text s).run last.1 =
        (.finished (((last.1.session s).listing scope).map layout), last.1) :=
        hrun.trans (by rw [hscope]; rfl)
    rw [hrun, Session.listing]
    rcases mapM_warningLines ((last.1.session s).warningsFor scope) with
      ⟨htexts, lines, hlines⟩ | ⟨⟨x, hx, hnone⟩, hfault⟩
    · rw [hlines]
      refine ⟨iff_of_true htexts ⟨_, rfl⟩, ?_⟩
      rintro ⟨x, hx, hnone⟩
      exact absurd hnone (htexts x hx)
    · rw [hfault]
      refine ⟨iff_of_false (fun htexts => htexts x hx hnone) ?_, fun _ => rfl⟩
      rintro ⟨text, htext⟩
      cases htext

/-- A diagnostic about a file whose message is a number. -/
def numberAbout (file : String) : Message :=
  .notice "warning" none (.list [.str file, .list [.int 0, .int 0], .list [.int 0, .int 1], .int 5])

/-- The number is kept for the file that was loaded, whose report fails; a report about another file
is made. -/
theorem report_shown_iff_texts_number :
    let last := Doing.follow complaining id 0 [.load 0, .hear (numberAbout "A")] attentiveWorld []
    ((Report.load 0 true).text 0).run last.1 = (.finished (.error .notText), last.1) ∧
      ∃ text, ((Report.failure "" ⟨["B"]⟩).text 0).run last.1 = (.finished (.ok text), last.1) := by
  intro last
  have h := (report_shown_iff_texts logs_complaining (w := attentiveWorld) (by decide) rfl
    [.load 0, .hear (numberAbout "A")] []).1
  have hnumber : ∃ x ∈ (since (Mark.loads ⟨["A"]⟩) last.2).filterMap (Mark.warning? ⟨["A"]⟩),
      x.message.bare? = none := by
    decide +kernel
  have htexts : ∀ x ∈ (since (Mark.loads ⟨["B"]⟩) last.2).filterMap (Mark.warning? ⟨["B"]⟩),
      x.message.bare? ≠ none := by
    decide +kernel
  have hpath : ((last.1.session 0).buffer 0).path = ⟨["A"]⟩ := by decide +kernel
  have hscope : (Report.load 0 true).scope 0 last.1 = .ok (some ⟨["A"]⟩) := by
    rw [Report.scope, hpath]
  obtain ⟨x, hx, hnone⟩ := hnumber
  refine ⟨((h (.load 0 true) trivial).2 _ hscope).2 ⟨x, ⟨_, ?_, hx⟩, hnone⟩, ?_⟩
  · rintro _ ⟨⟩
    rfl
  · refine ((h (.failure "" ⟨["B"]⟩) trivial).2 _ rfl).1.1 ?_
    rintro y ⟨p, hp, hy⟩
    obtain rfl := hp _ rfl
    exact htexts y hy

end Diagnostics

end IdeMode
