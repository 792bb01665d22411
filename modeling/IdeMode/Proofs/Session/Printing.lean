import IdeMode.Proofs.Session.Arrivals
set_option autoImplicit false

/-!
# What an evaluation prints

The text of an evaluation starts with what was printed. A session keeps one list of printed pieces,
and whoever prints adds to it: a piece says for which request it was printed, but nobody looks. So
an evaluation shows whatever arrives between the moment at which it empties the list and the end of
its call, also what an earlier call prints late.
-/

namespace IdeMode

open List

/-- The text that a message says was printed for a request. -/
def Message.printedFor? (id : Int) : Message → Option String
  | .notice "write-string" (some n) payload => if n = id then some payload.text else none
  | _ => none

namespace Mark

/-- The text that arrives with the mark. -/
def printed? : Mark → Option String
  | .notice _ m => m.printed?
  | _ => none

/-- The text for a request that arrives with the mark. -/
def printedFor? (id : Int) : Mark → Option String
  | .notice _ m => m.printedFor? id
  | _ => none

/-- Whether the mark is that what was printed is forgotten. -/
def clears : Mark → Bool
  | .clear => true
  | _ => false

end Mark

theorem lately_lately_append (pieces : List String) (text : String) :
    lately (lately pieces ++ [text]) = lately (pieces ++ [text]) := by
  unfold lately
  generalize Session.keptOutput = kept
  rw [← drop_append_of_le_length (Nat.sub_le _ _), drop_drop, length_drop, length_append,
    length_singleton]
  congr 1
  omega

/-- The pieces that are kept are the latest ones since the last time that the list was emptied. -/
theorem output_foldl_effect (warnings : List (Path × Warning)) (marks : List Mark) :
    (marks.foldl Mark.effect ([], warnings)).1 =
      lately ((since Mark.clears marks).filterMap Mark.printed?) := by
  induction marks using List.reverseRecOn with
  | nil => rfl
  | append_singleton marks x ih =>
    rw [foldl_concat, since_append]
    generalize marks.foldl Mark.effect ([], warnings) = told at ih
    cases x with
    | notice directory m =>
      have hgoesOn : Mark.clears (.notice directory m) = false := rfl
      rw [hgoesOn, if_neg Bool.false_ne_true, filterMap_append, Mark.effect, ih]
      cases hprinted : m.printed? with
      | none => simp [Mark.printed?, hprinted]
      | some text => simp [Mark.printed?, hprinted, lately_lately_append]
    | load p =>
      have hgoesOn : Mark.clears (.load p) = false := rfl
      have hsilent : [Mark.load p].filterMap Mark.printed? = [] := rfl
      rw [hgoesOn, if_neg Bool.false_ne_true, filterMap_append, hsilent, append_nil,
        Mark.effect, ih]
    | clear => exact drop_nil.symm

open Client Prog World

variable {s : Nat} {w w₀ w₁ w₂ : World} {ε : Type} {env : Environment World Await ε}
  {log : ε → List Mark} {e e₀ e₁ e₂ : ε}

/-- The world in which the list of a session is empty. -/
def World.silenced (w : World) (s : Nat) : World :=
  w.modifySession s fun session => { session with output := [] }

/-- The command that evaluates an expression. -/
def evaluation (expression : String) : Command := ⟨"interpret", [.str expression]⟩

/-- The number of the request that evaluates an expression in a session whose list is empty. -/
def World.evaluationId (w : World) (s : Nat) (expression : String) : Int :=
  ((w.silenced s).issue s (evaluation expression) .waiter).1.id

/-- The time within which the tool has an evaluation done. -/
def evaluationLimit (limit : Duration) : Option Duration :=
  some (Duration.clamp (.whole 1) (.whole 600) limit)

/-- The text of an evaluation that is answered starts with the latest pieces that arrived since it
emptied the list, or since another one did, whatever requests they were printed for. If there was no
other, and all of them were printed for its own request, these are its own pieces. -/
theorem evaluation_shows_shared_output {expression name : String} {limit : Duration} {entry : Entry}
    {r : Response} (henv : Logs log entry.session env)
    (hentry : runIn env (entryFor name none) w₀ e₀ = (.ok entry, w, e))
    (hs : entry.session < w.sessions.length)
    (hevaluate : runIn env (evaluate entry.session expression (evaluationLimit limit)) w e =
      (.ok r, w₂, e₂)) :
    ∃ message w₁ e₁ after, runIn env (ensureRunning entry.session) w e = (.ok message, w₁, e₁) ∧
      log e₂ = log e₁ ++ after ∧
      runIn env (evaluateTool expression name limit) w₀ e₀ =
        (.ok (String.join (lately ((since Mark.clears after).filterMap Mark.printed?)) ++ r.text),
          w₂.silenced entry.session, e₂) ∧ ((∀ x ∈ after, x.clears = false ∧
        x.printed? = x.printedFor? (w₁.evaluationId entry.session expression)) →
        (since Mark.clears after).filterMap Mark.printed? =
          after.filterMap (Mark.printedFor? (w₁.evaluationId entry.session expression))) := by
  have hshown : runIn env (evaluateTool expression name limit) w₀ e₀ =
      (.ok (String.join (w₂.session entry.session).output ++ r.text),
        w₂.silenced entry.session, e₂) := by
    have hattempt : runIn env
      (evaluate entry.session expression (evaluationLimit limit)).attempt w e =
        (.ok (.ok r), w₂, e₂) := by rw [runIn_attempt, hevaluate]
    rw [evaluateTool, runIn_bind_ok env hentry]
    exact (runIn_bind_ok env hattempt).trans rfl
  obtain ⟨_, -, hstarted⟩ :=
    henv.passing (reticent_allowsLoads entry.session).obeys_ensureRunning w e
  rcases hstart : runIn env (ensureRunning entry.session) w e with ⟨fault | message, w₁, e₁⟩
  · rw [evaluate, runIn_bind_error env hstart] at hevaluate
    cases hevaluate
  rw [hstart] at hstarted
  rw [evaluate, runIn_bind_ok env hstart] at hevaluate
  have hcall : runIn env (sessionCall entry.session (evaluation expression) (evaluationLimit limit))
      (w₁.silenced entry.session) e₁ = (.ok r, w₂, e₂) := hevaluate
  have hs₁ : entry.session < w₁.sessions.length := (hstarted.told_eq hs).1
  have hcalling : Obeys (reticent entry.session)
      (sessionCall entry.session (evaluation expression) (evaluationLimit limit)) :=
    .bind (obeys_session _) fun _ => reticent_call _ _
  obtain ⟨after, hlog, hcalled⟩ := henv.passing hcalling (w₁.silenced entry.session) e₁
  rw [hcall] at hlog hcalled
  obtain ⟨-, htold⟩ := hcalled.told_eq (by rwa [silenced, length_modifySession])
  have houtput : (w₂.session entry.session).output =
      lately ((since Mark.clears after).filterMap Mark.printed?) := by
    have hsilent : ((w₁.silenced entry.session).session entry.session).told =
        ([], (w₁.session entry.session).warnings) := by
      rw [silenced, session_modifySession_self hs₁]
      rfl
    rw [hsilent] at htold
    exact (congrArg Prod.fst htold).trans (output_foldl_effect _ after)
  refine ⟨message, w₁, e₁, after, rfl, hlog, by rw [hshown, houtput], fun hown => ?_⟩
  have hkept : since Mark.clears after = after := by
    rw [since, takeWhile_eq_self_iff.2, reverse_reverse]
    intro x hx
    rw [(hown x (mem_reverse.1 hx)).1]
    rfl
  rw [hkept, filterMap_congr fun x hx => (hown x hx).2]

/-- A session that has made one request, which it no longer waits for. -/
def tardyWorld : World where
  host := { cwd := ⟨[]⟩, children := [{ pid := 1, behaviour := {} }] }
  sessions := [{ transport := { child := some 0 }, dispatch := { nextId := 2 } }]
  registry :=
    { entries := [("default", { session := 0, started := 0, lastUsed := 0, directory := ⟨[]⟩ })] }

/-- During every wait the first request prints something, and the second is answered. -/
def tardy : Environment World Await (List Mark) := fun _ _ w marks =>
  let late := .notice "write-string" (some 1) (.str "late")
  let answer := .reply (some 2) true [.str "2"]
  let w' := ((takeIn 0 late).run w).2
  (.woken, ((takeIn 0 answer).run w').2,
    marks ++ [.notice (w.directory 0) late, .notice (w'.directory 0) answer])

theorem logs_tardy : Logs id 0 tardy := by
  intro on deadline w marks
  obtain ⟨r, w', hlate, -⟩ := run_takeIn w 0 (.notice "write-string" (some 1) (.str "late"))
  obtain ⟨r', w'', hanswer, -⟩ := run_takeIn w' 0 (.reply (some 2) true [.str "2"])
  refine ⟨_, rfl, ?_⟩
  rw [tardy, hlate, hanswer]
  exact (Passing.notice hlate).trans (.notice hanswer)

/-- The second request shows what the first one printed. -/
theorem evaluation_shows_shared_output_tardy :
    let run := runIn tardy (evaluateTool "b" "default" (.whole 30)) tardyWorld []
    run.1.toOption = some "late2" ∧ tardyWorld.evaluationId 0 "b" = 2 ∧ ∃ r after, run.1 =
      .ok (String.join (lately ((since Mark.clears after).filterMap Mark.printed?)) ++
        Response.text r) := by
  intro run
  have hshown : run.1.toOption = some "late2" := by decide +kernel
  have hfound : (runIn tardy (entryFor "default" none) tardyWorld []).1.toOption.map
      Entry.session = some 0 := by
    decide +kernel
  have hpresent :
    0 < (runIn tardy (entryFor "default" none) tardyWorld []).2.1.sessions.length := by
      decide +kernel
  have hanswered : (runIn tardy (evaluate 0 "b" (evaluationLimit (.whole 30)))
      (runIn tardy (entryFor "default" none) tardyWorld []).2.1
      (runIn tardy (entryFor "default" none) tardyWorld []).2.2).1.toBool = true := by
        decide +kernel
  rcases hentry : runIn tardy (entryFor "default" none) tardyWorld [] with ⟨fault | entry, w, e⟩
  · rw [hentry] at hfound
    cases hfound
  rw [hentry] at hfound hpresent hanswered
  have hsession : entry.session = 0 := Option.some.inj hfound
  rcases hevaluate : runIn tardy (evaluate 0 "b" (evaluationLimit (.whole 30))) w e with
    ⟨fault | r, w₂, e₂⟩
  · rw [hevaluate] at hanswered
    cases hanswered
  rw [← hsession] at hevaluate hpresent
  obtain ⟨_, _, _, after, -, -, htext, -⟩ :=
    evaluation_shows_shared_output (hsession ▸ logs_tardy) hentry hpresent hevaluate
  exact ⟨hshown, by decide +kernel, r, after, congrArg Prod.fst htext⟩

end IdeMode
