import IdeMode.Proofs.Client.Reader
import IdeMode.Proofs.Editing.Touches
import IdeMode.Proofs.World.Drift
set_option autoImplicit false

/-!
# What a session is told

The compiler reports diagnostics and printed text by messages that are no replies. They arrive
whenever an operation of the session waits, and between operations. Besides, an operation that loads
a file begins by forgetting the diagnostics of that file, and one that evaluates an expression by
forgetting what was printed. All of this is written down as marks, in the order in which it happens,
and what the session keeps is computed from the marks alone.
-/

namespace IdeMode

open List

/-- The text that a message says was printed. -/
def Message.printed? : Message → Option String
  | .notice "write-string" _ payload => some payload.text
  | _ => none

/-- The diagnostic in a message, and the file that it is about where names are taken relative to a
directory. -/
def Message.warning? (directory : Path) : Message → Option (Path × Warning)
  | .notice "warning" _ payload =>
    (Warning.ofValue payload).toOption.bind fun w =>
      if Path.isName w.file then some (directory.resolve w.file, w) else none
  | _ => none

/-- Something that bears on what a session keeps of messages. -/
inductive Mark where
  /-- a message arrives, while names are taken relative to a directory -/
  | notice (directory : Path) (m : Message)
  /-- a load of a file begins -/
  | load (p : Path)
  /-- what was printed is forgotten -/
  | clear

/-- The latest pieces of printed text, as many as are kept. -/
def lately (pieces : List String) : List String := pieces.drop (pieces.length - Session.keptOutput)

/-- What is kept after a mark. -/
def Mark.effect (told : List String × List (Path × Warning)) :
    Mark → List String × List (Path × Warning)
  | .notice directory m =>
    (m.printed?.elim told.1 fun text => lately (told.1 ++ [text]),
      told.2 ++ (m.warning? directory).toList)
  | .load p => (told.1, told.2.filter fun w => w.1 ≠ p)
  | .clear => ([], told.2)

/-- A message is kept as its mark says. -/
theorem Session.told_notice {session noted : Session} {cwd : Path} {m : Message}
    (h : session.notice cwd m = .ok noted) :
    noted.told = (Mark.notice (session.cwd.getD cwd) m).effect session.told := by
  unfold Session.notice at h
  split at h
  · next id payload =>
    have hprinted : (Message.notice "warning" id payload).printed? = none := rfl
    rw [Mark.effect, hprinted, Message.warning?]
    cases hwarning : Warning.ofValue payload with
    | ok warning =>
      rw [hwarning] at h
      dsimp only [Session.addWarning] at h
      split at h
      · next hname =>
        cases h
        simp [Session.told, Except.toOption, hname]
      · cases h
    | error _ =>
      rw [hwarning] at h
      cases h
      simp [Session.told, Except.toOption]
  · next id payload =>
    cases h
    simp [Mark.effect, Message.printed?, Message.warning?, Session.told, Session.addOutput, lately]
  · cases h
    simp [Mark.effect, Message.printed?, Message.warning?, Session.told]
  · next hwarning hprinted _ =>
    cases h
    have hnone : m.printed? = none := by
      unfold Message.printed?
      split
      · exact absurd rfl (hprinted _ _)
      · rfl
    have hempty : m.warning? (session.cwd.getD cwd) = none := by
      unfold Message.warning?
      split
      · exact absurd rfl (hwarning _ _)
      · rfl
    simp [Mark.effect, hnone, hempty]

/-- Of a message that is refused there is nothing to keep. -/
theorem Mark.effect_of_not_notable {m : Message} (hm : ¬ m.Notable) (directory : Path)
    (told : List String × List (Path × Warning)) :
    (Mark.notice directory m).effect told = told := by
  simp only [Message.Notable, Classical.not_forall] at hm
  obtain ⟨id, payload, warning, rfl, hwarning, hname⟩ := hm
  simp [Mark.effect, Message.printed?, Message.warning?, hwarning, Except.toOption, hname]

open Client Prog World

namespace World

variable {s : Nat} {w : World}

/-- The directory relative to which a session takes names. -/
def directory (w : World) (s : Nat) : Path := (w.session s).cwd.getD w.host.cwd

theorem run_takeNote (w : World) (s : Nat) (m : Message) :
    ∃ r w', (takeNote s m).run w = (.finished r, w') ∧
      (s < w.sessions.length → s < w'.sessions.length ∧
      (w'.session s).told = (Mark.notice (w.directory s) m).effect (w.session s).told) := by
  have hrun : (takeNote s m).run w =
    Prog.run (Prog.ofResult ((w.session s).notice w.host.cwd m) >>= fun noted => do
      Client.modifySession s fun _ => noted
      if (w.session s).observed then modify fun w => w.report (.observed m)) w := rfl
  rw [hrun]
  cases hnoted : (w.session s).notice w.host.cwd m with
  | error e =>
    have hm : ¬ m.Notable := fun hm => by
      obtain ⟨noted, hok, -⟩ := Session.notice_of_notable hm (w.session s) w.host.cwd
      rw [hnoted] at hok
      cases hok
    exact ⟨_, _, rfl, fun hs => ⟨hs, (Mark.effect_of_not_notable hm _ _).symm⟩⟩
  | ok noted =>
    have hkept : s < w.sessions.length → s < (w.modifySession s fun _ => noted).sessions.length ∧
        ((w.modifySession s fun _ => noted).session s).told = (Mark.notice (w.directory s) m).effect
          (w.session s).told :=
      fun hs =>
        ⟨by rwa [length_modifySession],
          by rw [session_modifySession_self hs]; exact Session.told_notice hnoted⟩
    cases hobserved : (w.session s).observed with
    | false => exact ⟨_, _, rfl, hkept⟩
    | true => exact ⟨_, _, rfl, hkept⟩

/-- A message that is taken in is kept as its mark says. -/
theorem run_takeIn (w : World) (s : Nat) (m : Message) :
    ∃ r w', (takeIn s m).run w = (.finished r, w') ∧
      (s < w.sessions.length → s < w'.sessions.length ∧
      (w'.session s).told = (Mark.notice (w.directory s) m).effect (w.session s).told) := by
  cases m with
  | reply id ok payload =>
    have hnothing : (Mark.notice (w.directory s) (.reply id ok payload)).effect (w.session s).told =
        (w.session s).told :=
      Prod.ext rfl (append_nil _)
    refine ⟨_, _, rfl, fun hs => ⟨Nat.lt_of_lt_of_eq hs (Eq.symm ?_), Eq.trans ?_ hnothing.symm⟩⟩
    · exact (deliverAll_feature (g := fun w => w.sessions.length) _
        (fun w f => length_modifySession w s _) (fun _ _ => rfl) (fun _ _ => rfl) _).trans
        (length_modifySession w s _)
    · exact (deliverAll_feature (g := fun w => (w.session s).told) _
        (fun w f => session_modifySession_feature Session.told rfl s) (fun _ _ => rfl)
        (fun _ _ => rfl) _).trans (session_modifySession_feature Session.told rfl s)
  | banner version => exact run_takeNote w s _
  | output id ok payload => exact run_takeNote w s _
  | notice kind id payload => exact run_takeNote w s _

end World

variable {s d : Nat} {w w' : World} {α ε : Type} {p : Action α}

/-- In a session the marks happen one after the other, and nothing else changes what it keeps of
messages. -/
inductive Passing (s : Nat) : World → List Mark → World → Prop where
  | rest {w w' : World} (htold : (w'.session s).told = (w.session s).told)
    (hlength : w.sessions.length ≤ w'.sessions.length) : Passing s w [] w'
  | notice {w w' : World} {m : Message} {r : Result Unit}
    (hrun : (takeIn s m).run w = (.finished r, w')) : Passing s w [.notice (w.directory s) m] w'
  | load (w : World) (p : Path) :
    Passing s w [.load p] (w.modifySession s fun session => session.resetWarnings (some p))
  | clear (w : World) :
    Passing s w [.clear] (w.modifySession s fun session => { session with output := [] })
  | trans {w₁ w₂ w₃ : World} {marks more : List Mark} (h : Passing s w₁ marks w₂)
    (h' : Passing s w₂ more w₃) : Passing s w₁ (marks ++ more) w₃

/-- What a session keeps of messages follows from the marks. -/
theorem Passing.told_eq {marks : List Mark} (h : Passing s w marks w')
    (hs : s < w.sessions.length) :
    s < w'.sessions.length ∧ (w'.session s).told = marks.foldl Mark.effect (w.session s).told := by
  induction h with
  | rest htold hlength => exact ⟨Nat.lt_of_lt_of_le hs hlength, htold⟩
  | @notice w _ m _ hrun =>
    obtain ⟨_, _, hrun', htold⟩ := run_takeIn w s m
    cases hrun.symm.trans hrun'
    exact htold hs
  | load w p => exact ⟨by rwa [length_modifySession], by rw [session_modifySession_self hs]; rfl⟩
  | clear w => exact ⟨by rwa [length_modifySession], by rw [session_modifySession_self hs]; rfl⟩
  | trans _ _ ih ih' =>
    obtain ⟨hs₂, htold⟩ := ih hs
    obtain ⟨hs₃, htold'⟩ := ih' hs₂
    exact ⟨hs₃, by rw [htold', htold, foldl_append]⟩

/-! ## Programs -/

/-- What programs keep to that leave alone what a session keeps of messages. -/
def reticent (s : Nat) : Discipline World Await Unit where
  Step w _ w' _ := (w'.session s).told = (w.session s).told ∧ w.sessions.length ≤ w'.sessions.length
  Pause _ _ _ := True
  Wake _ _ _ _ _ _ := True

theorem reticent_step {f : Session → Session} (hf : (f (w.session s)).told = (w.session s).told) :
    (reticent s).Step w () (w.modifySession s f) () :=
  ⟨session_modifySession_feature Session.told hf s, Nat.le_of_eq (length_modifySession w s f).symm⟩

theorem reticent_issue (command : Command) (addressee : Addressee) :
    (reticent s).Step w () (w.issue s command addressee).2 () :=
  ⟨session_issue_feature (g := Session.told) (fun _ _ => rfl) w s s command addressee,
    Nat.le_of_eq (undisturbed_issue w s command addressee).length_eq.symm⟩

/-- Starts and calls leave alone what is kept. -/
theorem reticent_of_dealing {P : Command → Prop} (h : Obeys (dealing s P) p) :
    Obeys (reticent s) p := by
  have hstep : ∀ w w', Deals s P w w' → (reticent s).Step w () w' () := by
    intro w w' hdeals
    cases hdeals with
    | gentle h =>
      cases h with
      | stirs h _ =>
        exact ⟨by rw [World.session, World.session, h.sessions_eq],
          Nat.le_of_eq (by rw [h.sessions_eq])⟩
      | transport _ => exact reticent_step rfl
    | spawn _ _ _ => exact ⟨rfl, Nat.le_refl _⟩
    | attach _ => exact reticent_step rfl
    | issue _ _ => exact reticent_issue _ _
    | take _ => exact reticent_step rfl
    | drop _ => exact reticent_step rfl
  exact h.refine hstep (fun _ _ _ => trivial) fun _ _ _ _ _ => trivial

theorem reticent_call (command : Command) (limit : Option Duration) :
    Obeys (reticent s) (call s command limit) :=
  reticent_of_dealing (dealing_call (P := fun _ => True) s trivial limit)

theorem reticent_allowsLoads (s : Nat) : AllowsLoads (reticent s) s where
  note hf := .modify fun _ => reticent_step (hf _).2.2
  announce w p f := by
    unfold loadFault
    split <;> exact ⟨rfl, Nat.le_refl _⟩
  start limit := reticent_of_dealing (dealing_start (P := fun _ => True) s limit)
  move _ limit := reticent_call _ limit
  load _ limit := reticent_call _ limit

/-- During a wait marks happen, and they are logged. -/
def Logs (log : ε → List Mark) (s : Nat) (env : Environment World Await ε) : Prop :=
  ∀ on deadline w e, ∃ new, log (env on deadline w e).2.2 = log e ++ new ∧
    Passing s w new (env on deadline w e).2.1

variable {env : Environment World Await ε} {log : ε → List Mark}

/-- Where a program leaves alone what is kept, the only marks are those of its waits. -/
theorem Logs.passing (henv : Logs log s env) (h : Obeys (reticent s) p) (w : World) (e : ε) :
    ∃ new, log (runIn env p w e).2.2 = log e ++ new ∧ Passing s w new (runIn env p w e).2.1 := by
  refine h.runIn_keeps (I := fun w' e' => ∃ new, log e' = log e ++ new ∧ Passing s w new w')
    (fun _ _ _ _ => trivial) ?_ ?_ ⟨[], (append_nil _).symm, .rest rfl (Nat.le_refl _)⟩
  · rintro w₁ e₁ w₂ ⟨new, hlog, hpassing⟩ ⟨htold, hlength⟩
    exact ⟨new ++ [], by rw [append_nil, hlog], hpassing.trans (.rest htold hlength)⟩
  · rintro on deadline w₁ e₁ ⟨new, hlog, hpassing⟩
    obtain ⟨more, hmore, hpassing'⟩ := henv on deadline w₁ e₁
    exact ⟨new ++ more, by rw [hmore, hlog, append_assoc], hpassing.trans hpassing'⟩

/-- What getting ready for a load comes to once the diagnostics of the file are forgotten. -/
def approach (s : Nat) (p : Path) : Action (Command × Nat) := do
  let _ ← switchDirectory s p.parent
  Client.modifySession s fun session => { session with loaded := none }
  return (⟨"load-file", [.str p.name]⟩, (← Client.session s).generation p)

/-- A load begins with its mark; the others are those of its waits. -/
theorem Logs.passing_beginLoad (henv : Logs log s env) {next : Command × Nat → Action α}
    (hnext : ∀ r, Obeys (reticent s) (next r)) (w : World) (e : ε) :
    ∃ new, log (runIn env (beginLoad s d >>= next) w e).2.2 = log e ++ new ∧
      Passing s w (.load ((w.session s).buffer d).path :: new)
        (runIn env (beginLoad s d >>= next) w e).2.1 := by
  have hload := reticent_allowsLoads s
  have happroach : ∀ p, Obeys (reticent s) (approach s p >>= next) := fun p =>
    .bind (.bind (hload.obeys_switchDirectory _)
        fun _ => .bind (hload.note fun _ => ⟨rfl, rfl, rfl⟩) fun _ =>
      .bind (obeys_session s) fun _ => .done _) hnext
  have hpath : ((w.modifySession s fun session => session.watch d).session s).buffer d =
      (w.session s).buffer d :=
    congrFun (session_modifySession_feature Session.buffer ((w.session s).buffer_watch d) s) d
  obtain ⟨new, hlog, hpassing⟩ := henv.passing (happroach ((w.session s).buffer d).path)
    ((w.modifySession s fun session => session.watch d).modifySession s fun session =>
      session.resetWarnings (some ((w.session s).buffer d).path)) e
  have hrun : runIn env (beginLoad s d >>= next) w e =
    runIn env (approach s ((w.session s).buffer d).path >>= next)
      ((w.modifySession s fun session => session.watch d).modifySession s fun session =>
        session.resetWarnings (some ((w.session s).buffer d).path)) e := by
    rw [← hpath]
    rfl
  obtain ⟨hstep, hlength⟩ :=
    reticent_step (w := w) (s := s) (f := fun session => session.watch d) rfl
  rw [hrun]
  exact ⟨new, hlog, ((Passing.rest hstep hlength).trans (.load _ _)).trans hpassing⟩

/-! ## Operations one at a time -/

/-- An operation that bears on diagnostics: a message is taken in, the compiler is moved to a
directory, or a document is loaded, in one of the three ways in which that is done. -/
inductive Doing where
  | hear (m : Message)
  | move (p : Path)
  | load (d : Nat)
  | ensureLoaded (d : Nat)
  | postLoad (d : Nat) (label : String)

namespace Doing

/-- What the operation comes to. -/
def run (env : Environment World Await ε) (s : Nat) (w : World) (e : ε) : Doing → World × ε
  | .hear m => (runIn env (takeIn s m) w e).2
  | .move p => (runIn env (switchDirectory s p) w e).2
  | .load d => (runIn env (Client.load s d) w e).2
  | .ensureLoaded d => (runIn env (Client.ensureLoaded s d) w e).2
  | .postLoad d label => (runIn env (Client.postLoad s d label) w e).2

/-- The mark with which the operation begins. A document that the compiler holds is not loaded
again, except where that is asked for. -/
def mark (s : Nat) (w : World) : Doing → List Mark
  | .hear m => [.notice (w.directory s) m]
  | .move _ => []
  | .load d => [.load ((w.session s).buffer d).path]
  | .ensureLoaded d => loadIfStale d
  | .postLoad d _ => loadIfStale d
where
  /-- The mark of a load that is made only if there is need. -/
  loadIfStale (d : Nat) : List Mark :=
    if (w.session s).isStale ((w.session s).buffer d).path then [.load
      ((w.session s).buffer d).path] else []

theorem passing_load (henv : Logs log s env) (w : World) (e : ε) :
    ∃ new, log (runIn env (Client.load s d) w e).2.2 = log e ++ new ∧
      Passing s w (.load ((w.session s).buffer d).path :: new)
        (runIn env (Client.load s d) w e).2.1 := by
  have hload := reticent_allowsLoads s
  refine henv.passing_beginLoad (fun r => ?_) w e
  refine .bind (obeys_session s) fun _ => .bind (.attempt (reticent_call _ _)) fun outcome => ?_
  cases outcome with
  | ok r =>
    refine .bind (hload.note fun session => ?_) fun _ => .done _
    exact ⟨session.buffer_recordLoad d _, dispatch_recordLoad session d _,
      session.told_recordLoad d _⟩
  | error f =>
    intro w
    exact .get (safe_pathOf ⟨(), hload.announce w _ f, trivial⟩)

theorem reticent_post (command : Command) (addressee : Addressee) :
    Obeys (reticent s) (post s command addressee) := by
  intro w
  refine safe_isRunning ?_
  split
  · exact ⟨(), reticent_issue command addressee, trivial⟩
  · refine safe_session (.modify_bind () ⟨?_, Nat.le_of_eq ?_⟩ trivial)
    · exact (deliver_feature (g := fun w => (w.session s).told) _
        (fun w f => session_modifySession_feature Session.told rfl s) (fun _ _ => rfl)
        (fun _ _ => rfl) _ _).trans (session_modifySession_feature Session.told rfl s)
    · exact ((deliver_feature (g := fun w => w.sessions.length) _
        (fun w f => length_modifySession w s _) (fun _ _ => rfl) (fun _ _ => rfl) _ _).trans
        (length_modifySession w s _)).symm

/-- A load that is made only if there is need makes its mark only then. -/
theorem passing_loadIfStale (henv : Logs log s env) {e : ε} {idle busy : Action α}
    (hidle : Obeys (reticent s) idle) (hbusy : ∃ new, log (runIn env busy w e).2.2 = log e ++ new ∧
      Passing s w (.load ((w.session s).buffer d).path :: new) (runIn env busy w e).2.1) : ∃ new,
      log (runIn env (if !(w.session s).isStale ((w.session s).buffer d).path then idle
          else busy) w e).2.2 = log e ++ new ∧ Passing s w (mark.loadIfStale s w d ++ new)
      (runIn env (if !(w.session s).isStale ((w.session s).buffer d).path then idle
        else busy) w e).2.1 := by
  rw [mark.loadIfStale]
  cases (w.session s).isStale ((w.session s).buffer d).path with
  | false => exact henv.passing hidle w e
  | true => exact hbusy

/-- An operation makes its own mark first; the others are those of its waits. -/
theorem passing (henv : Logs log s env) (x : Doing) (w : World) (e : ε) :
    ∃ new, log (x.run env s w e).2 = log e ++ new ∧
      Passing s w (x.mark s w ++ new) (x.run env s w e).1 := by
  cases x with
  | hear m =>
    obtain ⟨_, _, hrun, -⟩ := run_takeIn w s m
    rw [run, runIn_of_run_finished env hrun]
    exact ⟨[], (append_nil _).symm, .notice hrun⟩
  | move p => exact henv.passing ((reticent_allowsLoads s).obeys_switchDirectory p) w e
  | load d => exact passing_load henv w e
  | ensureLoaded d =>
    refine passing_loadIfStale henv (.done (.ok false)) ?_
    rw [runIn_bind_pure]
    exact passing_load henv w e
  | postLoad d label =>
    refine passing_loadIfStale henv
      (.bind (.modify fun _ => ⟨rfl, Nat.le_refl _⟩) fun _ => .done (.ok none)) ?_
    exact henv.passing_beginLoad (fun r => .bind (reticent_post _ _) fun _ => .done _) w e

/-- Operations one after the other: what they come to, and the marks that happen on the way. -/
def follow (env : Environment World Await ε) (log : ε → List Mark) (s : Nat) :
    List Doing → World → ε → World × List Mark
  | [], w, _ => (w, [])
  | x :: rest, w, e =>
    let (w', e') := x.run env s w e
    let (last, marks) := follow env log s rest w' e'
    (last, x.mark s w ++ (log e').drop (log e).length ++ marks)

theorem passing_follow (henv : Logs log s env) (doings : List Doing) (w : World) (e : ε) :
    Passing s w (follow env log s doings w e).2 (follow env log s doings w e).1 := by
  induction doings generalizing w e with
  | nil => exact .rest rfl (Nat.le_refl _)
  | cons x rest ih =>
    obtain ⟨new, hlog, hpassing⟩ := passing henv x w e
    have hnew : (log (x.run env s w e).2).drop (log e).length = new := by rw [hlog, drop_left]
    rw [← hnew] at hpassing
    exact hpassing.trans (ih _ _)

end Doing

/-! ## Diagnostics -/

/-- Whether the mark is that a load of a file begins. -/
def Mark.loads (p : Path) : Mark → Bool
  | .load q => q = p
  | _ => false

/-- The diagnostic of a file that the mark says arrived. -/
def Mark.warning? (p : Path) : Mark → Option Warning
  | .notice directory m => (m.warning? directory).bind fun w => if w.1 = p then some w.2 else none
  | _ => none

/-- The marks since the last one of a kind. -/
def since (ends : Mark → Bool) (marks : List Mark) : List Mark :=
  (marks.reverse.takeWhile fun x => !ends x).reverse

theorem since_append (ends : Mark → Bool) (marks : List Mark) (x : Mark) :
    since ends (marks ++ [x]) = if ends x then [] else since ends marks ++ [x] := by
  rw [since, since, reverse_append]
  cases hends : ends x <;> simp [hends]

/-- To forget the diagnostics of a file leaves those of another. -/
theorem filter_other {p q : Path} (h : q ≠ p) (warnings : List (Path × Warning)) :
    ((warnings.filter fun w => w.1 ≠ q).filter fun w => w.1 = p) =
      warnings.filter fun w => w.1 = p := by
  rw [filter_filter]
  refine filter_congr fun w _ => ?_
  by_cases hw : w.1 = p <;> simp [hw, h.symm]

/-- The diagnostics of a file that are kept are those that arrived since its last load began. -/
theorem filter_foldl_effect (p : Path) (output : List String) (marks : List Mark) :
    ((marks.foldl Mark.effect (output, [])).2.filter fun w => w.1 = p).map Prod.snd =
      (since (Mark.loads p) marks).filterMap (Mark.warning? p) := by
  induction marks using List.reverseRecOn with
  | nil => rfl
  | append_singleton marks x ih =>
    rw [foldl_concat, since_append]
    generalize marks.foldl Mark.effect (output, []) = told at ih
    cases x with
    | notice directory m =>
      have hnew : ((m.warning? directory).toList.filter fun w => w.1 = p).map Prod.snd =
          [Mark.notice directory m].filterMap (Mark.warning? p) := by
        cases hw : m.warning? directory with
        | none => simp [Mark.warning?, hw]
        | some w => by_cases hp : w.1 = p <;> simp [Mark.warning?, hw, hp]
      rw [Mark.effect, filter_append, map_append, ih, hnew, ← filterMap_append]
      rfl
    | load q =>
      by_cases hq : q = p
      · simp [hq, Mark.effect, Mark.loads]
      · rw [Mark.effect, filter_other hq, ih, Mark.loads, if_neg (by simpa using hq),
          filterMap_append]
        exact (append_nil _).symm
    | clear =>
      rw [Mark.effect, ih, show Mark.loads p .clear = false from rfl, if_neg Bool.false_ne_true,
        filterMap_append]
      exact (append_nil _).symm

theorem Doing.warningsFor_follow (henv : Logs log s env) (hs : s < w.sessions.length)
    (hfresh : (w.session s).warnings = []) (doings : List Doing) (e : ε) (p : Path) :
    ((follow env log s doings w e).1.session s).warningsFor (some p) =
      (since (Mark.loads p) (follow env log s doings w e).2).filterMap (Mark.warning? p) := by
  have htold := ((passing_follow henv doings w e).told_eq hs).2
  have hempty : (w.session s).told = ((w.session s).output, []) := Prod.ext rfl hfresh
  show (((follow env log s doings w e).1.session s).told.2.filter fun w => w.1 = p).map Prod.snd = _
  rw [htold, hempty, filter_foldl_effect]

/-- The diagnostics of a file are those that arrived since its last load began, in the order of
their arrival. A load of another file that begins takes none of them away, and a notice that
describes no diagnostic changes none. -/
theorem diagnostics_since_latest_load (henv : Logs log s env) (hs : s < w.sessions.length)
    (hfresh : (w.session s).warnings = []) (doings : List Doing) (e : ε) (p : Path) :
    let last := Doing.follow env log s doings w e
    (last.1.session s).warningsFor (some p) = (since (Mark.loads p) last.2).filterMap
      (Mark.warning? p) ∧ (∀ q, q ≠ p →
        ((last.1.session s).resetWarnings (some q)).warningsFor (some p) =
          (last.1.session s).warningsFor (some p)) ∧
      ∀ id payload x, Warning.ofValue payload = .error x →
        ((runIn env (takeIn s (.notice "warning" id payload)) last.1 e).2.1.session s).warnings =
          (last.1.session s).warnings := by
  intro last
  refine ⟨Doing.warningsFor_follow henv hs hfresh doings e p,
    fun q hq => congrArg (List.map Prod.snd) (filter_other hq _), fun id payload x hpayload => ?_⟩
  obtain ⟨_, _, hrun, hkept⟩ := run_takeIn last.1 s (.notice "warning" id payload)
  have hnothing : (Message.notice "warning" id payload).warning? (last.1.directory s) = none := by
    rw [Message.warning?, hpayload]
    rfl
  have hwarnings :=
    congrArg Prod.snd (hkept ((Doing.passing_follow henv doings w e).told_eq hs).1).2
  rw [Mark.effect, hnothing] at hwarnings
  rw [runIn_of_run_finished env hrun]
  exact hwarnings.trans (append_nil _)

/-- A session that has a file `A` open, and whose compiler runs in the directory of that file. -/
def attentiveWorld : World where
  host := { cwd := ⟨[]⟩, children := [{ pid := 1, behaviour := {} }] }
  sessions := [{
    transport := { child := some 0 }
    cwd := some ⟨[]⟩
    documents := [{ name := "A", buffer := { path := ⟨["A"]⟩, text := [] } }] }]

/-- A diagnostic about a file, as the compiler reports it. -/
def warningAbout (file message : String) : Message :=
  .notice "warning" none (.list [.str file, .list [.int 0, .int 0], .list [.int 0, .int 1],
    .str message])

/-- During every wait the file `B` is complained about. -/
def complaining : Environment World Await (List Mark) := fun _ _ w marks =>
  (.expired, ((takeIn 0 (warningAbout "B" "late")).run w).2,
    marks ++ [.notice (w.directory 0) (warningAbout "B" "late")])

theorem logs_complaining : Logs id 0 complaining := by
  intro on deadline w marks
  obtain ⟨r, w', hrun, -⟩ := run_takeIn w 0 (warningAbout "B" "late")
  exact ⟨_, rfl, .notice (r := r) (by rw [complaining, hrun])⟩

/-- The load forgets what was reported about its file before, and not what is reported about another
meanwhile. -/
theorem diagnostics_since_latest_load_complaining :
    let last :=
      Doing.follow complaining id 0
        [.hear (warningAbout "A" "old"), .hear (warningAbout "B" "early"),
      .hear (.notice "warning" none (.str "A")), .load 0, .hear (warningAbout "A" "new")]
      attentiveWorld []
    ((last.1.session 0).warningsFor (some ⟨["A"]⟩)).map (fun w => w.message.text) = ["new"] ∧
      ((last.1.session 0).warningsFor (some ⟨["B"]⟩)).map (fun w => w.message.text) =
        ["early", "late"] := by
  intro last
  have h := diagnostics_since_latest_load logs_complaining (w := attentiveWorld) (by decide) rfl
    [.hear (warningAbout "A" "old"), .hear (warningAbout "B" "early"),
      .hear (.notice "warning" none (.str "A")), .load 0, .hear (warningAbout "A" "new")] []
  rw [(h ⟨["A"]⟩).1, (h ⟨["B"]⟩).1]
  decide +kernel

end IdeMode
