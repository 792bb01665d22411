import IdeMode.Proofs.Editing.Handling
set_option autoImplicit false

/-!
# Plain work with a session

Most of what is asked of a session is put together from a few things, and a fault of one of them
ends it: it takes notes in the session, writes a file, starts the compiler if it does not run, calls
it and loads. What these keep, all of it keeps.
-/

namespace IdeMode

/-- What a session works with: its process, its calls and their time limits. -/
def Session.engine (session : Session) : Session where
  transport := session.transport
  dispatch := session.dispatch
  loadLimit := session.loadLimit
  callLimit := session.callLimit

theorem Session.engine_noteChange (session : Session) (p : Path) :
    (session.noteChange p).engine = session.engine := by
  unfold Session.noteChange
  split <;> rfl

theorem Session.engine_adopt (session : Session) (d : Nat) (b : Buffer) :
    (session.adopt d b).engine = session.engine := by
  unfold Session.adopt
  split
  · split
    · exact Session.engine_noteChange _ _
    · rfl
  · rfl

theorem Session.engine_recordLoad (session : Session) (d generation : Nat) :
    (session.recordLoad d generation).engine = session.engine := by
  unfold Session.recordLoad
  split <;> rfl

theorem Session.engine_resetWarnings (session : Session) (p : Option Path) :
    (session.resetWarnings p).engine = session.engine := by
  cases p with
  | none => rfl
  | some p => rfl

/-- The request is put together from the few things, with no time limit of its own. -/
def SessionRequest.isPlain : SessionRequest → Bool
  | .close | .call .. | .rawCall .. | .post .. | .discard | .evaluate .. | .document .. => false
  | _ => true

/-- The request is put together from the few things. -/
def DocumentRequest.isPlain : DocumentRequest → Bool
  | .postLoad _ => false
  | _ => true

namespace Client

open Prog

/-- What is done with a session where a fault is the end of it. -/
inductive Plain (s : Nat) : {α : Type} → Action α → Prop where
  | done {α : Type} (r : Result α) : Plain s (.done r)
  | bind {α β : Type} {p : Action α} {f : α → Action β} (hp : Plain s p) (hf : ∀ a, Plain s (f a)) :
    Plain s (p >>= f)
  | get : Plain s (get : Action World)
  /-- takes a note -/
  | note {f : Session → Session} (hf : ∀ session, (f session).engine = session.engine) :
    Plain s (modifySession s f)
  /-- takes a note of what was just read -/
  | revise {α : Type} {f : Session → Session} {next : Session → Action α}
    (hf : ∀ session, (f session).engine = session.engine)
    (hnext : ∀ session, Plain s (next session)) : Plain s (session s >>= fun session =>
      modifySession s (fun _ => f session) >>= fun _ => next session)
  | write (disk : Disk) :
    Plain s (modify fun w => { w with host := { w.host with disk := disk } } : Action Unit)
  | start : Plain s (ensureRunning s)
  | call (command : Command) {limit : Option Duration}
    (hlimit : ∀ t, limit = some t → 0 < t.nanos) : Plain s (sessionCall s command limit)
  /-- loads, once that has begun -/
  | loading {d : Nat} (hbegin : Plain s (beginLoad s d)) : Plain s (load s d)

namespace Plain

variable {α β : Type} {s : Nat}

theorem map {p : Action α} (f : α → β) (hp : Plain s p) : Plain s (f <$> p) :=
  .bind hp fun a => .done (.ok (f a))

protected theorem session : Plain s (session s) := .bind .get fun _ => .done _

theorem isRunning : Plain s (isRunning s) := .bind .get fun _ => .done _

theorem pathOf (d : Nat) : Plain s (pathOf s d) := .bind .session fun _ => .done _

/-- A call with the session's own time limit. -/
theorem sessionCall (command : Command) : Plain s (sessionCall s command none) :=
  .call command (by rintro _ ⟨⟩)

/-! ## Loading -/

theorem switchDirectory (p : Path) : Plain s (switchDirectory s p) := by
  refine .bind .session fun session => .bind .isRunning fun running => ?_
  split
  · exact .done _
  · refine .bind .start fun _ => .bind .session fun session => ?_
    split
    · exact .done _
    · exact .bind (.sessionCall _) fun _ => .bind (.note fun _ => rfl) fun _ => .done _

theorem beginLoad (d : Nat) : Plain s (beginLoad s d) := by
  refine .bind (.note fun _ => rfl) fun _ => .bind (.pathOf d) fun p => ?_
  refine .bind (.note fun session => session.engine_resetWarnings _)
    fun _ => .bind (.switchDirectory _) fun _ => ?_
  exact .bind (.note fun _ => rfl) fun _ => .bind .session fun session => .done _

theorem load (d : Nat) : Plain s (load s d) := .loading (.beginLoad d)

theorem ensureLoaded (d : Nat) : Plain s (ensureLoaded s d) := by
  refine .bind .session fun session => .bind (.pathOf d) fun p => ?_
  split
  · exact .done _
  · exact .bind (.load d) fun _ => .done _

/-! ## Documents -/

theorem openDocument (name : String) : Plain s (openDocument s name) := by
  refine .bind .session fun session => ?_
  split
  · exact .done _
  · refine .bind .get fun w => ?_
    split
    · refine .bind (.done _) fun b => ?_
      exact @Plain.revise s _ (fun session => (session.addDocument name b).2)
        (fun session => .done (.ok (session.addDocument name b).1)) (fun _ => rfl) fun _ => .done _
    · exact .done (.error .badValue)

theorem adopt (d : Nat) (b : Buffer) : Plain s (modifySession s fun session => session.adopt d b) :=
  .note fun session => session.engine_adopt d b

theorem reread (d : Nat) : Plain s (reread s d) := by
  refine .bind .session fun session => .bind .get fun w => .bind (.done _) fun read => ?_
  exact .bind (.adopt d _) fun _ => .done _

theorem commit (d : Nat) (b : Buffer) (disk : Disk) : Plain s (commit s d b disk) :=
  .bind (.write disk) fun _ => .adopt d b

theorem replace (d : Nat) (start finish : Int) (text : List Char) :
    Plain s (replace s d start finish text) := by
  exact .bind .session fun session =>
    .bind .get fun w => .bind (.done _) fun edited => .commit d _ _

theorem applyEdit (d : Nat) (e : Editor) (start finish : Int) (text : String) :
    Plain s (applyEdit s d e start finish text) := by
  refine .bind .session fun session => .bind .get fun w => .bind (.done _) fun edited => ?_
  exact .bind (.commit d _ _) fun _ => .done _

/-- Commands at a document. -/
theorem of_handles {d : Nat} {b b' : Bool} {p : Action α} (h : Handles s d b b' p) : Plain s p := by
  induction h with
  | done r => exact .done r
  | fault f => exact .done (.error f)
  | bind hp hf ihp ihf => exact .bind ihp ihf
  | relax hp ih => exact ih
  | look => exact .get
  | ask htag => exact .sessionCall _
  | suggest htag => exact .sessionCall _
  | ensureLoaded => exact .ensureLoaded d
  | load => exact .load d
  | edit e start finish text => exact .applyEdit d e start finish text

/-! ## Requests -/

theorem resolve (name : String) : Plain s (resolve name) := by
  unfold Client.resolve
  split
  · exact .bind .get fun _ => .done _
  · exact .done (.error .badValue)

theorem resolveAll (name : Option String) : Plain s (name.mapM Client.resolve) := by
  cases name with
  | none => exact .done _
  | some name => exact .bind (.resolve name) fun _ => .done _

theorem addWarning (base : Path) (warning : Warning) : Plain s (do
    let added ← ofResult ((← Client.session s).addWarning base warning)
    modifySession s fun _ => added
    return .nothing : Action Answer) := by
  unfold Session.addWarning
  split
  · exact @Plain.revise s _ (fun session =>
        { session with warnings := session.warnings ++ [(base.resolve warning.file, warning)] })
      (fun _ => .done (.ok Answer.nothing)) (fun _ => rfl) fun _ => .done _
  · exact .bind .session fun _ => .done (.error .badValue)

theorem documentRequest (d : Nat) {request : DocumentRequest} (h : request.isPlain = true) :
    Plain s (request.action s d) := by
  have hwatch : Plain s (modifySession s fun session => session.watch d) := .note fun _ => rfl
  cases request with
  | ensureLoaded => exact .map _ (.ensureLoaded d)
  | load => exact .map _ (.load d)
  | postLoad label => exact Bool.noConfusion h
  | watch => exact .bind hwatch fun _ => .done _
  | noteChange =>
    exact .bind (.pathOf d) fun p =>
      .bind (.note fun session => session.engine_noteChange p) fun _ => .done _
  | noteLoaded => exact .bind (.note fun _ => rfl) fun _ => .done _
  | query => exact .bind (.pathOf d) fun p => .bind .session fun session => .done _
  | replace start finish text => exact .bind (.replace d start finish _) fun _ => .done _
  | reread => exact .map _ (.reread d)
  | typeOf line column name =>
    exact .bind hwatch fun _ => .map _ (.of_handles (.typeOf line column name))
  | edit command line column snippets =>
    exact .bind hwatch fun _ => .map _ (.of_handles (.perform _ line column command))
  | complete line column => exact .bind hwatch fun _ => .map _ (.of_handles (.complete line column))

theorem sessionRequest {request : SessionRequest} (h : request.isPlain = true) :
    Plain s (request.action s) := by
  cases request with
  | ensure =>
    refine .bind .start fun message => ?_
    cases message with
    | some message => exact .done _
    | none => exact .done _
  | switch directory => exact .bind (.resolve directory) fun p => .map _ (.switchDirectory p)
  | output => exact .bind .session fun _ => .done _
  | listen => exact .bind (.note fun _ => rfl) fun _ => .done _
  | warnings file => exact .bind (.resolveAll file) fun _ => .bind .session fun _ => .done _
  | resetWarnings file =>
    exact .bind (.resolveAll file)
      fun p => .bind (.note fun session => session.engine_resetWarnings p) fun _ => .done _
  | addWarning value directory =>
    unfold SessionRequest.action
    dsimp only
    split
    · exact .done (.error _)
    · next warning _ => exact .bind (.resolve _) fun base => .addWarning base warning
  | stats => exact .bind .session fun _ => .done _
  | _ => exact Bool.noConfusion h

end Plain

end Client

end IdeMode
