import IdeMode.Proofs.Calls.Account
import IdeMode.Proofs.Client.Undisturbed
import IdeMode.Proofs.Prog.Stores
set_option autoImplicit false

/-!
# How an editing command touches a document

A command spares every document and every file up to the point at which it edits one document, and
again after that. The edit itself takes two steps: the file is written, and then the session takes
over the new buffer. There is no wait between the two, so that no other program sees the one without
the other.
-/

namespace IdeMode

open List

/-! ## Sparing documents -/

namespace World

/-- No file and no text of a document changed. What sessions know of their documents may have. -/
structure Spares (w w' : World) : Prop where
  buffer_eq : ∀ s d, (w'.session s).buffer d = (w.session s).buffer d
  disk_eq : w'.host.disk = w.host.disk

variable {w w' : World}

theorem Undisturbed.spares (h : Undisturbed w w') : Spares w w' := by
  refine ⟨fun s d => ?_, h.disk_eq⟩
  have hdocuments := congrArg Session.documents (h.papers_eq s)
  unfold Session.buffer Session.document?
  rw [show (w'.session s).documents = (w.session s).documents from hdocuments]

theorem spares_modifySession {s : Nat} {f : Session → Session}
    (hf : (f (w.session s)).buffer = (w.session s).buffer) : Spares w (w.modifySession s f) :=
  ⟨fun t => congrFun (session_modifySession_feature Session.buffer hf t), rfl⟩

end World

/-- What a session keeps of the messages of its compiler: what was printed, and the diagnostics. -/
def Session.told (session : Session) : List String × List (Path × Warning) :=
  (session.output, session.warnings)

theorem Session.buffer_watch (session : Session) (d : Nat) :
    (session.watch d).buffer = session.buffer := by
  funext k
  unfold buffer document? watch
  by_cases hk : d = k
  · simp [hk, Function.comp_def]
  · simp [hk]

theorem Session.buffer_recordLoad (session : Session) (d generation : Nat) :
    (session.recordLoad d generation).buffer = session.buffer := by
  unfold recordLoad
  split <;> rfl

theorem Session.told_recordLoad (session : Session) (d generation : Nat) :
    (session.recordLoad d generation).told = session.told := by
  unfold recordLoad
  split <;> rfl

namespace Client

open Prog World

/-- What programs keep to that spare documents. -/
def sparing : Discipline World Await Unit where
  Step w _ w' _ := Spares w w'
  Pause _ _ _ := True
  Wake _ _ _ _ _ _ := True

variable {α : Type}

theorem sparing_of_undisturbing {p : Action α} (h : Obeys undisturbing p) : Obeys sparing p :=
  h.refine (fun _ _ hw => hw.spares) (fun _ _ _ => trivial) fun _ _ _ _ _ => trivial

theorem sparing_modifySession {s : Nat} {f : Session → Session}
    (hf : ∀ session, (f session).buffer = session.buffer) :
    Obeys sparing (modifySession s f) := .modify fun _ => spares_modifySession (hf _)

theorem sparing_sessionCall (s : Nat) (command : Command) (limit : Option Duration) :
    Obeys sparing (sessionCall s command limit) :=
  .bind (obeys_session s) fun _ => sparing_of_undisturbing (undisturbing_call s command _)

/-! ### Loads -/

/-- What a discipline has to allow so that a session may load documents under it. -/
structure AllowsLoads (D : Discipline World Await Unit) (s : Nat) : Prop where
  note : ∀ {f : Session → Session},
    (∀ session, (f session).buffer = session.buffer ∧ (f session).dispatch = session.dispatch ∧
      (f session).told = session.told) → Obeys D (modifySession s f)
  announce : ∀ w p f, D.Step w () (w.loadFault s p f).2 ()
  start : ∀ limit, Obeys D (start s limit)
  move : ∀ place limit, Obeys D (call s ⟨"interpret", [.str place]⟩ limit)
  load : ∀ name limit, Obeys D (call s ⟨"load-file", [.str name]⟩ limit)

namespace AllowsLoads

variable {D : Discipline World Await Unit} {s : Nat}

theorem obeys_ensureRunning (h : AllowsLoads D s) : Obeys D (ensureRunning s) := by
  refine .bind (.bind .get fun _ => .done _) fun running => ?_
  split
  · exact .done _
  · exact .bind (h.note fun _ => ⟨rfl, rfl, rfl⟩) fun _ => .bind (h.start _) fun _ => .done _

theorem obeys_switchDirectory (h : AllowsLoads D s) (p : Path) : Obeys D (switchDirectory s p) := by
  refine .bind (obeys_session s) fun _ => ?_
  refine .bind (.bind .get fun _ => .done _) fun running => ?_
  split
  · exact .done _
  · refine .bind h.obeys_ensureRunning fun _ => .bind (obeys_session s) fun _ => ?_
    split
    · exact .done _
    · refine .bind (.bind (obeys_session s) fun _ => h.move _ _) fun _ => ?_
      exact .bind (h.note fun _ => ⟨rfl, rfl, rfl⟩) fun _ => .done _

variable (hreset : ∀ p, Obeys D (modifySession s fun session => session.resetWarnings (some p)))

include hreset in
theorem obeys_load (h : AllowsLoads D s) (d : Nat) : Obeys D (Client.load s d) := by
  have hpath : Obeys D (pathOf s d) := .bind (obeys_session s) fun _ => .done _
  -- The command is made on the way, so the preparations are followed in place.
  simp only [Client.load, beginLoad, bind_assoc, pure_bind]
  refine .bind (h.note fun session => ⟨session.buffer_watch d, rfl, rfl⟩)
    fun _ => .bind hpath fun p => ?_
  refine .bind (hreset p) fun _ => .bind (h.obeys_switchDirectory _) fun _ => ?_
  refine .bind (h.note fun _ => ⟨rfl, rfl, rfl⟩) fun _ => .bind (obeys_session s) fun _ => ?_
  refine .bind (obeys_session s) fun _ => .bind (.attempt (h.load _ _)) fun outcome => ?_
  cases outcome with
  | ok r =>
    refine .bind (h.note fun session => ?_) fun _ => .done _
    exact ⟨session.buffer_recordLoad d _, dispatch_recordLoad session d _,
      session.told_recordLoad d _⟩
  | error f =>
    intro w
    exact .get (safe_pathOf ⟨(), h.announce w _ f, trivial⟩)

include hreset in
theorem obeys_ensureLoaded (h : AllowsLoads D s) (d : Nat) : Obeys D (ensureLoaded s d) := by
  refine .bind (obeys_session s)
    fun _ => .bind (.bind (obeys_session s) fun _ => .done _) fun p => ?_
  split
  · exact .done _
  · exact .bind (h.obeys_load hreset d) fun _ => .done _

end AllowsLoads

theorem sparing_allowsLoads (s : Nat) : AllowsLoads sparing s where
  note hf := sparing_modifySession fun session => (hf session).1
  announce w p f := (undisturbed_loadFault w s p f).spares
  start limit :=
    sparing_of_undisturbing (undisturbing_of_dealing (dealing_start (P := fun _ => True) s limit))
  move _ limit := sparing_of_undisturbing (undisturbing_call s _ limit)
  load _ limit := sparing_of_undisturbing (undisturbing_call s _ limit)

theorem sparing_load (s d : Nat) : Obeys sparing (load s d) :=
  (sparing_allowsLoads s).obeys_load (fun _ => sparing_modifySession fun _ => rfl) d

theorem sparing_ensureLoaded (s d : Nat) : Obeys sparing (ensureLoaded s d) :=
  (sparing_allowsLoads s).obeys_ensureLoaded (fun _ => sparing_modifySession fun _ => rfl) d

/-! ### Rounds of a refinement -/

namespace Refinement

variable (r : Refinement)

/-- The command that asks for the first names. -/
def question (stem : String) : Command :=
  match r.variant with
  | .plain => ⟨"compatible-identifiers", [.int r.line, .str r.hole]⟩
  | .stem => ⟨"complete-compatible-identifiers", [.int r.line, .str r.hole, .str stem]⟩
  | .recursive => ⟨"compatible-identifiers-recursive", [.int r.line, .str r.hole]⟩

/-- The command that tells a choice. -/
def choice (name : String) : Command :=
  ⟨if r.variant = .recursive then "choose-identifier" else "make-refined-expression",
    [.int r.line, .str r.hole, .str name]⟩

/-- What the reply to the question offers. -/
def opening (reply : Response) : Result Editing.Offer :=
  match r.variant, Editing.offeredNames reply.value with
  | .recursive, _ => Editing.Offer.ofValue reply.value
  | _, [] => .error (.callFailed ("No compatible identifiers for ?" ++ r.hole))
  | _, names => .ok (.choices names)

/-- What the reply to a choice offers. -/
def continuation (reply : Response) : Result Editing.Offer :=
  match r.variant with
  | .recursive => Editing.Offer.ofValue reply.value
  | _ => .ok (.final (Editing.withoutTerminator reply.text))

theorem ask_eq (stem : String) : r.ask stem = (do
    let reply ← sessionCall r.session (r.question stem) none
    Prog.ofResult (r.opening reply)) := by
  unfold ask question opening
  cases r.variant with
  | recursive => rfl
  | plain =>
    refine congrArg (sessionCall _ _ _ >>= ·) (funext fun reply => ?_)
    unfold ask.names
    cases Editing.offeredNames reply.value <;> rfl
  | stem =>
    refine congrArg (sessionCall _ _ _ >>= ·) (funext fun reply => ?_)
    unfold ask.names
    cases Editing.offeredNames reply.value <;> rfl

theorem choose_eq (name : String) : r.choose name = (do
    let reply ← sessionCall r.session (r.choice name) none
    Prog.ofResult (r.continuation reply)) := by
  unfold choose choice continuation
  cases r.variant <;> rfl

end Refinement

theorem sparing_ask (r : Refinement) (stem : String) : Obeys sparing (r.ask stem) := by
  rw [r.ask_eq]
  exact .bind (sparing_sessionCall _ _ _) fun _ => .done _

theorem sparing_choose (r : Refinement) (name : String) : Obeys sparing (r.choose name) := by
  rw [r.choose_eq]
  exact .bind (sparing_sessionCall _ _ _) fun _ => .done _

theorem sparing_pursue (r : Refinement) (choices : List String) (offered : List (List String))
    (offer : Editing.Offer) : Obeys sparing (r.pursue choices offered offer) := by
  induction choices generalizing offered offer with
  | nil =>
    cases offer <;> exact .done _
  | cons choice rest ih =>
    unfold Refinement.pursue
    cases offer with
    | final expression => exact .done _
    | choices candidates =>
      dsimp only
      split
      · exact .bind (sparing_choose r choice) fun offer => ih _ offer
      · exact .done _

theorem sparing_converse (r : Refinement) (stem : String) (choices : List String) :
    Obeys sparing (r.converse stem choices) := by
  refine .bind (sparing_ensureLoaded _ _) fun _ => .bind (sparing_ask r stem) fun offer => ?_
  exact sparing_pursue r choices [] offer

end Client

/-! ## Editing one document -/

/-- A range of a document replaced: the world that was found, what was asked for, and what came of
it. -/
structure Replacement where
  world : World
  start : Int
  finish : Int
  text : List Char
  buffer : Buffer
  disk : Disk

namespace Replacement

variable (x : Replacement) (s d : Nat)

/-- The buffer as it was found. -/
def old : Buffer := (x.world.session s).buffer d

/-- The buffer and the file are what the replacement makes of them. -/
def Works : Prop :=
  (x.old s d).replace x.world.host.disk x.start x.finish x.text = .ok (x.buffer, x.disk)

/-- The world with the file written. -/
def written : World := { x.world with host := { x.world.host with disk := x.disk } }

/-- The world after the session took over the buffer. -/
def adopted : World := x.written.modifySession s fun session => session.adopt d x.buffer

/-- The two steps of the replacement. -/
def steps : List (World × World) := [(x.world, x.written), (x.written, x.adopted s d)]

end Replacement

namespace Client

open Prog World

/-- How far a command has come. -/
inductive Progress where
  /-- it has edited nothing -/
  | untouched
  /-- it has written the file -/
  | written (x : Replacement)
  /-- its edit is made -/
  | edited (x : Replacement)

/-- The command is not in the middle of its edit. -/
def Progress.Settled : Progress → Prop
  | .written _ => False
  | _ => True

/-- A step of a command that edits a document at most once. -/
inductive Touches (s d : Nat) : World → Progress → World → Progress → Prop where
  | spares {w w' : World} {g : Progress} (h : Spares w w') (hg : g.Settled) : Touches s d w g w' g
  | write {x : Replacement} (h : x.Works s d) :
    Touches s d x.world .untouched x.written (.written x)
  | adopt {x : Replacement} : Touches s d x.written (.written x) (x.adopted s d) (.edited x)

/-- What commands keep to that edit a document at most once. Anything may happen while they wait. -/
def editing (s d : Nat) : Discipline World Await Progress where
  Step := Touches s d
  Pause _ _ g := g.Settled
  Wake _ _ _ g _ g' := g' = g

variable {s d : Nat} {α : Type}

variable {g : Progress} {steps : List (World × World)}

/-- A program that spares documents does not get a command any further. -/
theorem safe_spared {p : Action α} (h : Obeys sparing p) (hg : g.Settled) (w : World) :
    Safe (editing s d) p (fun _ _ g' => g' = g) w g := by
  refine (Safe.refine (R := fun _ _ g' => g' = g) ?_ ?_ ?_ (h w) rfl).mono
    fun _ _ _ h => h.elim fun _ h => h.2
  · rintro w _ _ w' _ rfl hw
    exact ⟨_, .spares hw hg, rfl⟩
  · rintro on w _ _ rfl _
    exact hg
  · rintro on signal w _ _ w' _ rfl rfl
    exact ⟨(), trivial, rfl⟩

/-- A command that spares documents first and then goes on, or ends in a fault. -/
theorem safe_spared_bind {β : Type} {p : Action α} {f : α → Action β}
    {Q : Result β → World → Progress → Prop} (h : Obeys sparing p) (hg : g.Settled) {w : World}
    (hok : ∀ a w, Safe (editing s d) (f a) Q w g) (herror : ∀ e w, Q (.error e) w g) :
    Safe (editing s d) (p >>= f) Q w g := by
  refine Safe.bind ((safe_spared h hg w).mono ?_)
  rintro r w' _ rfl
  cases r with
  | ok a => exact hok a w'
  | error e => exact herror e w'

/-! ## What was done in a run -/

/-- Steps that all spare documents. -/
def Untouched (steps : List (World × World)) : Prop := ∀ step ∈ steps, Spares step.1 step.2

theorem Untouched.append {later : List (World × World)} (h : Untouched steps)
    (hlater : Untouched later) : Untouched (steps ++ later) := by
  intro step hstep
  exact (mem_append.1 hstep).elim (h step) (hlater step)

/-- The steps of one replacement, and besides them only steps that spare documents. -/
def EditsOnce (s d : Nat) (x : Replacement) (steps : List (World × World)) : Prop :=
  x.Works s d ∧ ∃ before after, steps = before ++ x.steps s d ++ after ∧ Untouched before ∧
    Untouched after

theorem leads_edited {x : Replacement} {g' : Progress} (h : Leads (editing s d) g steps g')
    (hg : g = .edited x) : g' = .edited x ∧ Untouched steps := by
  induction h with
  | nil _ => exact ⟨hg, nofun⟩
  | cons hstep _ ih =>
    subst hg
    cases hstep with
    | spares hspares _ =>
      obtain ⟨hend, hrest⟩ := ih rfl
      exact ⟨hend, forall_mem_cons.2 ⟨hspares, hrest⟩⟩

theorem leads_written {x : Replacement} (h : Leads (editing s d) (.written x) steps g)
    (hg : g.Settled) :
    g = .edited x ∧ ∃ after, steps = (x.written, x.adopted s d) :: after ∧ Untouched after := by
  cases h with
  | nil _ => exact hg.elim
  | cons hstep hrest =>
    cases hstep with
    | spares _ hsettled => exact hsettled.elim
    | adopt =>
      obtain ⟨hend, hafter⟩ := leads_edited hrest rfl
      exact ⟨hend, _, rfl, hafter⟩

/-- A command that came to a settled end touched nothing, or made one edit. -/
theorem leads_untouched {g' : Progress} (h : Leads (editing s d) g steps g') (hg : g = .untouched)
    (hsettled : g'.Settled) :
    (g' = .untouched ∧ Untouched steps) ∨ ∃ x, g' = .edited x ∧ EditsOnce s d x steps := by
  induction h with
  | nil _ => exact .inl ⟨hg, nofun⟩
  | @cons w w' _ _ _ _ hstep hrest ih =>
    subst hg
    cases hstep with
    | spares hspares _ =>
      rcases ih rfl hsettled with ⟨hend, huntouched⟩ | ⟨x, hend, hworks, before, after, hsteps,
        hbefore, hafter⟩
      · exact .inl ⟨hend, forall_mem_cons.2 ⟨hspares, huntouched⟩⟩
      · refine .inr ⟨x, hend, hworks, (w, w') :: before, after, ?_,
          forall_mem_cons.2 ⟨hspares, hbefore⟩, hafter⟩
        rw [hsteps]
        rfl
    | write hworks =>
      obtain ⟨hend, after, hsteps, hafter⟩ := leads_written hrest hsettled
      refine .inr ⟨_, hend, hworks, [], after, ?_, nofun, hafter⟩
      rw [hsteps]
      rfl

end Client

end IdeMode
