import IdeMode.Proofs.Tools.Visits
set_option autoImplicit false

/-!
# Loading when needed

A tool that works on a file first looks up what it is about, then loads the file unless the session
holds it. The load is left out only if the last load of the session was of this file, was answered
well, and the file has the text that it had when the load was sent. The other way round, after such
a load none is needed for as long as the process that answered runs and the session has not seen
another text in between.
-/

namespace IdeMode

open List

theorem Disk.not_mem_of_readText {disk : Disk} {p : Path} {cs : List Char}
    (h : disk.readText p = .ok cs) : '\r' ∉ cs := by
  unfold readText at h
  split at h
  · cases h
  · split at h
    · cases h
      exact Text.not_mem_normalizeNewlines _
    · cases h

/-! ## Errands -/

/-- What a tool is to do on a file: the names of the file and of the session, where the identifier
stands that it has to look up, and whether it ends with a load. -/
structure Errand where
  file : String
  session : String
  point : Option (Int × Int)
  reloads : Bool := false
  deriving DecidableEq

/-- The errand of a tool that loads a file if need be. -/
def ToolRequest.errand? : ToolRequest → Option Errand
  | .load file false session => some { file := file, session := session, point := none }
  | .typeOf file line column name session =>
    some { file := file, session := session, point := if name.isSome then none else some (line,
        column) }
  | .edit file (.refine variant _ _) line column session =>
    if (Variant.ofText? variant).isSome then
      some { file := file, session := session, point := some (line, column), reloads := true }
    else none
  | .edit file _ line column session =>
    some { file := file, session := session, point := some (line, column) }
  | _ => none

/-- The identifier is found, if one is to be looked up. -/
def Errand.Finds (x : Errand) (b : Buffer) : Prop :=
  ∀ line column, x.point = some (line, column) → ∃ found, b.nameAt line column = .ok found

namespace Tools

open Client Prog World

variable {α β : Type} {s d : Nat} {w w' : World} {h h' : List Pause} {x : Errand}

/-! ## Runs of simple programs -/

theorem Ran.history {p : Action α} {r : Result α} (hran : Ran p w h r w' h') : h <+: h' := by
  induction hran with
  | done r w h => exact prefix_rfl
  | look _ ih => exact ih
  | store _ ih => exact ih
  | wait signal hdrifts _ ih => exact (prefix_append _ _).trans ih

theorem ran_get {f : World → Action β} {r : Result β} (hran : Ran (get >>= f) w h r w' h') :
    Ran (f w) w h r w' h' := by
  cases show Ran (.look f) w h r w' h' from hran with
  | look hrest => exact hrest

theorem ran_session {f : Session → Action β} {r : Result β}
    (hran : Ran (session s >>= f) w h r w' h') : Ran (f (w.session s)) w h r w' h' := by
  cases show Ran (.look fun w => f (w.session s)) w h r w' h' from hran with
  | look hrest => exact hrest

theorem ran_pathOf {f : Path → Action β} {r : Result β}
    (hran : Ran (pathOf s d >>= f) w h r w' h') :
    Ran (f ((w.session s).buffer d).path) w h r w' h' := by
  cases show Ran (.look fun w => f ((w.session s).buffer d).path) w h r w' h' from hran with
  | look hrest => exact hrest

/-- A program that ends without a wait has one run. -/
theorem Ran.unique {p : Action α} {r r₁ : Result α} {w₁ : World} (hran : Ran p w h r₁ w₁ h')
    (hrun : p.run w = (.finished r, w')) : r₁ = r ∧ w₁ = w' ∧ h' = h := by
  induction hran with
  | done r w h =>
    cases hrun
    exact ⟨rfl, rfl, rfl⟩
  | look _ ih => exact ih hrun
  | store _ ih => exact ih hrun
  | wait => cases hrun

/-! ## Programs that send no load -/

/-- No load is waited for. -/
def Unladen (h h' : List Pause) : Prop :=
  ∃ more, h' = h ++ more ∧ ∀ y ∈ more, ∀ t, y.isLoad t = false

theorem Unladen.refl (h : List Pause) : Unladen h h := ⟨[], (append_nil h).symm, nofun⟩

theorem Unladen.trans {h₁ h₂ h₃ : List Pause} (hfirst : Unladen h₁ h₂)
    (hrest : Unladen h₂ h₃) : Unladen h₁ h₃ := by
  obtain ⟨more, rfl, hmore⟩ := hfirst
  obtain ⟨more', rfl, hmore'⟩ := hrest
  exact ⟨more ++ more', append_assoc .., fun y hy => (mem_append.1 hy).elim (hmore y) (hmore' y)⟩

/-- The program sends no load. -/
def SendsNoLoad (p : Action α) : Prop := ∀ w h r w' h', Ran p w h r w' h' → Unladen h h'

theorem SendsNoLoad.done (r : Result α) : SendsNoLoad (.done r) := by
  intro w h r' w' h' hran
  cases hran
  exact .refl h

protected theorem SendsNoLoad.get : SendsNoLoad (get : Action World) := by
  intro w h r w' h' hran
  cases hran with
  | look hrest =>
    cases hrest
    exact .refl h

protected theorem SendsNoLoad.modify (f : World → World) :
    SendsNoLoad (modify f : Action PUnit) := by
  intro w h r w' h' hran
  cases hran with
  | look hrest =>
    cases hrest with
    | store hrest =>
      cases hrest
      exact .refl h

theorem sendsNoLoad_set (w₁ : World) : SendsNoLoad (set w₁ : Action PUnit) := by
  intro w h r w' h' hran
  cases hran with
  | store hrest =>
    cases hrest
    exact .refl h

theorem SendsNoLoad.bind {p : Action α} {f : α → Action β} (hp : SendsNoLoad p)
    (hf : ∀ a, SendsNoLoad (f a)) : SendsNoLoad (p >>= f) := by
  intro w h r w' h' hran
  obtain ⟨a, w₁, h₁, hfirst, hrest⟩ := ran_bind hran
  cases a with
  | ok a => exact (hp _ _ _ _ _ hfirst).trans (hf a _ _ _ _ _ hrest)
  | error e =>
    obtain ⟨-, -, rfl⟩ := hrest
    exact hp _ _ _ _ _ hfirst

protected theorem SendsNoLoad.of_passes {p : Action α} (hp : Passes p) : SendsNoLoad p :=
  fun w h _ _ _ hran => (hran.of_safe (hp w h)).waits

protected theorem SendsNoLoad.session (t : Nat) : SendsNoLoad (session t) := .of_passes (.session t)

protected theorem SendsNoLoad.modifySession (t : Nat) (f : Session → Session) :
    SendsNoLoad (modifySession t f) :=
  .modify _

theorem sendsNoLoad_close (t : Nat) : SendsNoLoad (close t) := by
  refine .bind (.of_passes (passes_discard t)) fun _ => ?_
  refine .bind (fun w h r w' h' hran => ?_) fun _ => .modifySession t _
  exact (hran.of_safe (safe_stop t w h)).1.waits

protected theorem SendsNoLoad.of_manages {p : Action α}
    (hp : Manages (fun _ p => SendsNoLoad p) p) : SendsNoLoad p := by
  induction hp with
  | work hp => exact hp
  | looks hp => exact .of_passes (passes_of_looks hp)
  | bind hp hf ihp ihf => exact .bind ihp ihf
  | registry hf => exact .modify _
  | enter name directory environment =>
    refine .bind .get fun w => .bind (sendsNoLoad_set _) fun _ => ?_
    exact .bind (.of_passes (passes_of_looks .now)) fun time => .bind (.modify _) fun _ => .done _
  | close t => exact sendsNoLoad_close t

theorem sendsNoLoad_documentAt (t : Nat) (p : Path) : SendsNoLoad (documentAt t p) := by
  refine .bind (.session t) fun session => ?_
  split
  · refine .bind (.bind (.session t) fun session => ?_) fun _ => .done _
    refine .bind .get fun w => .bind (.done _) fun read => ?_
    exact .bind (.modifySession t _) fun _ => .done _
  · refine .bind ?_ fun d => .bind (.modifySession t _) fun _ => .done _
    refine .bind (.session t) fun session => ?_
    split
    · exact .done _
    · refine .bind .get fun w => ?_
      split
      · refine .bind (.done _) fun b => .bind (.session t) fun session => ?_
        exact .bind (.modifySession t _) fun _ => .done _
      · exact .done _

theorem sendsNoLoad_desk (file name : String) : SendsNoLoad (desk file name) := by
  refine .bind (.of_passes (passes_of_looks (.resolve file))) fun p => ?_
  refine .bind (.of_manages (.entryFor name _)) fun e => ?_
  exact .bind (sendsNoLoad_documentAt _ p) fun _ => .done _

theorem sendsNoLoad_sessionCall {command : Command} (htag : command.tag ≠ "load-file") (t : Nat)
    (limit : Option Duration) : SendsNoLoad (sessionCall t command limit) :=
  .of_passes (passes_sessionCall htag t limit)

protected theorem SendsNoLoad.applyEdit (s d : Nat) (e : Editor) (start finish : Int)
    (text : String) : SendsNoLoad (applyEdit s d e start finish text) := by
  refine .bind (.session s) fun session => .bind .get fun w => ?_
  refine .bind (.done _) fun edited => .bind ?_ fun _ => .done _
  exact .bind (.modify _) fun _ => .modifySession s _

/-! ## Programs that load when needed -/

/-- Once it has found what it is about, the program loads the document if need be. It sends no other
load unless the errand ends with one. -/
def Consults (x : Errand) (s d : Nat) (p : Action α) : Prop :=
  ∀ w h r w' h', Ran p w h r w' h' → x.Finds ((w.session s).buffer d) →
    ∃ loaded w₁ h₁, Ran (ensureLoaded s d) w h loaded w₁ h₁ ∧ h₁ <+: h' ∧
      (x.reloads = false → Unladen h₁ h')

theorem Consults.bind {p : Action α} {f : α → Action β} (hp : Consults x s d p)
    (hf : x.reloads = false → ∀ a, SendsNoLoad (f a)) : Consults x s d (p >>= f) := by
  intro w h r w' h' hran hfinds
  obtain ⟨a, w₂, h₂, hfirst, hrest⟩ := ran_bind hran
  obtain ⟨loaded, w₁, h₁, hload, hle, hunladen⟩ := hp _ _ _ _ _ hfirst hfinds
  refine ⟨loaded, w₁, h₁, hload, ?_⟩
  cases a with
  | ok a =>
    exact ⟨hle.trans hrest.history,
      fun hends => (hunladen hends).trans (hf hends a _ _ _ _ _ hrest)⟩
  | error e =>
    obtain ⟨-, -, rfl⟩ := hrest
    exact ⟨hle, hunladen⟩

protected theorem Consults.ensureLoaded (x : Errand) (s d : Nat) :
    Consults x s d (ensureLoaded s d) := fun _ _ r w' h' hran _ =>
  ⟨r, w', h', hran, prefix_rfl, fun _ => .refl h'⟩

variable {line column : Int}

/-- The identifier is looked up first. -/
theorem consults_nameAt (hpoint : x.point = some (line, column)) {f : String × Int → Action α}
    (hf : ∀ found, Consults x s d (f found)) : Consults x s d (session s >>=
      fun session => ofResult ((session.buffer d).nameAt line column) >>= f) := by
  intro w h r w' h' hran hfinds
  obtain ⟨found, hfound⟩ := hfinds line column hpoint
  have hrest := ran_session hran
  rw [hfound] at hrest
  exact hf found _ _ _ _ _ hrest hfinds

protected theorem Consults.askAbout {line column : Int} (hpoint : x.point = some (line, column))
    {tag : String} (htag : tag ≠ "load-file") (s d : Nat) (extra : List Value) :
    Consults x s d (askAbout s d tag line column extra) := by
  refine consults_nameAt hpoint fun found => .bind (.ensureLoaded x s d) fun _ _ => ?_
  exact .bind (sendsNoLoad_sessionCall htag s none) fun _ => .done _

theorem consults_replaceLineBy (hpoint : x.point = some (line, column)) {tag : String}
    (htag : tag ≠ "load-file") (s d : Nat) (e : Editor) (messages : String → List String) :
    Consults x s d (replaceLineBy s d e tag line column messages) := by
  refine .bind (.askAbout hpoint htag s d []) fun _ answer => ?_
  refine .bind (.session s) fun session => .bind (.done _) fun start => ?_
  refine .bind (.done _) fun finish => ?_
  exact .bind (.applyEdit s d e _ _ _) fun _ => .done _

theorem consults_addClause (hpoint : x.point = some (line, column)) (s d : Nat) (e : Editor)
    (proof : Bool) : Consults x s d (addClause s d e line column proof) := by
  have htag : (if proof then "add-proof-clause" else "add-clause") ≠ "load-file" := by
    cases proof <;> decide
  refine .bind (.askAbout hpoint htag s d []) fun _ answer => ?_
  refine .bind (.session s) fun session => .bind (.done _) fun finish => ?_
  exact .bind (.applyEdit s d e _ _ _) fun _ => .done _

theorem consults_addMissing (hpoint : x.point = some (line, column)) (s d : Nat) (e : Editor) :
    Consults x s d (addMissing s d e line column) := by
  have htag : "add-missing" ≠ "load-file" := by decide
  refine .bind (.askAbout hpoint htag s d []) fun _ answer => ?_
  refine .bind (.session s) fun session => ?_
  dsimp only
  split
  · refine .bind (.done _) fun place => ?_
    exact .bind (.applyEdit s d e _ _ _) fun _ => .done _
  · refine .bind (.done _) fun place => ?_
    exact .bind (.applyEdit s d e _ _ _) fun _ => .done _

theorem consults_proofSearch (hpoint : x.point = some (line, column)) (s d : Nat) (e : Editor)
    (hints : List String) : Consults x s d (proofSearch s d e line column hints) := by
  have htag : "proof-search" ≠ "load-file" := by decide
  refine .bind (.askAbout hpoint htag s d _) fun _ answer => ?_
  refine .bind (.session s) fun session => .bind (.done _) fun hole => ?_
  split
  · exact .done _
  · exact .bind (.applyEdit s d e _ _ _) fun _ => .done _

theorem consults_refine (hpoint : x.point = some (line, column)) (hreloads : x.reloads = true)
    (s d : Nat) (e : Editor) (variant : Variant) (stem : String) (choices : List String) :
    Consults x s d (refine s d e line column variant stem choices) := by
  -- a call that reloads need not be free of loads after the first
  have hnever : x.reloads ≠ false := by rw [hreloads]; decide
  refine .bind (consults_nameAt hpoint fun found => ?_) fun hends => absurd hends hnever
  refine .bind (.bind (.ensureLoaded x s d) ?_) ?_ <;> exact fun hends => absurd hends hnever

theorem consults_typeOf {name : Option String}
    (hpoint : x.point = if name.isSome then none else some (line, column))
    (s d : Nat) : Consults x s d (typeOf s d line column name) := by
  have htag : "type-of" ≠ "load-file" := by decide
  have hask : ∀ name : String, Consults x s d (do
      let _ ← ensureLoaded s d
      sessionCall s ⟨"type-of", [.str name]⟩ none) := fun name =>
    .bind (.ensureLoaded x s d) fun _ _ => sendsNoLoad_sessionCall htag s none
  cases name with
  | some name => exact hask name
  | none => exact consults_nameAt hpoint fun found => hask found.1

/-- The program goes to the desk of the errand, loads the document there if need be, and answers
with a text. -/
inductive Pursues (x : Errand) : Action Answer → Prop where
  | onFile {α : Type} {action : Desk → Action α} {present : Desk → α → Action String}
    (haction : ∀ k, Consults x k.session k.document (action k))
    (hpresent : ∀ k a, Passes (present k a)) :
    Pursues x (.text <$> onFile x.file x.session action present)

theorem pursues_editFile {command : Desk → Editor → Action Edit}
    (hcommand : ∀ k e, Consults x k.session k.document (command k e)) :
    Pursues x (.text <$> editFile x.file x.session command) := by
  refine .onFile (fun k => ?_) fun k e => .bind (.session _) fun _ => .done _
  intro w h r w' h' hran
  exact hcommand k _ _ _ _ _ _ (ran_get hran)

theorem pursues_action {request : ToolRequest} (hx : request.errand? = some x) :
    Pursues x request.action := by
  cases request with
  | load file force session =>
    cases force with
    | true => cases hx
    | false =>
      obtain rfl := Option.some.inj hx
      refine .onFile (fun k => .ensureLoaded _ _ _) fun k loaded => ?_
      exact .bind (.session _) fun _ => .bind (passes_of_looks (.warningsText _ _)) fun _ => .done _
  | typeOf file line column name session =>
    obtain rfl := Option.some.inj hx
    exact .onFile (fun k => consults_typeOf rfl _ _) fun _ _ => .done _
  | edit file command line column session =>
    have htags : "case-split" ≠ "load-file" ∧ "make-with" ≠ "load-file" := by decide
    cases command with
    | refine variant stem choices =>
      change (if (Variant.ofText? variant).isSome then _ else _) = some x at hx
      show Pursues x (.text <$> refineTool file line column variant stem choices session)
      unfold refineTool
      cases hvariant : Variant.ofText? variant with
      | none =>
        rw [hvariant] at hx
        cases hx
      | some v =>
        rw [hvariant] at hx
        obtain rfl := Option.some.inj hx
        exact pursues_editFile fun k e => consults_refine rfl rfl _ _ e v stem choices
    | caseSplit =>
      obtain rfl := Option.some.inj hx
      exact pursues_editFile fun k e =>
        consults_replaceLineBy rfl htags.1 _ _ e fun name => ["Case split on " ++ name]
    | makeWith =>
      obtain rfl := Option.some.inj hx
      exact pursues_editFile fun k e => consults_replaceLineBy rfl htags.2 _ _ e fun _ => []
    | addClause proof =>
      obtain rfl := Option.some.inj hx
      exact pursues_editFile fun k e => consults_addClause rfl _ _ e proof
    | addMissing =>
      obtain rfl := Option.some.inj hx
      exact pursues_editFile fun k e => consults_addMissing rfl _ _ e
    | proofSearch hints =>
      obtain rfl := Option.some.inj hx
      exact pursues_editFile fun k e => consults_proofSearch rfl _ _ e hints
  | _ => cases hx

/-- A tool on an errand finds its desk or fails to. At its desk it loads the document if need be. -/
theorem Pursues.ran {p : Action Answer} (hp : Pursues x p) {r : Result Answer}
    (hran : Ran p w h r w' h') :
    ∃ outcome w₁ h₁, Ran (desk x.file x.session) w h outcome w₁ h₁ ∧ h₁ <+: h' ∧
      ∀ k, outcome = .ok k → x.Finds ((w₁.session k.session).buffer k.document) →
        ∃ loaded w₂ h₂, Ran (ensureLoaded k.session k.document) w₁ h₁ loaded w₂ h₂ ∧ h₂ <+: h' ∧
          (x.reloads = false → Unladen h₂ h') := by
  cases hp with
  | @onFile α action present haction hpresent =>
    obtain ⟨text, hran, -⟩ := ran_map hran
    obtain ⟨_, w₁, h₁, hfirst, hrest⟩ := ran_bind hran
    obtain ⟨outcome, hdesk, rfl⟩ := ran_attempt hfirst
    refine ⟨outcome, w₁, h₁, hdesk, hrest.history, ?_⟩
    rintro k rfl hfinds
    obtain ⟨_, w₃, h₃, hsecond, hend⟩ := ran_bind hrest
    obtain ⟨done, hdone, rfl⟩ := ran_attempt hsecond
    obtain ⟨loaded, w₂, h₂, hload, hle, hunladen⟩ := haction k _ _ _ _ _ hdone hfinds
    refine ⟨loaded, w₂, h₂, hload, hle.trans hend.history, fun hends => (hunladen hends).trans ?_⟩
    cases done with
    | error f => exact SendsNoLoad.of_passes (passes_of_looks (.shown x.file _ f)) _ _ _ _ _ hend
    | ok a => exact SendsNoLoad.of_passes (hpresent k a) _ _ _ _ _ hend

/-! ## When no load is needed -/

/-- The last load of a session was of the file at a path and was answered well, and the file has the
text that it had when the load was sent. -/
structure Reflects (s : Nat) (p : Path) (w : World) (h : List Pause) (y : Pause) : Prop where
  last : lastLoad s h = some y
  loads : y.Loads s p
  answered : y.Answered s
  text_eq : y.found.host.disk.readText p = w.host.disk.readText p

/-- The session has seen no other text of a document since a wait began. -/
def Unnoticed (s d : Nat) (w : World) (y : Pause) : Prop :=
  ((y.found.session s).buffer d).revision = ((w.session s).buffer d).revision

/-- The process that a session had when a wait ended is still its process, and runs. -/
def StillRuns (s : Nat) (w : World) (y : Pause) : Prop :=
  ∃ c, (y.left.session s).transport.child = some c ∧ (w.session s).transport.child = some c ∧
    w.host.isRunning c = true

instance (s d : Nat) (w : World) (y : Pause) : Decidable (Unnoticed s d w y) :=
  inferInstanceAs (Decidable
    (((y.found.session s).buffer d).revision = ((w.session s).buffer d).revision))

variable {p : Path} {y : Pause}

theorem reflects_of_not_stale (hknown : Known w h) (hat : AtHand s d p w)
    (hfresh : (w.session s).isStale p = false) : ∃ y, Reflects s p w h y ∧ Unnoticed s d w y := by
  obtain ⟨-, doc, hdoc, rfl, hread⟩ := hat
  obtain ⟨-, hloaded⟩ : (w.session s).isDirty doc.buffer.path = false ∧
      (w.session s).isLoaded doc.buffer.path = true := by
    unfold Session.isStale at hfresh
    simpa using hfresh
  obtain ⟨d', hd', hpath⟩ := Option.map_eq_some_iff.1 (of_decide_eq_true hloaded)
  obtain ⟨doc', y, hdoc', -, hbacked⟩ := (hknown.sound s).loaded d' hd'
  rw [Session.buffer_eq hdoc'] at hpath
  obtain rfl := (hknown.sound s).filed.unique hdoc' hdoc hpath
  obtain rfl := Option.some.inj (hdoc'.symm.trans hdoc)
  refine ⟨y, ⟨hbacked.last, hbacked.loads, hbacked.answered, ?_⟩, ?_⟩
  · rw [hread]
    exact hbacked.saved (Disk.not_mem_of_readText hread)
  · unfold Unnoticed
    rw [hbacked.buffer_eq, Session.buffer_eq hdoc]

theorem not_stale_of_reflects (hknown : Known w h) (hat : AtHand s d p w)
    (hreflects : Reflects s p w h y) (hseen : Unnoticed s d w y) (hruns : StillRuns s w y) :
    (w.session s).isStale p = false := by
  obtain ⟨-, doc, hdoc, rfl, hread⟩ := hat
  obtain ⟨-, d', doc', hdoc', hloads, -, hheld⟩ :=
    hknown.complete s y hreflects.last hreflects.answered
  have hfiled := (hknown.sound s).filed
  -- the file is known by its name and the directory in which it was loaded
  have hpath : doc'.buffer.path = doc.buffer.path := by
    obtain ⟨⟨call, hissued, hcommand⟩, hcwd⟩ := hloads
    obtain ⟨⟨call', hissued', hcommand'⟩, hcwd'⟩ := hreflects.loads
    obtain rfl := Option.some.inj (hissued.symm.trans hissued')
    refine Path.eq_of_parent_name (hfiled d' doc' hdoc').2.1 (hfiled d doc hdoc).2.1 ?_ ?_
    · exact Option.some.inj (hcwd.symm.trans hcwd')
    · have hcommands := hcommand.symm.trans hcommand'
      injection hcommands with _ hargs
      injection hargs with hname
      injection hname
  obtain rfl := hfiled.unique hdoc' hdoc hpath
  obtain rfl := Option.some.inj (hdoc'.symm.trans hdoc)
  have hloaded : (w.session s).loaded = some d' := by
    rcases hheld with hloaded | hchanged | hlost
    · exact hloaded
    · unfold Unnoticed at hseen
      rw [Session.buffer_eq hdoc] at hseen
      exact absurd hseen (Nat.ne_of_lt hchanged)
    · obtain ⟨c, hleft, hchild, hrunning⟩ := hruns
      exact absurd hchild ((hlost c hleft).2 hrunning)
  obtain ⟨doc'', -, hdoc'', hclean, -⟩ := (hknown.sound s).loaded d' hloaded
  obtain rfl := Option.some.inj (hdoc''.symm.trans hdoc)
  unfold Session.isStale Session.isLoaded Session.loadedPath?
  rw [hclean, hloaded, Option.map_some, Session.buffer_eq hdoc]
  simp

/-- A document is loaded exactly if it is stale. -/
theorem ran_ensureLoaded {loaded : Result Bool} (hran : Ran (ensureLoaded s d) w h loaded w' h') :
    ((w.session s).isStale ((w.session s).buffer d).path = false →
      loaded = .ok false ∧ w' = w ∧ h' = h) ∧
      ((w.session s).isStale ((w.session s).buffer d).path = true → loaded ≠ .ok false) := by
  have hrest := ran_pathOf (ran_session hran)
  cases hstale : (w.session s).isStale ((w.session s).buffer d).path with
  | false =>
    rw [hstale] at hrest
    cases hrest
    exact ⟨fun _ => ⟨rfl, rfl, rfl⟩, nofun⟩
  | true =>
    rw [hstale] at hrest
    refine ⟨nofun, fun _ => ?_⟩
    rintro rfl
    obtain ⟨a, w₁, h₁, -, hend⟩ :=
      ran_bind (p := load s d) (f := fun _ => (return true : Action Bool)) hrest
    cases a with
    | ok a => cases hend
    | error e => cases hend.1

end Tools

open Tools Client

/-- Every tool on an errand goes to its desk, in the session of the name and with the document of
the file. If it finds there what it is about, the load is left out only if the last load that the
session sent was of this file and was answered well, the file has the text that it had then, and no
other text was seen in between. If all this is so and the process that answered still runs, then the
load is left out, and no load is sent by the whole visit unless the tool ends with one. -/
theorem Machine.errand_loads_when_needed {m : Machine} {moves : List Move} (hm : m.Unused)
    (hmoves : m.ServesTools moves) {v : Visit} (hv : v ∈ m.visits moves) {x : Errand}
    (hx : v.request.errand? = some x) :
    ∃ outcome w₁ h₁, Ran (desk x.file x.session) v.entered v.before outcome w₁ h₁ ∧ h₁ <+: v.after ∧
      ∀ k, outcome = .ok k → x.Finds ((w₁.session k.session).buffer k.document) →
        Names w₁ x.session k.session ∧
        ((w₁.session k.session).buffer k.document).path = v.entered.host.cwd.resolve x.file ∧
        ∃ loaded w₂ h₂, Ran (ensureLoaded k.session k.document) w₁ h₁ loaded w₂ h₂ ∧
          h₂ <+: v.after ∧ (loaded = .ok false →
            ∃ y, Reflects k.session (v.entered.host.cwd.resolve x.file) w₁ h₁ y ∧
            Unnoticed k.session k.document w₁ y) ∧
          ∀ y, Reflects k.session (v.entered.host.cwd.resolve x.file) w₁ h₁ y →
            Unnoticed k.session k.document w₁ y → StillRuns k.session w₁ y →
            loaded = .ok false ∧ w₂ = w₁ ∧ h₂ = h₁ ∧
              (x.reloads = false → Unladen v.before v.after) := by
  obtain ⟨⟨w, h, hheld⟩, -⟩ := held_visits hm hmoves
  obtain ⟨hknown, hran⟩ := hheld.ran hv
  obtain ⟨outcome, w₁, h₁, hdesk, hle, hmore⟩ := (pursues_action hx).ran hran
  refine ⟨outcome, w₁, h₁, hdesk, hle, ?_⟩
  rintro k rfl hfinds
  obtain ⟨⟨hknown₁, -⟩, hdone⟩ := hdesk.of_safe (safe_desk hknown x.file x.session)
  obtain ⟨hat, hnames⟩ := hdone k rfl
  have hpath : ((w₁.session k.session).buffer k.document).path =
      v.entered.host.cwd.resolve x.file := by
    obtain ⟨-, doc, hdoc, hpath, -⟩ := hat
    rw [Session.buffer_eq hdoc, hpath]
  obtain ⟨loaded, w₂, h₂, hload, hle₂, hunladen⟩ := hmore k rfl hfinds
  obtain ⟨hskips, hloads⟩ := ran_ensureLoaded hload
  rw [hpath] at hskips hloads
  refine ⟨hnames, hpath, loaded, w₂, h₂, hload, hle₂, fun hskipped => ?_,
    fun y hreflects hseen hruns => ?_⟩
  · refine reflects_of_not_stale hknown₁ hat (Bool.eq_false_iff.2 fun hstale => ?_)
    exact hloads hstale hskipped
  · obtain ⟨rfl, rfl, rfl⟩ := hskips (not_stale_of_reflects hknown₁ hat hreflects hseen hruns)
    exact ⟨rfl, rfl, rfl, fun hends =>
      (sendsNoLoad_desk _ _ _ _ _ _ _ hdesk).trans (hunladen hends)⟩

/-! ## A file that is seen changed -/

/-- A server with one file, whose compiler does not answer by itself. -/
def serverMachine : Machine where
  world :=
    { host :=
        { cwd := ⟨[]⟩
          disk := ({} : Disk).place ⟨["A.idr"]⟩ [120, 10]
          reactions := [("interpret", List.replicate 4 {}), ("load-file", List.replicate 4 {})] } }

/-- The file is loaded. -/
def firstLoad : List Move :=
  .launch 0 (.tool (.load "A.idr" false "default")) :: List.replicate 5 .turn ++
    answeredBy "(:return (:ok \"\") 1)" 5 ++ answeredBy "(:return (:ok \"\") 2)" 4

/-- The file is to be loaded twice. -/
def secondLoad : List Move :=
  firstLoad ++ .launch 1 (.tool (.load "A.idr" false "default")) :: List.replicate 2 .turn

/-- The file is loaded, changed, looked at, changed back, and loaded again. -/
def glimpse : List Move :=
  firstLoad ++ .change (.writeFile "A.idr" [121, 10]) ::
    .launch 1 (.tool (.complete "A.idr" 1 0 "default")) ::
    List.replicate 2 .turn ++ .change (.writeFile "A.idr" [120, 10]) ::
    .launch 2 (.tool (.load "A.idr" false "default")) :: List.replicate 5 .turn ++
    answeredBy "(:return (:ok \"\") 3)" 4

theorem serverMachine_unused : serverMachine.Unused where
  normal := nofun
  sessions_eq := rfl
  entries_eq := rfl
  ready_eq := rfl
  tasks_eq := rfl
  finished_eq := rfl
  tidy tag rs hrs r hr := by
    have hsilent : ∀ tag, ∀ rs ∈ serverMachine.world.host.reactions.get? tag, ∀ r ∈ rs, r = {} := by
      intro tag rs hrs r hr
      simp only [serverMachine, Table.get?_cons, Table.get?_nil] at hrs
      split at hrs
      · obtain rfl := Option.some.inj hrs
        exact eq_of_mem_replicate hr
      · split at hrs
        · obtain rfl := Option.some.inj hrs
          exact eq_of_mem_replicate hr
        · cases hrs
    rw [hsilent tag rs hrs r hr]
    exact ⟨rfl, rfl⟩

/-- The first document of the first session is found without a wait. -/
def comesHome (w : World) : Bool :=
  match (desk "A.idr" "default").run w with
  | (.finished (.ok k), _) => k.session = 0 ∧ k.document = 0
  | _ => false

/-- The world when the document was found. -/
def atHome (w : World) : World := ((desk "A.idr" "default").run w).2

theorem run_of_comesHome {w : World} (hhome : comesHome w = true) :
    (desk "A.idr" "default").run w = (.finished (.ok ⟨0, 0⟩), atHome w) := by
  unfold comesHome at hhome
  split at hhome
  · next k w₁ heq =>
    obtain ⟨session, document⟩ := k
    obtain ⟨rfl, rfl⟩ := of_decide_eq_true hhome
    unfold atHome
    rw [heq]
  · cases hhome

/-- The last load was of the file, with the text that the file has, and the process that answered
runs. -/
def StillHolds (w : World) (h : List Pause) : Prop :=
  (lastLoad 0 h).isSome ∧ ∀ y ∈ lastLoad 0 h, y.Loads 0 ⟨["A.idr"]⟩ ∧ y.Answered 0 ∧
    y.found.host.disk.readText ⟨["A.idr"]⟩ = w.host.disk.readText ⟨["A.idr"]⟩ ∧
    (y.left.session 0).transport.child = some 0 ∧ (w.session 0).transport.child = some 0 ∧
      w.host.isRunning 0 = true

instance (w : World) (h : List Pause) : Decidable (StillHolds w h) :=
  inferInstanceAs (Decidable (_ ∧ _))

theorem StillHolds.reflects {w : World} {h : List Pause} (hholds : StillHolds w h) :
    ∃ y, lastLoad 0 h = some y ∧ Reflects 0 ⟨["A.idr"]⟩ w h y ∧ StillRuns 0 w y := by
  obtain ⟨y, hy⟩ := Option.isSome_iff_exists.1 hholds.1
  obtain ⟨hloads, hanswered, htext, hleft, hchild, hrunning⟩ := hholds.2 y hy
  exact ⟨y, hy, ⟨hy, hloads, hanswered, htext⟩, 0, hleft, hchild, hrunning⟩

/-- In the second visit the load is left out. -/
theorem Machine.errand_loads_when_needed_twice :
    serverMachine.Unused ∧ serverMachine.ServesTools secondLoad ∧
    ∃ v ∈ serverMachine.visits secondLoad, ∃ x, v.request.errand? = some x ∧ ∃ k w₁ y,
      Ran (desk x.file x.session) v.entered v.before (.ok k) w₁ v.before ∧
      Reflects k.session (v.entered.host.cwd.resolve x.file) w₁ v.before y ∧
        StillRuns k.session w₁ y ∧
      Ran (ensureLoaded k.session k.document) w₁ v.before (.ok false) w₁ v.before ∧
        Unladen v.before v.after := by
  have hmoves : serverMachine.ServesTools secondLoad := by decide +kernel
  have hsome : (serverMachine.visits secondLoad)[1]?.isSome := by decide +kernel
  have hfacts : ∀ v ∈ (serverMachine.visits secondLoad)[1]?,
      v.request.errand? = some ⟨"A.idr", "default", none, false⟩ ∧
      v.entered.host.cwd.resolve "A.idr" = ⟨["A.idr"]⟩ ∧ comesHome v.entered = true ∧
      StillHolds (atHome v.entered) v.before ∧
      ∀ y ∈ lastLoad 0 v.before, Unnoticed 0 0 (atHome v.entered) y := by decide +kernel
  obtain ⟨v, hv⟩ := Option.isSome_iff_exists.1 hsome
  obtain ⟨hx, hcwd, hhome, hholds, hseen⟩ := hfacts v hv
  obtain ⟨y, hy, hreflects, hruns⟩ := hholds.reflects
  have hmem : v ∈ serverMachine.visits secondLoad := mem_of_getElem? hv
  obtain ⟨outcome, w₁, h₁, hdesk, -, hrest⟩ :=
    errand_loads_when_needed serverMachine_unused hmoves hmem hx
  obtain ⟨rfl, rfl, rfl⟩ := hdesk.unique (run_of_comesHome hhome)
  obtain ⟨-, -, loaded, w₂, h₂, hload, -, -, hskips⟩ := hrest _ rfl nofun
  rw [← hcwd] at hreflects
  obtain ⟨rfl, rfl, rfl, hunladen⟩ := hskips y hreflects (hseen y hy) hruns
  exact ⟨serverMachine_unused, hmoves, v, hmem, _, hx, _, _, y, hdesk, hreflects, hruns,
    hload, hunladen rfl⟩

/-- A file that was changed and changed back is loaded again if it was looked at in between: the
last load was of the file as it is, was answered well, and the process that answered runs, but
another load is sent. -/
theorem seen_text_loaded_again : serverMachine.Unused ∧ serverMachine.ServesTools glimpse ∧
    ∃ v ∈ serverMachine.visits glimpse,
      ∃ x, v.request.errand? = some x ∧ x.reloads = false ∧ ∃ k w₁ y,
      Ran (desk x.file x.session) v.entered v.before (.ok k) w₁ v.before ∧
      x.Finds ((w₁.session k.session).buffer k.document) ∧
      Reflects k.session (v.entered.host.cwd.resolve x.file) w₁ v.before y ∧
        StillRuns k.session w₁ y ∧ ¬ Unladen v.before v.after := by
  have hmoves : serverMachine.ServesTools glimpse := by decide +kernel
  have hsome : (serverMachine.visits glimpse)[2]?.isSome := by decide +kernel
  have hfacts : ∀ v ∈ (serverMachine.visits glimpse)[2]?,
      v.request.errand? = some ⟨"A.idr", "default", none, false⟩ ∧
      v.entered.host.cwd.resolve "A.idr" = ⟨["A.idr"]⟩ ∧ comesHome v.entered = true ∧
      StillHolds (atHome v.entered) v.before ∧ ∃ z ∈ v.after.drop v.before.length,
        z.isLoad 0 = true := by decide +kernel
  obtain ⟨v, hv⟩ := Option.isSome_iff_exists.1 hsome
  obtain ⟨hx, hcwd, hhome, hholds, z, hz, hload⟩ := hfacts v hv
  obtain ⟨y, -, hreflects, hruns⟩ := hholds.reflects
  rw [← hcwd] at hreflects
  refine ⟨serverMachine_unused, hmoves, v, mem_of_getElem? hv, _, hx, rfl, ⟨0, 0⟩, _, y,
    ran_of_finished (run_of_comesHome hhome) _, nofun, hreflects, hruns, ?_⟩
  rintro ⟨more, hmore, hnone⟩
  rw [hmore, drop_left] at hz
  cases (hnone z hz 0).symm.trans hload

end IdeMode
