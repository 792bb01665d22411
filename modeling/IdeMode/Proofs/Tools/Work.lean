import IdeMode.Proofs.Client.Plain
import IdeMode.Proofs.Prog.Safe
import IdeMode.Request.Tool
set_option autoImplicit false

/-!
# Work with a session

Once a tool has its session, all that it does is put together from a few things: it takes notes in
the session, writes a file, starts the compiler if it does not run, and calls it. What these keep,
everything keeps that tools do with a session.
-/

namespace IdeMode

namespace Tools

open Client Prog

/-! ## Looking -/

/-- What only looks at the world. -/
inductive Looks : {α : Type} → Action α → Prop where
  | done {α : Type} (r : Result α) : Looks (.done r)
  | bind {α β : Type} {p : Action α} {f : α → Action β} (hp : Looks p) (hf : ∀ a, Looks (f a)) :
    Looks (p >>= f)
  | get : Looks (get : Action World)

namespace Looks

/-- To look is no breach of any discipline. -/
theorem obeys {α : Type} {p : Action α} {D : Discipline World Await Unit}
    (h : Looks p) : Obeys D p := by
  induction h with
  | done r => exact .done r
  | bind _ _ ihp ihf => exact .bind ihp ihf
  | get => exact .get

protected theorem session (s : Nat) : Looks (session s) := .bind .get fun _ => .done _

protected theorem now : Looks now := .bind .get fun _ => .done _

protected theorem entryNamed (name : String) : Looks (entryNamed name) :=
  .bind .get fun _ => .done _

protected theorem resolve (name : String) : Looks (resolve name) := by
  unfold resolve
  split
  · exact .bind .get fun _ => .done _
  · exact .done (.error .badValue)

protected theorem warningsText (s : Nat) (p : Option Path) : Looks (warningsText s p) :=
  .bind (.session s) fun _ => .bind (.done _) fun _ => .done _

protected theorem faultText (s : Option Nat) (f : Fault) : Looks (faultText s f) := by
  unfold faultText
  split
  · exact .done _
  · exact .bind (.warningsText _ _) fun _ => .done _
  · exact .done _

protected theorem shown (file : String) (s : Option Nat) (f : Fault) :
    Looks (onFile.shown file s f) := by
  unfold onFile.shown
  split
  · exact .done _
  · split
    · exact .faultText s _
    · exact .done (.error _)

protected theorem sessionLines (entries : List (String × Entry)) :
    Looks (entries.mapM fun e => sessionLine e.1 e.2 : Action (List String)) := by
  induction entries with
  | nil => exact .done _
  | cons e rest ih =>
    rw [List.mapM_cons]
    exact .bind (.bind .get fun _ => .bind .now fun _ => .done _) fun _ => .bind ih fun _ => .done _

protected theorem warningsTool (file : Option String) (name : String) :
    Looks (warningsTool file name) := by
  have hshow : ∀ (t : Nat) (p : Option Path), Looks (do
      let text ← warningsText t p
      return if text.isEmpty then "No warnings." else text : Action String) := fun t p =>
    .bind (.warningsText t p) fun _ => .done _
  refine .bind (.entryNamed name) fun found => ?_
  split
  · exact .done _
  · cases file with
    | none => exact .bind (.done _) fun p => hshow _ p
    | some f =>
      dsimp only
      split
      · exact .bind (.done _) fun p => hshow _ p
      · exact .bind (.bind (.resolve f) fun _ => .done _) fun p => hshow _ p

end Looks

/-! ## Working -/

/-- What tools do with a session that they have. -/
inductive Works (s : Nat) : {α : Type} → Action α → Prop where
  | done {α : Type} (r : Result α) : Works s (.done r)
  | bind {α β : Type} {p : Action α} {f : α → Action β} (hp : Works s p) (hf : ∀ a, Works s (f a)) :
    Works s (p >>= f)
  | attempt {α : Type} {p : Action α} (hp : Works s p) : Works s p.attempt
  | get : Works s (get : Action World)
  /-- takes a note -/
  | note {f : Session → Session} (hf : ∀ session, (f session).engine = session.engine) :
    Works s (modifySession s f)
  /-- takes a note of what was just read -/
  | revise {α : Type} {f : Session → Session} {next : Session → Action α}
    (hf : ∀ session, (f session).engine = session.engine)
    (hnext : ∀ session, Works s (next session)) : Works s (session s >>= fun session =>
      modifySession s (fun _ => f session) >>= fun _ => next session)
  | write (disk : Disk) :
    Works s (modify fun w => { w with host := { w.host with disk := disk } } : Action Unit)
  /-- a load has failed, which is announced -/
  | announce {α : Type} (d : Nat) (f : Fault) : Works s (do
      let (f, w) := (← MonadState.get).loadFault s (← pathOf s d) f
      set w
      throw f : Action α)
  | start : Works s (ensureRunning s)
  | call (command : Command) {limit : Option Duration}
    (hlimit : ∀ t, limit = some t → 0 < t.nanos) : Works s (sessionCall s command limit)
  | load (command : Command) :
    Works s (session s >>= fun session => call s command session.loadLimit)

variable {α : Type} {s d : Nat}

protected theorem Works.of_looks {p : Action α} (h : Looks p) : Works s p := by
  induction h with
  | done r => exact .done r
  | bind _ _ ihp ihf => exact .bind ihp ihf
  | get => exact .get

theorem works_session : Works s (session s) := .of_looks (.session s)

/-- The outcome of a load is dealt with. -/
theorem works_answered {f : Result Response → Action α} (command : Command)
    (hf : ∀ r, Works s (f r)) :
    Works s (session s >>= fun session => (call s command session.loadLimit).attempt >>= f) :=
  Works.bind (p := (session s >>= fun session => call s command session.loadLimit).attempt)
    (.attempt (.load command)) hf

/-- Plain work is work, a load included. -/
protected theorem Works.of_plain {p : Action α} (h : Plain s p) : Works s p := by
  induction h with
  | done r => exact .done r
  | bind hp hf ihp ihf => exact .bind ihp ihf
  | get => exact .get
  | note hf => exact .note hf
  | revise hf hnext ih => exact .revise hf ih
  | write disk => exact .write disk
  | start => exact .start
  | call command hlimit => exact .call command hlimit
  | @loading d hbegin ih =>
    refine .bind ih fun begun => works_answered begun.1 fun answer => ?_
    cases answer with
    | ok r => exact .bind (.note fun session => session.engine_recordLoad d _) fun _ => .done _
    | error fault => exact .announce d fault

theorem works_evaluate (expression : String) {limit : Option Duration}
    (hlimit : ∀ t, limit = some t → 0 < t.nanos) : Works s (evaluate s expression limit) :=
  .bind .start fun _ => .bind (.note fun _ => rfl) fun _ => .call _ hlimit

theorem works_documentAt (p : Path) : Works s (documentAt s p) := by
  refine .bind works_session fun session => ?_
  split
  · exact .bind (.of_plain (.reread _)) fun _ => .done _
  · exact .bind (.of_plain (.openDocument _)) fun d => .bind (.note fun _ => rfl) fun _ => .done _

theorem works_startIn (name : String) (e : Entry) (p : Path) :
    Works e.session (startIn name e p) := by
  refine .bind
    (.attempt (.bind .start fun message => .bind (.of_plain (.switchDirectory p)) fun _ => .done _))
      fun started => ?_
  cases started with
  | ok message => exact .done _
  | error fault =>
    dsimp only
    split
    · exact .done _
    · exact .done (.error _)

/-! ## Tools -/

theorem nanos_clamp_pos {low high : Duration} (hlow : 0 < low.nanos) (t : Duration) :
    0 < (Duration.clamp low high t).nanos := by
  have hraised : ∀ t : Duration, 0 < (if low.nanos < t.nanos then t else low).nanos := by
    intro t
    split
    · next hlt => exact Int.lt_trans hlow hlt
    · exact hlow
  exact hraised _

/-- An expression is evaluated and shown with what was printed meanwhile. -/
def evaluated (s : Nat) (expression : String) (limit : Duration) : Action String := do
  match ← (evaluate s expression (some (Duration.clamp (.whole 1) (.whole 600) limit))).attempt with
  | .error f => if f.isReported then faultText (some s) f else throw f
  | .ok r =>
    let output := String.join (← session s).output
    modifySession s fun session => { session with output := [] }
    return output ++ r.text

theorem works_evaluated (s : Nat) (expression : String) (limit : Duration) :
    Works s (evaluated s expression limit) := by
  refine .bind (.attempt (works_evaluate expression ?_)) fun answer => ?_
  · rintro _ ⟨⟩
    exact nanos_clamp_pos (by decide) limit
  · cases answer with
    | ok r => exact .bind works_session fun session => .bind (.note fun _ => rfl) fun _ => .done _
    | error f =>
      dsimp only
      split
      · exact .of_looks (.faultText _ f)
      · exact .done (.error _)

/-- A tool on a file does its work at the desk and shows what came of it. -/
theorem works_onDesk (file : String) {k : Desk} {action : Desk → Action α}
    {present : Desk → α → Action String} {b b' : Bool}
    (haction : Handles k.session k.document b b' (action k)) (hpresent : ∀ a, Looks (present k a)) :
    Works k.session (do
    match ← (action k).attempt with
    | .error f => onFile.shown file (some k.session) f
    | .ok a => present k a) := by
  refine .bind (.attempt (.of_plain (.of_handles haction))) fun answer => ?_
  cases answer with
  | ok a => exact .of_looks (hpresent a)
  | error f => exact .of_looks (.shown file _ f)

end Tools

namespace ToolRequest

open Client Tools

/-- The file that a tool works on, and the name of its session. -/
def file? : ToolRequest → Option (String × String)
  | .load file _ session | .typeOf file _ _ _ session | .complete file _ _ session =>
    some (file, session)
  | .edit file (.refine variant _ _) _ _ session =>
    (Variant.ofText? variant).map fun _ => (file, session)
  | .edit file _ _ _ session => some (file, session)
  | _ => none

/-- A tool on a file goes to its desk, works at the document and shows what came of it. -/
def IsOnFile (file name : String) (p : Action Answer) : Prop :=
  ∃ (α : Type) (action : Desk → Action α) (present : Desk → α → Action String) (b b' : Bool),
    p = .text <$> onFile file name action present ∧
      (∀ k, Handles k.session k.document b b' (action k)) ∧ ∀ k a, Looks (present k a)

theorem isOnFile_edit (file name : String) {command : Desk → Editor → Action Edit}
    (hcommand : ∀ k e, Handles k.session k.document false false (command k e)) :
    IsOnFile file name (.text <$> editFile file name command) :=
  ⟨Edit, fun k => do command k (Editor.ofFlag (← get).registry.snippets), editText, _, _, rfl,
    fun k => .bind .look fun _ => hcommand k _,
    fun k _ => .bind (.session k.session) fun _ => .done _⟩

theorem isOnFile_of_file? {request : ToolRequest} {file name : String}
    (h : request.file? = some (file, name)) : IsOnFile file name request.action := by
  cases request with
  | load _ force _ =>
    cases h
    refine ⟨Bool, _, _, false, true, rfl, fun k => ?_, fun k loaded => ?_⟩
    · split
      · exact .bind .load fun _ => .done _
      · exact .ensureLoaded
    · exact .bind (.session _) fun session => .bind (.warningsText _ _) fun _ => .done _
  | typeOf _ line column target _ =>
    cases h
    exact ⟨Response, _, _, _, _, rfl, fun k => .typeOf line column target, fun _ _ => .done _⟩
  | complete _ line column _ =>
    cases h
    refine ⟨Option Completion, _, _, _, _, rfl, fun k => .complete line column,
      fun k completion => ?_⟩
    cases completion with
    | none => exact .done _
    | some c => exact .done _
  | edit _ command line column _ =>
    cases command with
    | refine variant stem choices =>
      obtain ⟨v, hv, hfile⟩ := Option.map_eq_some_iff.1 h
      cases hfile
      have haction : (ToolRequest.edit file (.refine variant stem choices) line column
        name).action = .text <$> editFile file name
            fun k e => refine k.session k.document e line column v stem choices := by
        show Answer.text <$> refineTool file line column variant stem choices name = _
        unfold refineTool
        rw [hv]
      rw [haction]
      exact isOnFile_edit file name fun k e => .relax (.refine e line column v stem choices)
    | _ =>
      cases h
      exact isOnFile_edit file name fun k e => .perform e line column _
  | _ => cases h

end ToolRequest

/-- The value of a key after an update. -/
theorem Table.get?_update {κ α : Type} [DecidableEq κ] (t : Table κ α) (k j : κ) (f : α → α) :
    (t.update k f).get? j = if k = j then (t.get? j).map f else t.get? j := by
  induction t with
  | nil => simp [Table.update]
  | cons e rest ih =>
    obtain ⟨i, v⟩ := e
    unfold Table.update at ih ⊢
    rw [List.map_cons]
    by_cases hi : i = k
    · subst hi
      rw [if_pos rfl, Table.get?_cons, Table.get?_cons, ih]
      by_cases hj : i = j <;> simp [hj]
    · rw [if_neg hi, Table.get?_cons, Table.get?_cons, ih]
      by_cases hj : i = j
      · subst hj
        simp [Ne.symm hi]
      · simp [hj]

namespace Tools

open Client Prog

/-! ## Managing sessions -/

/-- What tools do: they list, make and stop sessions, and for the rest they do work of some kind. -/
inductive Manages (W : (α : Type) → Action α → Prop) : {α : Type} → Action α → Prop where
  | work {α : Type} {p : Action α} (hp : W α p) : Manages W p
  | looks {α : Type} {p : Action α} (hp : Looks p) : Manages W p
  | bind {α β : Type} {p : Action α} {f : α → Action β} (hp : Manages W p)
    (hf : ∀ a, Manages W (f a)) : Manages W (p >>= f)
  /-- a change of the registry that gives no session a name -/
  | registry {f : Registry → Registry} (hf : ∀ r name e, (f r).entries.get? name = some e →
      ∃ e', r.entries.get? name = some e' ∧ e.session = e'.session) : Manages W (modifyRegistry f)
  | enter (name : String) (directory : Path) (environment : Option (List (String × String))) :
    Manages W (openSession name directory environment)
  | close (s : Nat) : Manages W (close s)

namespace Manages

variable {W : (α : Type) → Action α → Prop} {α β : Type}

theorem done (r : Result α) : Manages W (.done r) := .looks (.done r)

protected theorem map (f : α → β) {p : Action α} (hp : Manages W p) : Manages W (f <$> p) :=
  .bind hp fun a => .done (.ok (f a))

theorem forget (name : String) :
    Manages W (modifyRegistry fun r => { r with entries := r.entries.erase name }) := by
  refine .registry fun r other e he => ?_
  rw [Table.get?_erase] at he
  split at he
  · cases he
  · exact ⟨e, he, rfl⟩

protected theorem pruneAll (names : List String) : Manages W (pruneAll names) := by
  induction names with
  | nil => exact .done _
  | cons name rest ih =>
    refine .bind (.looks (.entryNamed name)) fun entry => ?_
    split
    · exact ih
    · refine .bind (.looks .now) fun time => ?_
      split
      · exact ih
      · exact .bind (forget name) fun _ => .bind (.close _) fun _ => ih

protected theorem prune : Manages W prune := by
  refine .bind (.looks .now) fun time => .bind (.looks .get) fun w => ?_
  split
  · exact .done _
  · exact .bind (.registry fun r name e he => ⟨e, he, rfl⟩)
      fun _ => .bind (.looks .get) fun w => .pruneAll _

protected theorem entryFor (name : String) (directory : Option Path) :
    Manages W (entryFor name directory) := by
  have huse : ∀ e : Entry, Manages W (touch name e) := by
    refine fun e =>
      .bind (.looks .now) fun time =>
        .bind (.registry fun r other found hfound => ?_) fun _ => .done _
    rw [Table.get?_update] at hfound
    split at hfound
    · obtain ⟨old, hold, rfl⟩ := Option.map_eq_some_iff.1 hfound
      exact ⟨old, hold, rfl⟩
    · exact ⟨found, hfound, rfl⟩
  refine .bind .prune fun _ => .bind (.looks (.entryNamed name)) fun entry => ?_
  split
  · exact .bind (.done _) huse
  · exact .bind (.looks .get) fun w => .bind (.enter name _ none) huse

protected theorem startTool (hstart : ∀ name e p, W String (startIn name e p))
    (directory name : String) (environment : Option (List (String × String))) :
    Manages W (startTool directory name environment) := by
  refine .bind (.looks (.resolve directory)) fun p => .bind (.looks .get) fun w => ?_
  split
  · exact .done _
  · refine .bind (.looks (.entryNamed name)) fun entry => ?_
    split
    · exact .bind (.enter name p environment) fun e => .work (hstart name e p)
    · refine .bind (.looks (.bind .get fun _ => .done _)) fun running => ?_
      split
      · exact .done _
      · split
        · exact .work (hstart name _ p)
        · exact .bind (.close _) fun _ =>
            .bind (.enter name p environment) fun e => .work (hstart name e p)

protected theorem sessionsTool : Manages W sessionsTool := by
  refine .bind .prune fun _ => .bind (.looks .get) fun w => ?_
  dsimp only
  split
  · exact .done _
  · exact .bind (.looks (.sessionLines _)) fun lines => .done _

protected theorem stopTool (name : String) : Manages W (stopTool name) := by
  refine .bind (.looks (.entryNamed name)) fun entry => ?_
  split
  · exact .done _
  · exact .bind (forget name) fun _ => .bind (.close _) fun _ => .done _

protected theorem interruptAll (hinterrupt : ∀ s, W (Result Unit) (interrupt s).attempt)
    (entries : List Entry) : Manages W (interruptAll entries) := by
  induction entries with
  | nil => exact .done _
  | cons e rest ih =>
    refine .bind (.work (hinterrupt e.session)) fun sent => ?_
    split
    · exact ih
    · exact ih
    · exact .done (.error _)

/-- A tool manages sessions, if what it does with a session is work of the kind. -/
protected theorem action (request : ToolRequest) (hstart : ∀ name e p, W String (startIn name e p))
    (hevaluated : ∀ s expression limit, W String (evaluated s expression limit))
    (hinterrupt : ∀ s, W (Result Unit) (interrupt s).attempt)
    (hfile : ∀ file name, ToolRequest.IsOnFile file name request.action → W Answer request.action) :
    Manages W request.action := by
  cases htarget : request.file? with
  | some target => exact .work (hfile _ _ (ToolRequest.isOnFile_of_file? htarget))
  | none =>
    cases request with
    | start directory name environment =>
      exact .map _ (.startTool hstart directory name environment)
    | sessions => exact .map _ .sessionsTool
    | stop name => exact .map _ (.stopTool name)
    | evaluate expression name limit =>
      exact .map _ (.bind (.entryFor name none)
        fun e => .work (hevaluated e.session expression limit))
    | warnings file name => exact .map _ (.looks (.warningsTool file name))
    | edit file command line column name =>
      cases command with
      | refine variant stem choices =>
        have hvariant : Variant.ofText? variant = none := Option.map_eq_none_iff.1 htarget
        show Manages W (Answer.text <$> refineTool file line column variant stem choices name)
        unfold refineTool
        rw [hvariant]
        exact .map _ (.done _)
      | _ => cases htarget
    | interruptAll =>
      exact .bind (.looks .get) fun w => .bind (.interruptAll hinterrupt _) fun _ => .done _
    | snippets on => exact .bind (.registry fun r name e he => ⟨e, he, rfl⟩) fun _ => .done _
    | _ => cases htarget

end Manages

end Tools

end IdeMode
