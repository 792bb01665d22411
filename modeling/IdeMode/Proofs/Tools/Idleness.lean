import IdeMode.Proofs.Tools.Serving
import IdeMode.Proofs.Tools.Stamps
set_option autoImplicit false

/-!
# Only idle sessions are pruned

Tools are asked for in any order and may overlap; in between time passes and processes do what they
like. Whenever a named session is taken away, and not by whoever starts or stops the session of that
name, then nobody used it for two hours: every tool that used it, and has answered or is at work
with it, was asked for before that.
-/

namespace IdeMode

open Client Prog Tools World List

theorem World.Drifts.ages {own : Option String} {w w' : World} (h : Drifts w w')
    (hw : w.Punctual) : Ages own w w' :=
  .of_entries hw (congrArg Registry.entries h.registry_eq) h.clock_le

/-! ## What was asked for -/

/-- A tool that was asked for: its number, the request, and when. -/
structure Asked where
  index : Nat
  request : ToolRequest
  time : Int

/-- What holds once a tool has ended: the session that it used was used when it was asked for, or
later. -/
def Asked.Done (a : Asked) (r : Result Answer) (w : World) : Prop :=
  ∀ name, a.request.uses? = some name → Stamped name a.time r w

theorem Asked.Done.elapses {a : Asked} {r : Result Answer} {w w' : World} (h : a.Done r w)
    (ha : a.time ≤ w.host.clock) (hpassed : Elapses w w') : a.Done r w' := fun name huses =>
  (h name huses).imp_right fun hused => hpassed.usedSince ha hused

/-- The tool of a task is past the look-up of its session: it waits, and not for the exit of a
process, for which the look-up waits when it closes idle sessions. -/
def Task.isUnderway (t : Task) : Bool := t.await.any (!·.isExit)

/-- A move of a server: only tools are asked for, and time does not go back. -/
def Move.IsOfTools : Move → Prop
  | .turn => True
  | .launch _ operation => operation.tool?.isSome
  | .change (.elapse time) => 0 ≤ time
  | .change _ => True

instance : (move : Move) → Decidable move.IsOfTools
  | .turn => .isTrue trivial
  | .launch _ operation => inferInstanceAs (Decidable (operation.tool?.isSome = true))
  | .change (.elapse time) => inferInstanceAs (Decidable (0 ≤ time))
  | .change (.reactions _) | .change (.behaviours _) | .change (.send ..) | .change
    (.release _) | .change (.exit _)
  | .change .close | .change (.writeFault _) | .change (.writeFile ..) | .change (.deleteFile _)
  | .change (.makeDirectory _) => .isTrue trivial

namespace Machine

/-- The tool that is asked for in a move. -/
def asks (m : Machine) : Move → List Asked
  | .launch index (.tool request) => [⟨index, request, m.world.host.clock⟩]
  | _ => []

/-- The tools that are asked for in the course of moves. -/
def asked : Machine → List Move → List Asked
  | _, [] => []
  | m, move :: moves => m.asks move ++ asked (m.move move) moves

/-- The operation whose turn it is. -/
def running? (m : Machine) : Option Nat :=
  match m.world.ready.head? with
  | some (.resume task _) => (m.tasks.find? fun t => t.id = task).bind fun t =>
    match t.role with
    | .job index => some index
    | .loop _ => none
  | _ => none

/-- No session has a name, and nothing was asked for. -/
structure Unasked (m : Machine) : Prop where
  entries_eq : m.world.registry.entries = []
  tasks_eq : m.tasks = []
  finished_eq : m.finished = []

/-! ## Tasks -/

/-- A program that a task may run: a tool that was asked for, or a loop. -/
def Minds (asked : List Asked) (p : Action Ending) (w : World) : Role → Prop
  | .job index => ∃ a ∈ asked, a.index = index ∧ a.time ≤ w.host.clock ∧
    Safe (aging a.request.ends? (a.request.Used a.time)) p
      (fun r w' _ => a.Done (Ending.told r) w') w ()
  | .loop _ => Obeys aloof p

/-- A task goes on with what it is for, and left its stamp if it is past the look-up of its
session. -/
structure Abides (asked : List Asked) (w : World) (t : Task) : Prop where
  minds : ∀ signal w', Elapses w w' → Minds asked (t.next signal) w' t.role
  used : ∀ index, t.role = .job index → t.isUnderway →
      ∃ a ∈ asked, a.index = index ∧ a.time ≤ w.host.clock ∧ a.request.Used a.time w

/-- Every task goes on with what it is for, and every tool that has answered left its stamp. -/
structure Recorded (asked : List Asked) (m : Machine) : Prop where
  punctual : m.world.Punctual
  tasks : ∀ t ∈ m.tasks, Abides asked m.world t
  ended : ∀ index r, (index, r) ∈ m.finished →
    ∃ a ∈ asked, a.index = index ∧ a.time ≤ m.world.host.clock ∧ a.Done r m.world

/-- One move: sessions are taken away only when nobody used them for long, `own` apart. -/
structure Takes (asked : List Asked) (m : Machine) (own : Option String) (m' : Machine) : Prop where
  recorded : Recorded asked m'
  ages : Ages own m.world m'.world

variable {asked : List Asked} {m m' : Machine} {own : Option String} {w w' : World}

theorem Abides.elapses {t : Task} (h : Abides asked w t) (hpassed : Elapses w w') :
    Abides asked w' t := by
  refine ⟨fun signal w'' hw'' => h.minds signal w'' (hpassed.trans hw''),
    fun index hrole hunderway => ?_⟩
  obtain ⟨a, ha, hindex, htime, hused⟩ := h.used index hrole hunderway
  exact ⟨a, ha, hindex, Int.le_trans htime hpassed.clock_le,
    fun name huses => hpassed.usedSince htime (hused name huses)⟩

theorem Recorded.world (h : Recorded asked m) (hpassed : Elapses m.world w) :
    Recorded asked { m with world := w } := by
  refine ⟨hpassed.punctual, fun t ht => (h.tasks t ht).elapses hpassed, fun index r hr => ?_⟩
  obtain ⟨a, ha, hindex, htime, hdone⟩ := h.ended index r hr
  exact ⟨a, ha, hindex, Int.le_trans htime hpassed.clock_le, hdone.elapses htime hpassed⟩

theorem Recorded.takes (h : Recorded asked m) (hages : Ages own m.world w) :
    Takes asked m own { m with world := w } :=
  ⟨h.world hages.toElapses, hages⟩

theorem Recorded.drifts (h : Recorded asked m) (hdrifts : Drifts m.world w) :
    Takes asked m own { m with world := w } :=
  h.takes (hdrifts.ages h.punctual)

/-- Something happens before a move. -/
theorem Takes.after {m₁ : Machine} (h : Takes asked m₁ own m') (hages : Ages own m.world m₁.world) :
    Takes asked m own m' := ⟨h.recorded, hages.trans h.ages⟩

theorem Recorded.filter (h : Recorded asked m) (p : Task → Bool) :
    Recorded asked { m with tasks := m.tasks.filter p } :=
  ⟨h.punctual, fun t ht => h.tasks t (mem_filter.1 ht).1, h.ended⟩

theorem Recorded.add (h : Recorded asked m) {t : Task} (ht : Abides asked m.world t) :
    Recorded asked { m with tasks := m.tasks ++ [t] } := by
  refine ⟨h.punctual, fun u hu => ?_, h.ended⟩
  rcases mem_append.1 hu with hu | hu
  · exact h.tasks u hu
  · exact mem_singleton.1 hu ▸ ht

/-- A task begins to wait. -/
theorem Recorded.suspend (h : Recorded asked m) {t : Task} (on : Await)
    (ht : Abides asked m.world { t with await := some on }) :
    Takes asked m own (suspend m t on) := by
  have hdrifts := (proceeds_suspend m t on).drifts
  have hages : Ages own m.world (Machine.suspend m t on).world := hdrifts.ages h.punctual
  have habides := ht.elapses hages.toElapses
  exact ⟨(h.world hages.toElapses).add ⟨habides.minds, habides.used⟩, hages⟩

/-- What a task ends with. -/
def owned (asked : List Asked) (own : Option String) (role : Role) : Prop :=
  own = none ∨ ∃ a ∈ asked, role = .job a.index ∧ own = a.request.ends?

/-- A task goes on to its next wait or its end. -/
theorem Recorded.advance (h : Recorded asked m) (task : Nat) {role : Role} {p : Action Ending}
    (hp : Minds asked p m.world role) :
    ∃ own, owned asked own role ∧ Takes asked m own (advance m task role p) := by
  unfold Machine.advance
  cases role with
  | job index =>
    obtain ⟨a, ha, rfl, htime, hsafe⟩ := hp
    obtain ⟨_, hages, hhalt⟩ := Safe.run (D := aging a.request.ends? (a.request.Used a.time))
      (I := fun w _ => Ages a.request.ends? m.world w)
      (fun w _ w' _ hw hstep => hw.trans hstep) hsafe (.refl h.punctual)
    refine ⟨a.request.ends?, .inr ⟨a, ha, rfl, rfl⟩, ?_⟩
    generalize p.run m.world = halt at hages hhalt
    obtain ⟨halt, w⟩ := halt
    have hworld : Recorded asked { m with world := w } := h.world hages.toElapses
    have hlater : a.time ≤ w.host.clock := Int.le_trans htime hages.clock_le
    cases halt with
    | finished r =>
      show Takes asked m a.request.ends? (finish { m with world := w } task (.job a.index) r)
      rw [finish_job]
      refine ⟨⟨hages.punctual, hworld.tasks, fun index r' hr => ?_⟩, hages⟩
      rcases mem_append.1 hr with hr | hr
      · exact hworld.ended index r' hr
      · cases mem_singleton.1 hr
        exact ⟨a, ha, rfl, hlater, hhalt⟩
    | waiting on deadline next =>
      refine (hworld.suspend on ⟨fun signal w' hw' => ?_, fun index hrole hunderway => ?_⟩).after
        hages
      · exact ⟨a, ha, rfl, Int.le_trans hlater hw'.clock_le, hhalt.2 signal w' () hw'⟩
      · cases hrole
        refine ⟨a, ha, rfl, hlater, hhalt.1.resolve_left fun hexit => ?_⟩
        rw [Task.isUnderway, Option.any_some, hexit] at hunderway
        cases hunderway
  | loop service =>
    obtain ⟨_, hkept, hhalt⟩ := Safe.run (D := aloof) (I := fun w _ => KeepsEntries m.world w)
      (fun w _ w' _ hw hstep => hw.trans hstep) (hp m.world) (.refl m.world)
    refine ⟨none, .inl rfl, ?_⟩
    generalize p.run m.world = halt at hkept hhalt
    obtain ⟨halt, w⟩ := halt
    have hages : Ages none m.world w := hkept.ages h.punctual
    have hworld : Recorded asked { m with world := w } := h.world hages.toElapses
    cases halt with
    | finished r =>
      have hover : Takes asked m none { m with world := retire w service } :=
        (hworld.drifts (proceeds_retire w service).drifts).after hages
      have hagain : Takes asked m none
          { m with world := { w with ready := .serve task service :: w.ready } } :=
        (hworld.drifts (drifts_dequeue w _)).after hages
      show Takes asked m none (finish { m with world := w } task (.loop service) r)
      rcases finish_loop { m with world := w } task service r with ⟨-, heq⟩ | ⟨-, heq⟩
      · exact heq ▸ hagain
      · exact heq ▸ hover
    | waiting on deadline next =>
      refine (hworld.suspend on ⟨?_, fun index hrole => by cases hrole⟩).after hages
      exact fun signal w' _ w'' => hhalt.2 signal w'' () trivial

/-- A task that was told of something goes on, waits again, or is no longer wanted. -/
theorem Recorded.resume (h : Recorded asked m) {task : Nat} {t : Task} (signal : Signal)
    (hfind : m.tasks.find? (fun t => t.id = task) = some t) :
    ∃ own, owned asked own t.role ∧ Takes asked m own (resume m task signal) := by
  have hmem : t ∈ m.tasks := mem_of_find?_eq_some hfind
  have hack := (proceeds_acknowledge m.world t).drifts
  let left : Machine :=
    { m with world := acknowledge m.world t, tasks := m.tasks.filter fun t => t.id ≠ task }
  have hpassed : ∀ own, Ages own m.world left.world := fun _ => hack.ages h.punctual
  have hleft : Recorded asked left := (h.world (hpassed none).toElapses).filter _
  have habides : Abides asked left.world t := (h.tasks t hmem).elapses (hpassed none).toElapses
  have hgo : ∃ own, owned asked own t.role ∧
      Takes asked left own (Machine.advance left task t.role (t.next signal)) :=
    hleft.advance task (habides.minds signal left.world (.refl hleft.punctual))
  have hagain : ∀ on, Takes asked left none
      { left with world := enroll left.world task on, tasks := left.tasks ++ [t] } := by
    intro on
    have hages : Ages none left.world (enroll left.world task on) :=
      (proceeds_enroll left.world task on).drifts.ages hleft.punctual
    exact ⟨(hleft.world hages.toElapses).add (habides.elapses hages.toElapses), hages⟩
  have hresumed : ∃ own, owned asked own t.role ∧
      Takes asked left own (Machine.resume m task signal) := by
    rcases resume_of_some signal hfind with ⟨-, heq⟩ | ⟨-, ⟨c, count, -, -, heq⟩ | ⟨-, heq⟩⟩
    · exact heq ▸ ⟨none, .inl rfl, hleft, .refl hleft.punctual⟩
    · exact heq ▸ ⟨none, .inl rfl, hagain _⟩
    · exact heq ▸ hgo
  obtain ⟨own, howned, htakes⟩ := hresumed
  exact ⟨own, howned, htakes.after (hpassed _)⟩

/-! ## Moves -/

/-- The sessions that may be taken away in a move: the one that the tool whose turn it is starts or
stops. -/
def MayEnd (m : Machine) (asked : List Asked) (own : Option String) : Prop :=
  own = none ∨ ∃ a ∈ asked, m.running? = some a.index ∧ own = a.request.ends?

theorem Recorded.turn (h : Recorded asked m) :
    ∃ own, MayEnd m asked own ∧ Takes asked m own (m.move .turn) := by
  cases hready : m.world.ready with
  | nil =>
    have hsame : m.move .turn = m := by
      show m.turn.getD m = m
      unfold Machine.turn
      rw [hready]
      rfl
    rw [hsame]
    exact ⟨none, .inl rfl, h, .refl h.punctual⟩
  | cons e rest =>
    let first : Machine := m.withQueue rest
    have hserve : m.move .turn = serve first e := by
      show m.turn.getD m = serve first e
      unfold Machine.turn
      rw [hready]
      rfl
    have hpassed : ∀ own, Ages own m.world first.world :=
      fun _ => (drifts_dequeue m.world rest).ages h.punctual
    have hfirst : Recorded asked first := h.world (hpassed none).toElapses
    have hworld : ∀ {w}, Drifts first.world w →
        ∃ own, MayEnd m asked own ∧ Takes asked m own { first with world := w } :=
      fun hdrifts => ⟨none, .inl rfl, (hfirst.drifts hdrifts).after (hpassed _)⟩
    rw [hserve]
    cases e with
    | serve task service =>
      show ∃ own, _ ∧ Takes asked m own
        (if isDismissed first.world task (.loop service) then first else _)
      split
      · exact hworld (.refl first.world)
      · have hround : Minds asked (Ending.round <$> Client.serve service) first.world
            (.loop service) :=
          .bind (aloof_serve service) fun _ => .done _
        obtain ⟨own, howned, htakes⟩ := hfirst.advance task hround
        refine ⟨own, .inl ?_, htakes.after (hpassed _)⟩
        rcases howned with hnone | ⟨a, -, hrole, -⟩
        · exact hnone
        · cases hrole
    | resume task signal =>
      show ∃ own, _ ∧ Takes asked m own (Machine.resume first task signal)
      cases hfind : m.tasks.find? fun t => t.id = task with
      | none =>
        rw [resume_of_none signal (show first.tasks.find? (fun t => t.id = task) = none from hfind)]
        exact hworld (.refl first.world)
      | some t =>
        obtain ⟨own, howned, htakes⟩ := hfirst.resume signal hfind
        refine ⟨own, howned.imp_right ?_, htakes.after (hpassed _)⟩
        rintro ⟨a, ha, hrole, hown⟩
        refine ⟨a, ha, ?_, hown⟩
        unfold running?
        rw [hready]
        show ((m.tasks.find? fun t => t.id = task).bind _) = _
        rw [hfind, Option.bind_some, hrole]
    | relay task signal => exact hworld (proceeds_enqueue_resume first.world task signal).drifts
    | settle s call outcome =>
      have hkept := keepsEntries_settle first.world s call.addressee outcome
      exact ⟨none, .inl rfl, (hfirst.takes (hkept.ages hfirst.punctual)).after (hpassed _)⟩
    | skip label => exact hworld (proceeds_report first.world _).drifts

theorem Recorded.expire (h : Recorded asked m) (t : Task) :
    Takes asked m own (Machine.expire m t) := by
  have hdrifts : Drifts m.world (Machine.expire m t).world := by
    unfold Machine.expire
    split
    · exact ((proceeds_giveUp _ _ _).trans (proceeds_enqueue_resume _ _ _)).drifts
    · exact (proceeds_enqueue_resume _ _ _).drifts
  have hages : Ages own m.world (Machine.expire m t).world := hdrifts.ages h.punctual
  have hworld := h.world hages.toElapses
  refine ⟨⟨hages.punctual, fun u hu => ?_, hworld.ended⟩, hages⟩
  obtain ⟨v, hv, hsame⟩ := mem_tasks_expire hu
  obtain ⟨hminds, hused⟩ := hworld.tasks v hv
  rw [← hsame.role_eq, ← hsame.next_eq] at hminds
  refine ⟨hminds, fun index hrole hunderway => hused index (hsame.role_eq ▸ hrole) ?_⟩
  rwa [Task.isUnderway, ← hsame.await_eq]

/-- What happens from outside takes no session away. -/
theorem Recorded.undergo (h : Recorded asked m) {change : Change}
    (hchange : (Move.change change).IsOfTools) : Takes asked m own (m.undergo change) := by
  obtain ⟨time, rfl⟩ | ⟨w, hw, host, harranges, hstirs, -⟩ := befalls_of_undergo m change
  · have hfirst : Takes asked m own { m with
        world :=
          { m.world with host := { m.world.host with clock := m.world.host.clock + time } } } :=
      h.takes (.of_entries h.punctual rfl (Int.le_add_of_nonneg_right hchange))
    exact elapse_induction (P := Takes asked m own) time hfirst fun m₁ t htakes _ =>
      (htakes.recorded.expire t).after htakes.ages
  · have hhost : KeepsEntries m.world { m.world with host := host } := ⟨rfl, harranges.clock_eq⟩
    exact hw ▸ h.takes ((hhost.trans hstirs.keepsEntries).ages h.punctual)

theorem Minds.more {p : Action Ending} {role : Role} {more : List Asked}
    (h : Minds asked p w role) : Minds (asked ++ more) p w role := by
  cases role with
  | job index =>
    obtain ⟨a, ha, hrest⟩ := h
    exact ⟨a, mem_append_left _ ha, hrest⟩
  | loop service => exact h

theorem Recorded.more (h : Recorded asked m) (more : List Asked) : Recorded (asked ++ more) m := by
  refine ⟨h.punctual, fun t ht => ⟨fun signal w hw => ((h.tasks t ht).minds signal w hw).more, ?_⟩,
    fun index r hr => ?_⟩
  · intro index hrole hunderway
    obtain ⟨a, ha, hrest⟩ := (h.tasks t ht).used index hrole hunderway
    exact ⟨a, mem_append_left _ ha, hrest⟩
  obtain ⟨a, ha, hrest⟩ := h.ended index r hr
  exact ⟨a, mem_append_left _ ha, hrest⟩

/-- A tool is asked for. -/
theorem Recorded.launch (h : Recorded asked m) (index : Nat) (request : ToolRequest) :
    Takes (asked ++ [⟨index, request, m.world.host.clock⟩]) m own
      (m.launch index request.action) := by
  let a : Asked := ⟨index, request, m.world.host.clock⟩
  have hages : Ages own m.world (m.launch index request.action).world :=
    .of_entries h.punctual rfl (Int.le_refl _)
  refine ⟨((h.more [a]).world hages.toElapses).add
    ⟨fun signal w hw => ?_, fun _ _ hunderway => by cases hunderway⟩, hages⟩
  have hpassed : Elapses m.world w := hages.toElapses.trans hw
  refine ⟨a, mem_concat_self, rfl, hpassed.clock_le, ?_⟩
  refine Safe.bind ((request.aging_action hpassed.punctual hpassed.clock_le).mono
    fun r w' _ hstamped => ?_)
  have hdone : a.Done r w' := fun name huses =>
    (hstamped name huses).imp_right fun hused e he => Int.le_trans hpassed.clock_le (hused e he)
  cases r with
  | ok answer => exact hdone
  | error f => exact hdone

/-! ## Runs -/

theorem Recorded.move (h : Recorded asked m) {move : Move} (hmove : move.IsOfTools) :
    ∃ own, MayEnd m asked own ∧ Takes (asked ++ m.asks move) m own (m.move move) := by
  cases move with
  | turn =>
    obtain ⟨own, hmay, htakes⟩ := h.turn
    exact ⟨own, hmay, htakes.recorded.more _, htakes.ages⟩
  | launch index operation =>
    cases operation with
    | tool request => exact ⟨none, .inl rfl, h.launch index request⟩
    | session s request => cases hmove
    | process s request => cases hmove
  | change c =>
    have htakes : Takes asked m none (m.undergo c) := h.undergo hmove
    exact ⟨none, .inl rfl, htakes.recorded.more _, htakes.ages⟩

theorem Recorded.follow {moves : List Move} (h : Recorded asked m)
    (hmoves : ∀ move ∈ moves, move.IsOfTools) :
    Recorded (asked ++ m.asked moves) (m.follow moves) := by
  induction moves generalizing m asked with
  | nil => exact h.more _
  | cons move moves ih =>
    obtain ⟨own, -, htakes⟩ := h.move (hmoves move mem_cons_self)
    have hrest := ih htakes.recorded fun move' hmove' => hmoves move' (mem_cons_of_mem move hmove')
    rw [append_assoc] at hrest
    exact hrest

theorem Unasked.recorded (hm : m.Unasked) : Recorded [] m := by
  refine ⟨fun name e he => ?_, fun t ht => ?_, fun index r hr => ?_⟩
  · rw [hm.entries_eq] at he
    cases he
  · rw [hm.tasks_eq] at ht
    cases ht
  · rw [hm.finished_eq] at hr
    cases hr

/-- A session that is taken away, and not by whoever starts or stops the session of its name, was
neither made nor used for two hours: whatever tool used it, and has answered or is at work with it,
was asked for before that. -/
theorem only_idle_sessions_pruned {moves : List Move} {move : Move} {name : String} {e : Entry}
    (hm : m.Unasked) (hmoves : ∀ x ∈ moves, x.IsOfTools) (hmove : move.IsOfTools)
    (hnumbers : ((m.asked moves).map Asked.index).Nodup)
    (hnamed : (m.follow moves).world.registry.entries.get? name = some e)
    (hgone : ∀ e', ((m.follow moves).move move).world.registry.entries.get? name = some e' →
      e'.session ≠ e.session)
    (hpruned : ∀ a ∈ m.asked moves, (m.follow moves).running? = some a.index →
      a.request.ends? ≠ some name) :
    idleLimit < ((m.follow moves).move move).world.host.clock - e.lastUsed ∧
      idleLimit < ((m.follow moves).move move).world.host.clock - e.started ∧
      ∀ a ∈ m.asked moves, a.request.uses? = some name →
        (∀ r, (a.index, r) ∈ (m.follow moves).finished → ¬ FailsToStop r →
          idleLimit < ((m.follow moves).move move).world.host.clock - a.time) ∧
        ∀ t ∈ (m.follow moves).tasks, t.role = .job a.index → t.isUnderway →
          idleLimit < ((m.follow moves).move move).world.host.clock - a.time := by
  have hrecorded : Recorded (m.asked moves) (m.follow moves) := hm.recorded.follow hmoves
  obtain ⟨own, hmay, htakes⟩ := hrecorded.move hmove
  have hidle : idleLimit < ((m.follow moves).move move).world.host.clock - e.lastUsed := by
    rcases htakes.ages.kept name e hnamed with ⟨e', he', hsame, -⟩ | hidle | hown
    · exact absurd hsame (hgone e' he')
    · exact hidle
    · subst hown
      rcases hmay with hnone | ⟨a, ha, hrunning, hends⟩
      · cases hnone
      · exact absurd hends.symm (hpruned a ha hrunning)
  obtain ⟨hmade, -⟩ := hrecorded.punctual name e hnamed
  -- Numbers are given once, so the tool that answered or waits under this one is the one that was
  -- asked for.
  refine ⟨hidle, by omega, fun a ha huses => ⟨fun r hr hfine => ?_, fun t ht hrole hunderway => ?_⟩⟩
  · obtain ⟨b, hb, hindex, -, hdone⟩ := hrecorded.ended a.index r hr
    obtain rfl : a = b := inj_on_of_nodup_map hnumbers ha hb hindex.symm
    have hused : a.time ≤ e.lastUsed := (hdone name huses).resolve_left hfine e hnamed
    omega
  · obtain ⟨b, hb, hindex, -, hdone⟩ := (hrecorded.tasks t ht).used a.index hrole hunderway
    obtain rfl : a = b := inj_on_of_nodup_map hnumbers ha hb hindex.symm
    have hused : a.time ≤ e.lastUsed := hdone name huses e hnamed
    omega

/-- A server whose compiler does not answer by itself. -/
def silentServer : Machine where
  world := { host := { cwd := ⟨[]⟩, reactions := [("interpret", [{}])] } }

/-- An expression is evaluated, and the sessions are to be listed more than two hours later. -/
def longAgo : List Move :=
  .launch 0 (.tool (.evaluate "1" "a" (.whole 30))) :: List.replicate 4 .turn ++
    answeredBy "(:return (:ok \"\") 1)" 4 ++ [.change (.elapse (7201 * Duration.second)),
      .launch 1 (.tool .sessions)]

/-- The next turn takes the session away, which was used by the evaluation. -/
theorem only_idle_sessions_pruned_listed : silentServer.Unasked ∧ (∀ x ∈ longAgo, x.IsOfTools) ∧
    ∃ e, (silentServer.follow longAgo).world.registry.entries.get? "a" = some e ∧
      ((silentServer.follow longAgo).move .turn).world.registry.entries.get? "a" = none ∧
      idleLimit < ((silentServer.follow longAgo).move .turn).world.host.clock - e.lastUsed ∧
      ∃ a ∈ silentServer.asked longAgo, a.request.uses? = some "a" ∧
        (∃ r, (a.index, r) ∈ (silentServer.follow longAgo).finished) ∧
        idleLimit < ((silentServer.follow longAgo).move .turn).world.host.clock - a.time := by
  have hm : silentServer.Unasked := ⟨rfl, rfl, rfl⟩
  have hmoves : ∀ x ∈ longAgo, x.IsOfTools := by decide +kernel
  have hnumbers : ((silentServer.asked longAgo).map Asked.index).Nodup := by decide +kernel
  have hsome : ((silentServer.follow longAgo).world.registry.entries.get? "a").isSome := by
    decide +kernel
  have hnone : (((silentServer.follow longAgo).move .turn).world.registry.entries.get?
    "a").isNone := by decide +kernel
  have hpruned : ∀ a ∈ silentServer.asked longAgo,
    (silentServer.follow longAgo).running? = some a.index →
      a.request.ends? ≠ some "a" := by decide +kernel
  have huse : ∃ a ∈ silentServer.asked longAgo, a.request.uses? = some "a" ∧
      ∃ x ∈ (silentServer.follow longAgo).finished, x.1 = a.index ∧ x.2.isOk = true := by
        decide +kernel
  obtain ⟨e, he⟩ := Option.isSome_iff_exists.1 hsome
  have hgone := Option.isNone_iff_eq_none.1 hnone
  obtain ⟨hidle, -, hasked⟩ :=
    only_idle_sessions_pruned hm hmoves (show Move.turn.IsOfTools from trivial) hnumbers he
    (fun e' he' => by cases hgone.symm.trans he') hpruned
  obtain ⟨a, ha, huses, ⟨_, r⟩, hr, rfl, hok⟩ := huse
  refine ⟨hm, hmoves, e, he, hgone, hidle, a, ha, huses, ⟨r, hr⟩, (hasked a ha huses).1 r hr ?_⟩
  rintro ⟨f, rfl, -⟩
  cases hok

end Machine

end IdeMode
