import IdeMode.Proofs.Tools.Serving
set_option autoImplicit false

/-!
# Visits of tools

Whoever watches a server sees one visit of a tool after another. A tool runs from the world that it
enters to the one that it leaves, with waits in between; between visits processes and calls go on
and files change. What holds of every server is proved along the sequence of its visits.
-/

namespace IdeMode

open Tools List

/-! ## Sequences of visits -/

/-- A tool that was asked for and has answered: the worlds in which it began and ended, and the
waits before its visit and up to its end. -/
structure Visit where
  request : ToolRequest
  entered : World
  before : List Pause
  result : Result Answer
  left : World
  after : List Pause

/-- A server was visited. Between the visits processes and calls go on, and files change. -/
inductive Held : List Visit → World → List Pause → Prop where
  | start {w : World} (hcwd : w.host.cwd.IsNormal) (hsessions : w.sessions = [])
    (hentries : w.registry.entries = []) : Held [] w []
  | visit {visits : List Visit} {w w' : World} {h h' : List Pause} {request : ToolRequest}
    {r : Result Answer} (hheld : Held visits w h) (hran : Ran request.action w h r w' h') :
    Held (visits ++ [⟨request, w, h, r, w', h'⟩]) w' h'
  | drift {visits : List Visit} {w w' : World} {h : List Pause} (hheld : Held visits w h)
    (hdrifts : w.Drifts w') : Held visits w' h
  | write {visits : List Visit} {w : World} {h : List Pause} (hheld : Held visits w h)
    (disk : Disk) : Held visits { w with host := { w.host with disk := disk } } h

/-- A server without sessions knows nothing. -/
theorem known_start {w : World} (hcwd : w.host.cwd.IsNormal) (hsessions : w.sessions = [])
    (hentries : w.registry.entries = []) : Known w [] := by
  have hblank : ∀ s, w.session s = {} := by
    intro s
    rw [World.session, hsessions]
    rfl
  refine ⟨hcwd, fun name e he => ?_, fun _ _ => rfl, fun s => ?_, fun s x hx => ?_⟩
  · rw [hentries] at he
    cases he
  · rw [hblank s]
    refine ⟨fun d doc hdoc => ?_, fun c hc => ?_, fun d hd => ?_⟩
    · cases hdoc
    · cases hc
    · cases hd
  · cases hx

/-- Whatever tools were asked for, what sessions know agrees with the history. -/
theorem Held.known {visits : List Visit} {w : World} {h : List Pause}
    (hheld : Held visits w h) : Known w h := by
  induction hheld with
  | start hcwd hsessions hentries => exact known_start hcwd hsessions hentries
  | visit _ hran ih => exact (hran.of_safe (keeps_action _ _ _ ih)).1
  | drift _ hdrifts ih => exact ih.drifts hdrifts
  | write _ disk ih => exact ih.modifyDisk disk

/-- What a visit enters is known, and the visit is a run of its tool. -/
theorem Held.ran {visits : List Visit} {w : World} {h : List Pause}
    (hheld : Held visits w h) {v : Visit} (hv : v ∈ visits) :
    Known v.entered v.before ∧ Ran v.request.action v.entered v.before v.result v.left v.after := by
  induction hheld with
  | start => cases hv
  | visit hbefore hran ih =>
    rcases mem_append.1 hv with hv | hv
    · exact ih hv
    · obtain rfl := mem_singleton.1 hv
      exact ⟨hbefore.known, hran⟩
  | drift _ _ ih => exact ih hv
  | write _ _ ih => exact ih hv

namespace Machine

/-! ## Watching -/

/-- What is seen of a server: the waits that are over, the tool that was asked for last, where it
began and where its last wait began, and the visits that are over. -/
structure Watch where
  history : List Pause := []
  asked : Option ToolRequest := none
  entered : Option (World × List Pause) := none
  found : Option World := none
  visits : List Visit := []

/-- The history when a tool goes on. -/
def Watch.resumed (g : Watch) (t : Task) (w : World) : List Pause :=
  match t.await, g.found with
  | some on, some found => g.history ++ [⟨on, found, w⟩]
  | _, _ => g.history

/-- A tool goes on, to its next wait or its end. -/
def Watch.resume (g : Watch) (t : Task) (signal : Signal) (w : World) : Watch :=
  let history := g.resumed t w
  let entered := g.entered.getD (w, g.history)
  match (t.next signal).run w with
  | (.finished r, w') =>
    let done :=
      g.asked.map fun request => ⟨request, entered.1, entered.2, Ending.told r, w', history⟩
    { history := history, visits := g.visits ++ done.toList }
  | (.waiting .., w') => { g with history := history, entered := some entered, found := some w' }

/-- What is seen of a move. A tool goes on when its turn comes, unless it was told too early. -/
def watch (m : Machine) (g : Watch) : Move → Watch
  | .turn =>
    match m.world.ready with
    | .resume task signal :: rest =>
      match m.tasks.find? fun t => t.id = task with
      | some t =>
        let w := acknowledge { m.world with ready := rest } t
        if t.role.asks && !isPremature w t signal then g.resume t signal w else g
      | none => g
    | _ => g
  | .launch _ operation => { g with asked := operation.tool? }
  | .change _ => g

/-- What is seen of a run. -/
def watchAll : Machine → Watch → List Move → Watch
  | _, g, [] => g
  | m, g, move :: moves => watchAll (m.move move) (m.watch g move) moves

/-- The visits of a run. -/
def visits (m : Machine) (moves : List Move) : List Visit := (m.watchAll {} moves).visits

/-! ## Between two turns of a tool -/

open Client Prog World

/-- A program is what is left of a tool that began elsewhere. -/
structure Resumes (request : ToolRequest) (w₀ : World) (h₀ : List Pause)
    (p : Action Ending) (w : World) (h : List Pause) : Prop where
  safe : Safe following p (fun _ _ _ => True) w h
  ran : ∀ r w' h', Ran p w h r w' h' → Ran (Ending.answer <$> request.action) w₀ h₀ r w' h'

variable {request : ToolRequest} {w₀ w w' : World} {h₀ h : List Pause} {p : Action Ending}

theorem resumes_action (hknown : Known w h) (request : ToolRequest) :
    Resumes request w h (Ending.answer <$> request.action) w h := by
  refine ⟨?_, fun r w' h' hran => hran⟩
  exact ((keeps_action request).bind (fun _ => .done _) w h hknown).mono fun _ _ _ _ => trivial

/-- A tool that ended without a further wait has paid its visit. -/
theorem Resumes.ends (hp : Resumes request w₀ h₀ p w h) {r : Result Ending}
    (hrun : p.run w = (.finished r, w')) : Ran request.action w₀ h₀ (Ending.told r) w' h := by
  obtain ⟨a, hran, rfl⟩ := ran_map (hp.ran r w' h (ran_of_finished hrun h))
  cases a <;> exact hran

/-- A tool that waits goes on from wherever its wait ends. -/
theorem Resumes.waits (hp : Resumes request w₀ h₀ p w h) {on : Await} {deadline : Option Int}
    {next : Signal → Action Ending} (hrun : p.run w = (.waiting on deadline next, w'))
    (signal : Signal) {w₂ : World} (hdrifts : Drifts w' w₂) :
    Resumes request w₀ h₀ (next signal) w₂ (h ++ [⟨on, w', w₂⟩]) := by
  refine ⟨?_, fun r w'' h'' hran => hp.ran r w'' h'' (ran_of_waiting hrun hdrifts hran)⟩
  obtain ⟨h', rfl, hhalt⟩ := Safe.run (D := following) (I := fun _ h' => h' = h)
    (fun _ _ _ _ hh hstep => hstep.1.trans hh) hp.safe rfl
  rw [hrun] at hhalt
  exact hhalt.2 signal w₂ _ ⟨hdrifts, rfl⟩

/-! ## How a server stands -/

/-- The task of a tool as it is watched: it is about to begin, or waits since the world was as it
was found. -/
inductive UnderWay (m : Machine) (g : Watch) (j : Task) : Prop where
  | asked {request : ToolRequest} (hasked : g.asked = some request) (hentered : g.entered = none)
    (hfound : g.found = none) (hheld : Held g.visits m.world g.history) (hawait : j.await = none)
    (hnext : j.next = fun _ => Ending.answer <$> request.action)
  | waits {request : ToolRequest} {on : Await} {w₀ w₁ : World} {h₀ : List Pause}
    (hasked : g.asked = some request) (hentered : g.entered = some (w₀, h₀))
    (hfound : g.found = some w₁) (hheld : Held g.visits w₀ h₀)
    (hawait : j.await = some on) (hdrifts : Drifts w₁ m.world)
    (hresumes : ∀ signal w₂, Drifts w₁ w₂ →
      Resumes request w₀ h₀ (j.next signal) w₂ (g.history ++ [⟨on, w₁, w₂⟩]))

/-- What is seen while no tool is under way. -/
structure Rests (m : Machine) (g : Watch) : Prop where
  held : Held g.visits m.world g.history
  entered_eq : g.entered = none
  found_eq : g.found = none

/-- How a server stands: it has told the answers of the visits, and no tool is under way, or one
is. -/
inductive Stands (m : Machine) (g : Watch) : Prop where
  | rest (htold : m.finished.map Prod.snd = g.visits.map Visit.result) (hattends : Attends m none)
    (hrests : Rests m g)
  | works {j : Task} (htold : m.finished.map Prod.snd = g.visits.map Visit.result)
    (hattends : Attends m (some j)) (hjob : UnderWay m g j)

variable {m m' : Machine} {g : Watch} {j j' : Task}

/-- While the background goes on, the tool stays where it is. -/
theorem UnderWay.drift (hjob : UnderWay m g j) (hdrifts : Drifts m.world m'.world)
    (hsame : j'.Same j) : UnderWay m' g j' := by
  cases hjob with
  | asked hasked hentered hfound hheld hawait hnext =>
    exact .asked hasked hentered hfound (hheld.drift hdrifts) (hsame.await_eq.trans hawait)
      (hsame.next_eq.trans hnext)
  | waits hasked hentered hfound hheld hawait hlast hresumes =>
    refine .waits hasked hentered hfound hheld (hsame.await_eq.trans hawait)
      (hlast.trans hdrifts) ?_
    rw [hsame.next_eq]
    exact hresumes

theorem Stands.goes {job job' : Option Task} (hgoes : Goes m job m' job')
    (htold : m.finished.map Prod.snd = g.visits.map Visit.result) (hrests : job = none → Rests m g)
    (hjob : ∀ j, job = some j → UnderWay m g j) : Stands m' g := by
  have hsame := hgoes.same
  have hattends := hgoes.attends
  rw [← hgoes.finished_eq] at htold
  cases hsame with
  | none =>
    have hrests := hrests rfl
    exact .rest htold hattends ⟨hrests.held.drift hgoes.drifts, hrests.entered_eq, hrests.found_eq⟩
  | some hsame => exact .works htold hattends ((hjob _ rfl).drift hgoes.drifts hsame)

variable {signal : Signal} {rest : List Wake}

/-- Only a tool that is under way is seen when it goes on. -/
theorem watch_turn_of_loop {job : Option Task} {e : Wake} (hattends : Attends m job)
    (hready : m.world.ready = e :: rest)
    (hloop : ∀ j signal, job = some j → e ≠ .resume j.id signal) : m.watch g .turn = g := by
  unfold watch
  rw [hready]
  dsimp only
  split
  · next task signal rest' heq =>
    obtain ⟨rfl, rfl⟩ := List.cons.inj heq
    split
    · next t hfind =>
      obtain ⟨ht, rfl⟩ := find?_spec hfind
      rcases hattends.loops t ht with hisLoop | hjob
      · rw [hisLoop.role]
        rfl
      · exact absurd rfl (hloop t signal hjob)
    · rfl
  · rfl

theorem rest_of_stands (hm : Stands m g) (hrest : m.AtRest) :
    m.finished.map Prod.snd = g.visits.map Visit.result ∧ Attends m none ∧ Rests m g := by
  cases hm with
  | rest htold hattends hrests => exact ⟨htold, hattends, hrests⟩
  | works _ hattends _ =>
    obtain ⟨hmem, hasks⟩ := hattends.present _ rfl
    cases (hrest _ hmem).symm.trans hasks

theorem resume_of_finished {t : Task} {r : Result Ending}
    (hrun : (t.next signal).run w = (.finished r, w'))
    (hasked : g.asked = some request) (hentered : g.entered.getD (w, g.history) = (w₀, h₀)) :
    g.resume t signal w =
      { history := g.resumed t w, visits := g.visits ++ [⟨request, w₀, h₀, Ending.told r, w',
        g.resumed t w⟩] } := by
  unfold Watch.resume
  rw [hrun, hasked, hentered]
  rfl

theorem resume_of_waiting {t : Task} {on : Await} {deadline : Option Int}
    {next : Signal → Action Ending} (hrun : (t.next signal).run w = (.waiting on deadline next, w'))
    (hentered : g.entered.getD (w, g.history) = (w₀, h₀)) : g.resume t signal w =
      { g with history := g.resumed t w, entered := some (w₀, h₀), found := some w' } := by
  unfold Watch.resume
  rw [hrun, hentered]

/-- A tool that goes on pays its visit or waits again. -/
theorem Stands.step {index : Nat} {t : Task} (hstep : Step m index (t.next signal) m')
    (htold : m.finished.map Prod.snd = g.visits.map Visit.result) (hasked : g.asked = some request)
    (hentered : g.entered.getD (m.world, g.history) = (w₀, h₀)) (hheld : Held g.visits w₀ h₀)
    (hresumes : Resumes request w₀ h₀ (t.next signal) m.world (g.resumed t m.world)) :
    Stands m' (g.resume t signal m.world) := by
  cases hstep with
  | ends hrun hattends =>
    rw [resume_of_finished hrun hasked hentered]
    refine .rest ?_ ?_ ⟨hheld.visit (hresumes.ends hrun), rfl, rfl⟩
    · rw [map_append, map_append, htold]
      rfl
    · exact ⟨hattends.orderly, hattends.numbered, hattends.queued, hattends.loops,
        nofun, nofun, nofun⟩
  | waits hrun hattends hawait hnext hdrifts hfinished =>
    rw [resume_of_waiting hrun hentered]
    refine .works (hfinished ▸ htold) hattends
      (.waits hasked rfl rfl hheld hawait hdrifts fun signal' w₂ hdrifts' => ?_)
    rw [hnext]
    exact hresumes.waits hrun signal' hdrifts'

theorem find?_job (hattends : Attends m (some j)) : m.tasks.find? (fun t => t.id = j.id) = some j :=
  find?_of_unique (hattends.present j rfl).1 (hattends.alone j rfl)

theorem role_job (hattends : Attends m (some j)) : ∃ index, j.role = .job index := by
  have hasks := (hattends.present j rfl).2
  cases hrole : j.role with
  | job index => exact ⟨index, rfl⟩
  | loop service =>
    rw [hrole] at hasks
    cases hasks

/-- The turn of the tool: it waits again if it was told too early, and else goes on. -/
theorem Stands.resumeJob (htold : m.finished.map Prod.snd = g.visits.map Visit.result)
    (hattends : Attends m (some j)) (hjob : UnderWay m g j) (signal : Signal) :
    Stands (resume m j.id signal) (if isPremature (acknowledge m.world j) j signal then g
      else g.resume j signal (acknowledge m.world j)) := by
  obtain ⟨index, hrole⟩ := role_job hattends
  have hack := proceeds_acknowledge m.world j
  obtain ⟨hleft, hvacant⟩ := (hattends.proceed hack.order).without
  rcases resume_of_some signal (find?_job hattends) with
    ⟨hdismissed, -⟩ | ⟨-, ⟨c, count, houtput, hpremature, hresume⟩ | ⟨hprompt, hresume⟩⟩
  · rw [hrole] at hdismissed
    cases hdismissed
  · rw [hresume, if_pos hpremature]
    cases hjob with
    | asked _ _ _ _ hawait => cases hawait.symm.trans houtput
    | waits hasked hentered hfound hheld hawait hlast hwaits =>
      obtain rfl := Option.some.inj (houtput.symm.trans hawait)
      have henroll := proceeds_enroll (acknowledge m.world j) j.id (.output c count)
      refine .works htold ((hleft.proceed henroll.order).enter (hvacant.proceed henroll.order)
        (hattends.present j rfl).2) ?_
      exact .waits hasked hentered hfound hheld hawait
        ((hlast.trans hack.drifts).trans henroll.drifts) hwaits
  rw [hresume, hprompt, hrole]
  cases hjob with
  | @asked request hasked hentered hfound hheld hawait hnext =>
    have hhistory : g.resumed j (acknowledge m.world j) = g.history := by
      unfold Watch.resumed
      rw [hawait]
    have hbegins := hheld.drift hack.drifts
    have hresumes : Resumes request (acknowledge m.world j) g.history (j.next signal)
      (acknowledge m.world j) (g.resumed j (acknowledge m.world j)) := by
      rw [hnext, hhistory]
      exact resumes_action hbegins.known _
    refine Stands.step (hleft.advanceJob hvacant index hresumes.safe) htold hasked ?_
      hbegins hresumes
    rw [hentered]
    rfl
  | @waits request on w₀ w₁ h₀ hasked hentered hfound hheld hawait hlast hwaits =>
    have hhistory : g.resumed j (acknowledge m.world j) =
        g.history ++ [⟨on, w₁, acknowledge m.world j⟩] := by
      unfold Watch.resumed
      rw [hawait, hfound]
    have hresumes := hwaits signal _ (hlast.trans hack.drifts)
    rw [← hhistory] at hresumes
    refine Stands.step (hleft.advanceJob hvacant index hresumes.safe) htold hasked ?_ hheld hresumes
    rw [hentered]
    rfl

/-- What is seen when the turn of the tool comes. -/
theorem watch_turn_of_job (hattends : Attends m (some j))
    (hready : m.world.ready = .resume j.id signal :: rest) :
    m.watch g .turn = if isPremature (acknowledge { m.world with ready := rest } j) j signal then g
      else g.resume j signal (acknowledge { m.world with ready := rest } j) := by
  unfold watch
  rw [hready]
  dsimp only
  rw [find?_job hattends]
  dsimp only
  rw [(hattends.present j rfl).2]
  cases isPremature (acknowledge { m.world with ready := rest } j) j signal <;> rfl

theorem Stands.turn {e : Wake} (hm : Stands m g) (hready : m.world.ready = e :: rest) :
    Stands (serve (m.withQueue rest) e) (m.watch g .turn) := by
  cases hm with
  | rest htold hattends hrests =>
    rcases hattends.turn hready with hgoes | ⟨j, signal, hjob, -⟩
    · rw [watch_turn_of_loop hattends hready nofun]
      exact .goes hgoes htold (fun _ => hrests) nofun
    · cases hjob
  | @works j htold hattends hjob =>
    by_cases he : ∃ signal, e = .resume j.id signal
    · obtain ⟨signal, rfl⟩ := he
      rw [watch_turn_of_job hattends hready]
      let first : Machine := m.withQueue rest
      have hfirst : UnderWay first g j := hjob.drift (drifts_dequeue m.world rest) (.refl j)
      exact Stands.resumeJob (m := first) htold (hattends.dequeue hready) hfirst signal
    · have hloop : ∀ j' signal, some j = some j' → e ≠ .resume j'.id signal := by
        rintro _ signal ⟨⟩ rfl
        exact he ⟨signal, rfl⟩
      rw [watch_turn_of_loop hattends hready hloop]
      rcases hattends.turn hready with hgoes | ⟨j', signal, hj, rfl⟩
      · exact .goes hgoes htold nofun fun _ hj => Option.some.inj hj ▸ hjob
      · exact absurd rfl (hloop j' signal hj)

/-! ## Runs -/

/-- A tool is asked for while none is under way. -/
theorem Attends.launch (hattends : Attends m none) (index : Nat) (p : Action Answer) :
    ∃ j, Attends (m.launch index p) (some j) ∧ j.await = none ∧
      j.next = fun _ => Ending.answer <$> p := by
  have hnumber : KeepsOrder m.world { m.world with nextTask := m.world.nextTask + 1 } :=
    ⟨grows_of_ready (Nat.le_refl _) (Nat.le_succ _) rfl,
      fun horderly => ⟨horderly.waiters, horderly.queue, horderly.tidy⟩⟩
  have hgrows :=
    hnumber.trans (keepsOrder_enqueue _ (e := .resume m.world.nextTask .woken) nofun nofun)
  refine ⟨⟨m.world.nextTask, .job index, none, none, fun _ => Ending.answer <$> p⟩, ?_, rfl, rfl⟩
  refine (hattends.proceed hgrows).enter ⟨Nat.lt_succ_self _, fun t ht => ?_,
    fun service hmem => ?_⟩ rfl
  · exact Nat.ne_of_lt (hattends.numbered t ht)
  · have hold : .serve m.world.nextTask service ∈ m.world.ready := by
      rcases mem_append.1 hmem with hmem | hmem
      · exact hmem
      · cases mem_singleton.1 hmem
    exact absurd (hattends.queued _ service hold) (Nat.lt_irrefl _)

/-- The world in which a tool is asked for differs in nothing that matters to tools. -/
theorem drifts_launch (m : Machine) (index : Nat) (p : Action Answer) :
    Drifts m.world (m.launch index p).world :=
  drifts_of_undisturbed (undisturbed_of_parts rfl rfl rfl rfl) (Int.le_refl _) rfl fun _ => rfl

/-- Files change while no tool is under way. -/
theorem Stands.modifyDisk (hm : Stands m g) (hrest : m.AtRest) (disk : Disk) :
    Stands { m with world := { m.world with host := { m.world.host with disk := disk } } } g := by
  obtain ⟨htold, hattends, hrests⟩ := rest_of_stands hm hrest
  refine .rest htold (hattends.proceed (keepsOrder_modifyDisk m.world disk)) ?_
  exact ⟨hrests.held.write disk, hrests.entered_eq, hrests.found_eq⟩

theorem Stands.move {move : Move} (hm : Stands m g) (hallows : m.Allows move) :
    Stands (m.move move) (m.watch g move) := by
  cases move with
  | turn =>
    cases hready : m.world.ready with
    | nil =>
      have hidle : m.move .turn = m ∧ m.watch g .turn = g := by
        unfold Machine.move Machine.turn watch
        rw [hready]
        exact ⟨rfl, rfl⟩
      rw [hidle.1, hidle.2]
      exact hm
    | cons e rest =>
      have hturn : m.move .turn = serve (m.withQueue rest) e := by
        unfold Machine.move Machine.turn
        rw [hready]
        rfl
      rw [hturn]
      exact hm.turn hready
  | launch index operation =>
    obtain ⟨htool, hrest⟩ := hallows
    cases operation with
    | tool request =>
      obtain ⟨htold, hattends, hrests⟩ := rest_of_stands hm hrest
      obtain ⟨j, hj, hawait, hnext⟩ := hattends.launch index request.action
      have hheld := hrests.held.drift (drifts_launch m index request.action)
      exact .works htold hj (.asked rfl hrests.entered_eq hrests.found_eq hheld hawait hnext)
    | session s request => cases htool
    | process s request => cases htool
  | change c =>
    obtain ⟨htidy, hfiles⟩ := hallows
    cases hspares : c.sparesFiles with
    | true =>
      cases hm with
      | rest htold hattends hrests =>
        obtain ⟨job, hgoes⟩ := hattends.undergo htidy hspares
        exact .goes hgoes htold (fun _ => hrests) nofun
      | works htold hattends hjob =>
        obtain ⟨job, hgoes⟩ := hattends.undergo htidy hspares
        exact .goes hgoes htold nofun fun _ hj => Option.some.inj hj ▸ hjob
    | false =>
      have hrest := hfiles.resolve_left (hspares ▸ nofun)
      cases c with
      | writeFile name bytes => exact hm.modifyDisk hrest _
      | deleteFile name => exact hm.modifyDisk hrest _
      | makeDirectory name => exact hm.modifyDisk hrest _
      | _ => cases hspares

theorem Stands.follow {moves : List Move} (hm : Stands m g) (hmoves : m.ServesTools moves) :
    Stands (m.follow moves) (m.watchAll g moves) := by
  induction moves generalizing m g with
  | nil => exact hm
  | cons move moves ih => exact ih (hm.move hmoves.1) hmoves.2

theorem Unused.stands (hm : m.Unused) : Stands m {} := by
  refine .rest (hm.finished_eq ▸ rfl)
    ⟨⟨fun s call hcall => ?_, fun s call outcome hmem => ?_, hm.tidy⟩, fun t ht => ?_,
    fun task service hmem => ?_, fun t ht => ?_, nofun, nofun, nofun⟩
    ⟨.start hm.normal hm.sessions_eq hm.entries_eq, rfl, rfl⟩
  · rw [World.session, hm.sessions_eq] at hcall
    cases hcall
  · rw [hm.ready_eq] at hmem
    cases hmem
  · rw [hm.tasks_eq] at ht
    cases ht
  · rw [hm.ready_eq] at hmem
    cases hmem
  · rw [hm.tasks_eq] at ht
    cases ht

/-- The visits of a server are held one after another, and their answers are those that it told. -/
theorem held_visits {moves : List Move} (hm : m.Unused) (hmoves : m.ServesTools moves) :
    (∃ w h, Held (m.visits moves) w h) ∧ (m.follow moves).finished.map Prod.snd =
      (m.visits moves).map Visit.result := by
  cases hm.stands.follow hmoves with
  | rest htold _ hrests => exact ⟨⟨_, _, hrests.held⟩, htold⟩
  | works htold _ hjob =>
    cases hjob with
    | asked _ _ _ hheld => exact ⟨⟨_, _, hheld⟩, htold⟩
    | waits _ _ _ hheld => exact ⟨⟨_, _, hheld⟩, htold⟩

end Machine

end IdeMode
