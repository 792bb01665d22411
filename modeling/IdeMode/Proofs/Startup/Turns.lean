import IdeMode.Proofs.Startup.Operations
set_option autoImplicit false

/-!
# Turns of an operation

What a turn of an operation comes to, by the stage in which the operation is: one that has not
begun, on a session whose process runs; one that reads the banner; one that has failed; and one that
begins on a session without a process.
-/

namespace IdeMode.Startup

open Client Prog World List

variable {s : Nat} {b : Banner} {α : Type} {p : Action α} {w : World}

/-! ## Calls -/

/-- A call was issued, after things done aside. -/
def Issues (s : Nat) (w w' : World) (call : Call) : Prop :=
  ∃ w₁ command addressee events, Aside s w w₁ ∧ call = (w₁.issue s command addressee).1 ∧
    w' = { (w₁.issue s command addressee).2 with events := events }

/-- What a turn of an operation comes to if the process of its session runs. -/
inductive Goes (s : Nat) {α : Type} (w : World) : Halt World Await α → World → Prop where
  | ends {r : Result α} {w' : World} (h : Aside s w w') : Goes s w (.finished r) w'
  | posts {r : Result α} {w' : World} {call : Call} (h : Issues s w w' call) :
    Goes s w (.finished r) w'
  | calls {deadline : Option Int} {next : Signal → Action α} {w' : World} {call : Call}
      (h : Issues s w w' call) : Goes s w (.waiting (.outcome s call.id) deadline next) w'

/-- An operation has done nothing but things aside, or it has issued its call. -/
def AtMostIssues (s : Nat) (w w' : World) (g : Stage) : Prop :=
  (g = .idle ∧ Aside s w w') ∨ ∃ call, g = .calling call ∧ Issues s w w' call

variable {w₂ : World} {g g' : Stage}

/-- As long as the process runs, an operation that has not called can only do things aside or
call. -/
theorem AtMostIssues.step (hrunning : w.isRunning s = true) {w₁ : World}
    (h : AtMostIssues s w w₁ g) (hstep : Advances s b w₁ g w₂ g') : AtMostIssues s w w₂ g' := by
  rcases h with ⟨rfl, haside⟩ | ⟨call, rfl, w₀, command, addressee, events, haside, rfl, rfl⟩
  · have hstill := haside.isRunning_eq.trans hrunning
    cases hstep with
    | aside hfree h => exact .inl ⟨rfl, haside.trans h⟩
    | absent hstopped => rw [hstill] at hstopped; cases hstopped
    | spawn hstopped heq => rw [hstill] at hstopped; cases hstopped
    | issue hfree hrunning => exact .inr ⟨_, rfl, w₁, _, _, _, haside, rfl, rfl⟩
  · cases hstep with
    | aside hfree h => exact hfree.elim
    | issue hfree hrunning => exact hfree.elim
    | report => exact .inr ⟨_, rfl, w₀, command, addressee, _, haside, rfl, rfl⟩

theorem goes_of_safe (hsafe : Safe (opening s b) p (Over s b) w .idle)
    (hrunning : w.isRunning s = true) : Goes s w (p.run w).1 (p.run w).2 := by
  obtain ⟨g, hend, hhalt⟩ :=
    hsafe.run (I := AtMostIssues s w) (fun _ _ _ _ => AtMostIssues.step hrunning)
    (.inl ⟨rfl, .refl w⟩)
  generalize (p.run w).2 = w' at hend hhalt ⊢
  cases hrun : (p.run w).1 with
  | finished r =>
    rcases hend with ⟨rfl, haside⟩ | ⟨call, rfl, hissues⟩
    · exact .ends haside
    · exact .posts hissues
  | waiting on deadline next =>
    rw [hrun] at hhalt
    obtain ⟨hpause, -⟩ := hhalt
    rcases hend with ⟨rfl, haside⟩ | ⟨call, rfl, hissues⟩
    · exact hpause.elim
    · obtain ⟨rfl, -⟩ := hpause
      exact .calls hissues

/-! ## The banner -/

/-- Issuing a call leaves the host and the process of the session alone. -/
theorem issue_keeps (w : World) (command : Command) (addressee : Addressee) :
    (w.issue s command addressee).2.host = w.host ∧
      ((w.issue s command addressee).2.session s).transport = (w.session s).transport :=
  ⟨issue_feature (fun _ _ => rfl) (fun _ _ => rfl) (fun _ _ => rfl) w command addressee,
    session_issue_feature (fun _ _ => rfl) w s s command addressee⟩

/-- A session has issued its first call. -/
structure Served (s : Nat) (w w' : World) (call : Call) : Prop where
  length_eq : w'.sessions.length = w.sessions.length
  ready_eq : ∃ more, w'.ready = w.ready ++ more
  host_eq : ∃ disk, w'.host = { w.host with disk := disk }
  transport_eq : (w'.session s).transport = (w.session s).transport
  pending_eq : (w'.session s).dispatch.pending = [call]
  issued_eq : (w'.session s).dispatch.stats.issued = (w.session s).dispatch.stats.issued + 1

theorem ensureServices_atRest (hs : s < w.sessions.length) (hrest : AtRest (w.session s).dispatch) :
    w.ensureServices s = { w.modifyDispatch s
      fun d => { d with writer := some w.nextTask, reader := some (w.nextTask + 1) } with
      nextTask := w.nextTask + 2
      ready :=
        w.ready ++ [.serve w.nextTask (.writer s), .serve (w.nextTask + 1) (.reader s)] } := by
  have hwriter : w.ensureWriter s =
    { w.modifyDispatch s fun d => { d with writer := some w.nextTask } with
      nextTask := w.nextTask + 1
      ready := w.ready ++ [.serve w.nextTask (.writer s)] } := by
    unfold ensureWriter
    rw [hrest.writer_eq]
    rfl
  have hreader : ((w.modifyDispatch s fun d => { d with writer := some w.nextTask }).session
      s).dispatch.reader = none := by
    unfold modifyDispatch
    rw [session_modifySession_self hs]
    exact hrest.reader_eq
  unfold ensureServices
  rw [hwriter]
  unfold ensureReader
  rw [show (World.session { w.modifyDispatch s fun d => { d with writer := some w.nextTask } with
      nextTask := w.nextTask + 1
      ready := w.ready ++ [.serve w.nextTask (.writer s)] } s).dispatch.reader = none from hreader]
  simp only [Option.isSome_none, Bool.false_eq_true, if_false, startService, enqueue,
    modifyDispatch, World.modifySession, modify_modify_eq, Function.comp_def, append_assoc,
    cons_append, nil_append]

theorem served_issue (hs : s < w.sessions.length) (hrest : AtRest (w.session s).dispatch)
    (command : Command) (addressee : Addressee) :
    Served s w (w.issue s command addressee).2 (w.issue s command addressee).1 := by
  have hdispatch : ((w.ensureServices s).session s).dispatch = { (w.session s).dispatch with
      writer := some w.nextTask, reader := some (w.nextTask + 1) } := by
    rw [ensureServices_atRest hs hrest]
    exact congrArg Session.dispatch (session_modifySession_self hs _)
  have hs' : s < (w.ensureServices s).sessions.length := by
    rw [ensureServices_atRest hs hrest]
    exact (length_modifySession ..).symm ▸ hs
  have hissue : w.issue s command addressee =
    (((w.ensureServices s).session s).dispatch.issue command addressee |>.1,
      (w.ensureServices s).modifyDispatch s fun _ =>
        { (((w.ensureServices s).session s).dispatch.issue command addressee).2 with
          writerIdle := false }) := by
    unfold World.issue
    dsimp only
    rw [hdispatch]
    simp only [Dispatch.issue, hrest.writerIdle_eq, Bool.false_eq_true, if_false]
  obtain ⟨hhost, htransport⟩ := issue_keeps (s := s) w command addressee
  have hsession : ((w.issue s command addressee).2.session s).dispatch =
      { (((w.ensureServices s).session s).dispatch.issue command addressee).2 with
        writerIdle := false } := by
    rw [hissue]
    unfold modifyDispatch
    rw [session_modifySession_self hs']
  rw [hdispatch] at hsession
  have hcall : (w.issue s command addressee).1 =
      ⟨(w.session s).dispatch.nextId, command, addressee⟩ := by
    rw [hissue, hdispatch]
    rfl
  rw [hcall]
  constructor
  · rw [hissue, ensureServices_atRest hs hrest]
    exact (length_modifySession ..).trans (length_modifySession ..)
  · rw [hissue, ensureServices_atRest hs hrest]
    exact ⟨_, rfl⟩
  · exact ⟨w.host.disk, hhost⟩
  · exact htransport
  · rw [hsession]
    simp [Dispatch.issue, hrest.pending_eq]
  · rw [hsession]
    rfl

variable {c : Nat} {child : Host.Child} {w' : World} {rest : List UInt8} {w₁ : World}
  {deeds : List Host.Deed}

theorem Issues.served {call : Call} (h : Issues s w w' call) (hs : s < w.sessions.length)
    (hrest : AtRest (w.session s).dispatch) : Served s w w' call := by
  obtain ⟨w₁, command, addressee, events, haside, rfl, rfl⟩ := h
  have hserved := served_issue (haside.length_eq ▸ hs) (haside.rest hrest) command addressee
  obtain ⟨notices, hready, -⟩ := haside.ready_eq
  obtain ⟨more, hready'⟩ := hserved.ready_eq
  obtain ⟨disk, hdisk⟩ := haside.host_eq
  obtain ⟨disk', hdisk'⟩ := hserved.host_eq
  refine ⟨hserved.length_eq.trans haside.length_eq, ⟨notices ++ more, ?_⟩, ⟨disk', ?_⟩,
    hserved.transport_eq.trans haside.transport_eq, hserved.pending_eq, ?_⟩
  · rw [← append_assoc, ← hready]
    exact hready'
  · rw [hdisk', hdisk]
  · rw [← haside.issued_eq]
    exact hserved.issued_eq

/-- A start is over: the session has a process of which it knows the version, and nobody has
signalled the process. -/
structure Hailed (s c : Nat) (b : Banner) (deeds : List Host.Deed) (w : World) : Prop where
  child_eq : (w.session s).transport.child = some c
  version_eq : (w.session s).transport.version = some (b.major, b.minor)
  running : w.host.isRunning c = true
  deeds_eq : w.host.deeds = deeds

theorem Hailed.of_parts (h : Hailed s c b deeds w)
    (htransport : (w'.session s).transport = (w.session s).transport)
    (hchildren : w'.host.children = w.host.children) (hdeeds : w'.host.deeds = w.host.deeds) :
    Hailed s c b deeds w' := by
  refine ⟨htransport ▸ h.child_eq, htransport ▸ h.version_eq, ?_, hdeeds.trans h.deeds_eq⟩
  have hrunning := h.running
  unfold Host.isRunning Host.child? at hrunning ⊢
  rw [hchildren]
  exact hrunning

theorem Hailed.aside (h : Hailed s c b deeds w) (haside : Aside s w w') :
    Hailed s c b deeds w' := by
  obtain ⟨disk, hdisk⟩ := haside.host_eq
  exact h.of_parts haside.transport_eq haside.children_eq (by rw [hdisk])

/-- What a turn of an operation comes to that reads the banner: it waits for more of it, or the
start is over. -/
inductive Hears (s c : Nat) (b : Banner) (rest : List UInt8) (child : Host.Child)
    {α : Type} (w : World) : Halt World Await α → World → Prop where
  | waits {n k : Nat} {deadline : Option Int} {next : Signal → Action α} (hrest : k ≤ rest.length)
      (houtput : k ≤ child.output.length) (hmore : n ≤ (rest.drop k).length)
      (hshort : (child.output.drop k).length < n) (hnext : ∀ w', Ready s c (rest.drop k) n w' →
        Safe (opening s b) (next .woken) (Over s b) w' (.greeting c (rest.drop k))) :
    Hears s c b rest child w (.waiting (.output c n) deadline next)
      (w.modifyChild c fun child => { child with output := child.output.drop k })
  | starts {halt : Halt World Await α} {w' : World} (hread : rest.length ≤ child.output.length)
      (h : Hailed s c b w.host.deeds w')
      (hhalt : ∀ on deadline next, halt = .waiting on deadline next →
        ∃ call, on = .outcome s call) : Hears s c b rest child w halt w'

theorem modifyChild_drop_zero (w : World) (c : Nat) :
    (w.modifyChild c fun child => { child with output := child.output.drop 0 }) = w := by
  have hsame : w.host.children.modify c
      (fun child => { child with output := child.output.drop 0 }) = w.host.children :=
    modify_id c w.host.children
  simp only [modifyChild, Host.modifyChild, hsame]

/-- Some of the banner was read, and nothing else has happened. -/
def Skims (c : Nat) (rest : List UInt8) (child : Host.Child) (w w' : World) (g : Stage) : Prop :=
  ∃ k, k ≤ rest.length ∧ k ≤ child.output.length ∧ g = .greeting c (rest.drop k) ∧
    w' = w.modifyChild c fun child => { child with output := child.output.drop k }

theorem Skims.refl (c : Nat) (rest : List UInt8) (child : Host.Child) (w : World) :
    Skims c rest child w w (.greeting c rest) :=
  ⟨0, Nat.zero_le _, Nat.zero_le _, rfl, (modifyChild_drop_zero w c).symm⟩

theorem Skims.child? (h : Skims c rest child w w' g) (hchild : w.host.child? c = some child) :
    ∃ output, w'.host.child? c = some { child with output := output } := by
  obtain ⟨k, -, -, -, rfl⟩ := h
  exact ⟨child.output.drop k, by rw [child?_modifyChild, hchild, Option.map_some]⟩

/-- An operation that reads the banner reads more of it, finds that the rest will not come, or has
read all of it. -/
theorem Skims.step (h : Skims c rest child w w₁ g)
    (hchild : w.host.child? c = some child) (hstep : Advances s b w₁ g w₂ g') :
    Skims c rest child w w₂ g' ∨
      (child.ended = true ∧ g' = .failed (.unavailable .died) ∧ ∃ f, w₂ = w.modifyChild c f) ∨
      (rest.length ≤ child.output.length ∧ g' = .greeted ∧
        w₂ = w₁.modifyTransport s fun t => { t with version := some (b.major, b.minor) }) := by
  obtain ⟨k, hk, hout, rfl, rfl⟩ := h
  have hchild₁ :
    (w.modifyChild c fun child => { child with output := child.output.drop k }).host.child? c =
      some { child with output := child.output.drop k } := by
        rw [child?_modifyChild, hchild, Option.map_some]
  generalize hrest' : rest.drop k = rest' at hstep
  cases hstep with
  | aside hfree h => exact hfree.elim
  | issue hfree hrunning => exact hfree.elim
  | @read _ n _ child₂ hchild₂ houtput hn =>
    subst hrest'
    obtain rfl := Option.some.inj (hchild₁.symm.trans hchild₂)
    rw [length_drop] at hn houtput
    refine .inl ⟨k + n, by omega, by omega, by rw [drop_drop], ?_⟩
    simp only [modifyChild, Host.modifyChild, modify_modify_eq, Function.comp_def, drop_drop]
  | cut hchild₂ hended =>
    obtain rfl := Option.some.inj (hchild₁.symm.trans hchild₂)
    refine .inr (.inl ⟨hended, rfl, fun child => { child with output := [] }, ?_⟩)
    simp only [modifyChild, Host.modifyChild, modify_modify_eq, Function.comp_def]
  | greet =>
    have hread := drop_eq_nil_iff.1 hrest'
    exact .inr (.inr ⟨Nat.le_trans hread hout, rfl, rfl⟩)

/-- The version becomes known once the banner is read. -/
theorem Skims.hailed (h : Skims c rest child w w' g) (hfeeds : Feeds s c rest w)
    (hchild : w.host.child? c = some child) : Hailed s c b w.host.deeds
      (w'.modifyTransport s fun t => { t with version := some (b.major, b.minor) }) := by
  obtain ⟨child', hchild', hstatus, -⟩ := hfeeds.process
  obtain rfl : child = child' := Option.some.inj (hchild.symm.trans hchild')
  obtain ⟨output, hchild₁⟩ := h.child? hchild
  obtain ⟨k, -, -, -, rfl⟩ := h
  have hs : s <
        (w.modifyChild c fun child =>
          { child with output := child.output.drop k }).sessions.length :=
    hfeeds.present
  unfold modifyTransport
  constructor
  · rw [session_modifySession_self hs]
    exact hfeeds.child_eq
  · rw [session_modifySession_self hs]
  · rw [host_modifySession, Host.isRunning, hchild₁]
    simp [Host.Child.isRunning, hstatus]
  · rfl

/-- After the banner is read, an operation issues its call and leaves the process alone. -/
theorem Hailed.step (h : Hailed s c b deeds w₁) (hg : g = .greeted ∨ ∃ call, g = .calling call)
    (hstep : Advances s b w₁ g w₂ g') :
    (g' = .greeted ∨ ∃ call, g' = .calling call) ∧ Hailed s c b deeds w₂ := by
  rcases hg with rfl | ⟨call, rfl⟩
  · cases hstep with
    | aside hfree haside => exact ⟨.inl rfl, h.aside haside⟩
    | issue hfree hrunning =>
      obtain ⟨hhost, htransport⟩ := issue_keeps w₁ _ _
      refine ⟨.inr ⟨_, rfl⟩, ?_⟩
      exact h.of_parts htransport (congrArg Host.children hhost) (congrArg Host.deeds hhost)
  · cases hstep with
    | aside hfree haside => exact hfree.elim
    | issue hfree hrunning => exact hfree.elim
    | report => exact ⟨.inr ⟨_, rfl⟩, h.of_parts rfl rfl rfl⟩

/-- Some of the banner was read, or all of it, and the start is over. -/
def Greets (s c : Nat) (b : Banner) (rest : List UInt8) (child : Host.Child) (w w' : World)
    (g : Stage) : Prop :=
  Skims c rest child w w' g ∨ rest.length ≤ child.output.length ∧
    (g = .greeted ∨ ∃ call, g = .calling call) ∧ Hailed s c b w.host.deeds w'

theorem Greets.step (hfeeds : Feeds s c rest w) (hchild : w.host.child? c = some child)
    (h : Greets s c b rest child w w₁ g) (hstep : Advances s b w₁ g w₂ g') :
    Greets s c b rest child w w₂ g' := by
  rcases h with hskims | ⟨hread, hg, hhailed⟩
  · rcases hskims.step hchild hstep with hskims' | ⟨hended, -⟩ | ⟨hread, rfl, rfl⟩
    · exact .inl hskims'
    · obtain ⟨child', hchild', -, hended', -⟩ := hfeeds.process
      obtain rfl : child = child' := Option.some.inj (hchild.symm.trans hchild')
      exact absurd hended (Bool.eq_false_iff.1 hended')
    · exact .inr ⟨hread, .inl rfl, hskims.hailed hfeeds hchild⟩
  · exact .inr ⟨hread, hhailed.step hg hstep⟩

theorem hears_of_safe (hsafe : Safe (opening s b) p (Over s b) w (.greeting c rest))
    (hfeeds : Feeds s c rest w) (hchild : w.host.child? c = some child) :
    Hears s c b rest child w (p.run w).1 (p.run w).2 := by
  obtain ⟨g, hend, hhalt⟩ :=
    hsafe.run (I := Greets s c b rest child w) (fun _ _ _ _ => Greets.step hfeeds hchild)
    (.inl (.refl c rest child w))
  cases hrun : (p.run w).1 with
  | finished r =>
    rw [hrun] at hhalt
    rcases hend with ⟨k, hk, hout, rfl, hw⟩ | ⟨hread, hg, hhailed⟩
    · exact absurd hhalt not_over_greeting
    · exact .starts hread hhailed (by rintro _ _ _ ⟨⟩)
  | waiting on deadline next =>
    rw [hrun] at hhalt
    obtain ⟨hpause, hnext⟩ := hhalt
    rcases hend with ⟨k, hk, hout, rfl, hw⟩ | ⟨hread, rfl | ⟨call, rfl⟩, hhailed⟩
    · obtain ⟨n, child₁, rfl, hmore, hfeeds₁, hchild₁, hshort⟩ := hpause
      rw [hw, child?_modifyChild, hchild, Option.map_some] at hchild₁
      obtain rfl := Option.some.inj hchild₁
      rw [hw]
      refine .waits hk hout hmore hshort fun w' hready => ?_
      apply hnext .woken w' _
      refine ⟨rfl, rfl, fun n' hn' => ?_⟩
      cases hn'
      exact hready
    · exact hpause.elim
    · obtain ⟨rfl, -⟩ := hpause
      refine .starts hread hhailed fun on deadline next heq => ?_
      cases heq
      exact ⟨call.id, rfl⟩

/-! ## The start -/

/-- How the next process that is started behaves. -/
def nextBehaviour (h : Host) : Host.Behaviour :=
  h.behaviours.head?.getD { greeting := Host.defaultGreeting }

/-- A process was started. Of its greeting `read` was read, which is the beginning of the banner,
and `rest` is what is to be read of the banner. -/
structure Launched (s : Nat) (b : Banner) (w : World) (c : Nat) (read rest : List UInt8)
    (child : Host.Child) (w' : World) : Prop where
  child_eq : c = w.host.children.length
  children_eq : w'.host.children = w.host.children ++ [child]
  fresh : child = { pid := child.pid, behaviour := nextBehaviour w.host, output := child.output }
  greeting_eq : (nextBehaviour w.host).greeting = read ++ child.output
  bytes_eq : b.bytes = read ++ rest
  deeds_eq : ∃ command directory environment,
    w'.host.deeds = w.host.deeds ++ [.spawn command directory environment]
  nextTask_eq : w'.nextTask = w.nextTask
  ready_eq : ∃ more, w'.ready = w.ready ++ more ∧ ∀ e ∈ more, IsNotice e
  issued_eq : (w'.session s).dispatch.stats.issued = (w.session s).dispatch.stats.issued

theorem launched_spawn {host : Host} {command : List String} {directory : String}
    {environment : List (String × String)} (haside : Aside s w w₁)
    (hexits : (nextBehaviour w.host).exits = none)
    (hspawn : w₁.host.spawn command directory environment = (.started c, host)) :
    ∃ child, Launched s b w c [] b.bytes child { w₁ with host := host } := by
  obtain ⟨disk, hdisk⟩ := haside.host_eq
  have hbehaviour : nextBehaviour w₁.host = nextBehaviour w.host := by rw [hdisk]; rfl
  unfold nextBehaviour at hexits hbehaviour
  unfold Host.spawn at hspawn
  dsimp only at hspawn
  rw [hbehaviour, hexits] at hspawn
  split at hspawn
  · cases hspawn
  · split at hspawn
    · cases hspawn
    · cases hspawn
      refine ⟨_, congrArg List.length haside.children_eq, congrArg (· ++ [_]) haside.children_eq,
        rfl, rfl, rfl, ⟨command, directory, environment, ?_⟩, haside.nextTask_eq, haside.ready_eq,
        haside.issued_eq⟩
      rw [hdisk]

theorem modify_concat (l : List α) (a : α) (f : α → α) :
    (l ++ [a]).modify l.length f = l ++ [f a] := by
  induction l with
  | nil => rfl
  | cons x l ih => simpa using ih

theorem Launched.read {n : Nat} {read : List UInt8} (h : Launched s b w c read rest child w₁)
    (houtput : n ≤ child.output.length) (hrest : n ≤ rest.length)
    (hagree : Agree child.output rest) : Launched s b w c (read ++ rest.take n) (rest.drop n)
      { child with output := child.output.drop n }
      (w₁.modifyChild c fun child => { child with output := child.output.drop n }) := by
  refine ⟨h.child_eq, ?_, ?_, ?_, ?_, h.deeds_eq, h.nextTask_eq, h.ready_eq, h.issued_eq⟩
  · show w₁.host.children.modify c _ = _
    rw [h.children_eq, h.child_eq, modify_concat]
  · rw [h.fresh]
  · rw [h.greeting_eq, ← hagree.take_eq houtput hrest, append_assoc, take_append_drop]
  · rw [h.bytes_eq, append_assoc, take_append_drop]

theorem Launched.child? {read : List UInt8} (h : Launched s b w c read rest child w₁) :
    w₁.host.child? c = some child := by
  unfold Host.child?
  rw [h.children_eq, h.child_eq]
  exact List.getElem?_concat_length

theorem Launched.agree {read : List UInt8} (h : Launched s b w c read rest child w₁)
    (hexpects : Expects b w) : Agree child.output rest := by
  have hagree : Agree (nextBehaviour w.host).greeting b.bytes := hexpects.2
  rw [h.greeting_eq, h.bytes_eq, agree_append_left] at hagree
  exact hagree

/-- How far a start has come: nothing but things aside was done yet, or a process was started and
some of its banner read. -/
def Launches (s : Nat) (b : Banner) (w w' : World) : Stage → Prop
  | .idle => Aside s w w'
  | .spawned c => ∃ child, Launched s b w c [] b.bytes child w'
  | .greeting c rest => ∃ read child, Launched s b w c read rest child w'
  | .beyond => False
  | _ => True

theorem Launches.step (hexpects : Expects b w) (h : Launches s b w w₁ g)
    (hstep : Advances s b w₁ g w₂ g') : Launches s b w w₂ g' := by
  cases hstep with
  | aside hfree haside =>
    cases g with
    | idle => exact Aside.trans h haside
    | greeted => trivial
    | _ => exact hfree.elim
  | absent hstopped => trivial
  | spawn hstopped heq => exact launched_spawn h hexpects.1 heq
  | connect =>
    obtain ⟨child, hlaunched⟩ := h
    refine ⟨[], child, { hlaunched with issued_eq := ?_ }⟩
    exact (session_modifySession_feature (fun session => session.dispatch.stats.issued) rfl s).trans
      hlaunched.issued_eq
  | read hchild houtput hrest =>
    obtain ⟨read, child, hlaunched⟩ := h
    obtain rfl := Option.some.inj (hlaunched.child?.symm.trans hchild)
    exact ⟨_, _, hlaunched.read houtput hrest (hlaunched.agree hexpects)⟩
  | cut hchild hended => trivial
  | greet => trivial
  | issue hfree hrunning => trivial
  | report => trivial
  | fail => trivial
  | beyond => exact h

/-- An operation whose first turn ends with a wait for output has started a process and reads its
banner. -/
theorem launched_of_safe {n : Nat} {deadline : Option Int} {next : Signal → Action α}
    (hsafe : Safe (opening s b) p (Over s b) w .idle) (hexpects : Expects b w)
    (hrun : p.run w = (.waiting (.output c n) deadline next, w')) :
    ∃ read rest child, Launched s b w c read rest child w' ∧ Feeds s c rest w' ∧ n ≤ rest.length ∧
      child.output.length < n ∧ ∀ w'', Ready s c rest n w'' →
        Safe (opening s b) (next .woken) (Over s b) w'' (.greeting c rest) := by
  obtain ⟨g, hend, hhalt⟩ :=
    hsafe.run (I := Launches s b w) (fun _ _ _ _ => Launches.step hexpects) (.refl w)
  rw [hrun] at hend hhalt
  obtain ⟨hpause, hnext⟩ := hhalt
  cases g with
  | greeting c' rest =>
    obtain ⟨n', child, hon, hmore, hfeeds, hchild, hshort⟩ := hpause
    obtain ⟨rfl, rfl⟩ := Await.output.inj hon
    obtain ⟨read, child', hlaunched⟩ := hend
    obtain rfl := Option.some.inj (hlaunched.child?.symm.trans hchild)
    refine ⟨read, rest, child', hlaunched, hfeeds, hmore, hshort, fun w'' hready => ?_⟩
    apply hnext .woken w'' _
    refine ⟨rfl, rfl, fun n' hn' => ?_⟩
    cases hn'
    exact hready
  | calling call => cases hpause.1
  | beyond => exact hend.elim
  | _ => exact hpause.elim

end IdeMode.Startup
