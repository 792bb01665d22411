import IdeMode.Proofs.Client.Gentle
import IdeMode.Proofs.Client.Stream
import IdeMode.Request.Session
set_option autoImplicit false

/-!
# Stages of an operation

An operation on a session that has no process starts one, reads its banner, and only then issues its
first call. If the session has a process already, the operation issues its first call at once. A
`Stage` says how far an operation has come on this way, and `opening` what it may do at each stage.

The process is taken to send its banner before anything else; how the bytes are cut into pieces, and
when they arrive, is left open.
-/

namespace IdeMode.Startup

open Client Prog World List

/-! ## Banners -/

/-- The first message of a process: it announces a version of the protocol. -/
structure Banner where
  payload : String
  major : Value
  minor : Value
  more : List Value
  fits : payload.length + 1 ≤ frameLimit
  understood : understand (frameText payload) = .ok (.banner (major :: minor :: more))

/-- The bytes in which a banner is sent. -/
def Banner.bytes (b : Banner) : List UInt8 := Wire.frameBytes b.payload

/-- Of two lists one goes on where the other ends. -/
def Agree (xs ys : List UInt8) : Prop := xs <+: ys ∨ ys <+: xs

theorem Agree.take_eq {xs ys : List UInt8} {n : Nat} (h : Agree xs ys) (hxs : n ≤ xs.length)
    (hys : n ≤ ys.length) : xs.take n = ys.take n := by
  rcases h with ⟨more, rfl⟩ | ⟨more, rfl⟩
  · rw [take_append_of_le_length hxs]
  · rw [take_append_of_le_length hys]

theorem agree_append_left {zs xs ys : List UInt8} : Agree (zs ++ xs) (zs ++ ys) ↔ Agree xs ys := by
  unfold Agree
  rw [prefix_append_right_inj, prefix_append_right_inj]

theorem Agree.drop {xs ys : List UInt8} {n : Nat} (h : Agree xs ys) (hxs : n ≤ xs.length)
    (hys : n ≤ ys.length) : Agree (xs.drop n) (ys.drop n) := by
  have htake := h.take_eq hxs hys
  rw [← take_append_drop n xs, ← take_append_drop n ys, htake, agree_append_left] at h
  exact h

/-- What agrees still does after more was sent if all that was sent does. -/
theorem Agree.of_append {xs more ys : List UInt8} (h : Agree (xs ++ more) ys) : Agree xs ys := by
  rcases h with h | h
  · exact .inl ((prefix_append xs more).trans h)
  · rcases prefix_or_prefix_of_prefix h (prefix_append xs more) with h | h
    · exact .inr h
    · exact .inl h

/-! ## Things done aside -/

/-- A call is neither pending nor to be written nor to be told of, and no loop serves the
session. -/
structure AtRest (d : Dispatch) : Prop where
  pending_eq : d.pending = []
  outbox_eq : d.outbox = []
  writer_eq : d.writer = none
  writerIdle_eq : d.writerIdle = false
  reader_eq : d.reader = none
  waiting_eq : d.waiting = []
  outcomes_eq : d.outcomes = []

/-- A continuation is to run, which no task waits for. -/
def IsNotice : Wake → Prop
  | .settle .. | .skip _ => True
  | _ => False

/-- Nothing happened to processes and calls: files and what a session remembers may have changed,
and continuations may have been put into the queue. -/
structure Aside (s : Nat) (w w' : World) : Prop where
  length_eq : w'.sessions.length = w.sessions.length
  nextTask_eq : w'.nextTask = w.nextTask
  ready_eq : ∃ more, w'.ready = w.ready ++ more ∧ ∀ e ∈ more, IsNotice e
  host_eq : ∃ disk, w'.host = { w.host with disk := disk }
  transport_eq : (w'.session s).transport = (w.session s).transport
  rest : AtRest (w.session s).dispatch → AtRest (w'.session s).dispatch
  issued_eq : (w'.session s).dispatch.stats.issued = (w.session s).dispatch.stats.issued

namespace Aside

variable {s : Nat} {w w₁ w₂ w₃ : World}

theorem refl (w : World) : Aside s w w :=
  ⟨rfl, rfl, ⟨[], by simp⟩, ⟨w.host.disk, rfl⟩, rfl, id, rfl⟩

theorem trans (h : Aside s w₁ w₂) (h' : Aside s w₂ w₃) : Aside s w₁ w₃ := by
  obtain ⟨more, hready, hmore⟩ := h.ready_eq
  obtain ⟨more', hready', hmore'⟩ := h'.ready_eq
  obtain ⟨disk, hdisk⟩ := h.host_eq
  obtain ⟨disk', hdisk'⟩ := h'.host_eq
  refine ⟨h'.length_eq.trans h.length_eq, h'.nextTask_eq.trans h.nextTask_eq,
    ⟨more ++ more', ?_, ?_⟩, ⟨disk', ?_⟩, h'.transport_eq.trans h.transport_eq, h'.rest ∘ h.rest,
    h'.issued_eq.trans h.issued_eq⟩
  · rw [hready', hready, append_assoc]
  · intro e he
    exact (mem_append.1 he).elim (hmore e) (hmore' e)
  · rw [hdisk', hdisk]

theorem children_eq (h : Aside s w₁ w₂) : w₂.host.children = w₁.host.children := by
  obtain ⟨disk, hdisk⟩ := h.host_eq
  rw [hdisk]

theorem isRunning_eq (h : Aside s w₁ w₂) : w₂.isRunning s = w₁.isRunning s := by
  unfold World.isRunning Host.isRunning Host.child?
  rw [h.transport_eq, h.children_eq]

/-- A change of what a session remembers. -/
theorem modifySession {t : Nat} {f : Session → Session}
    (htransport : (f (w.session t)).transport = (w.session t).transport)
    (hdispatch : (f (w.session t)).dispatch = (w.session t).dispatch) :
    Aside s w (w.modifySession t f) := by
  have hkept := session_modifySession_feature Session.dispatch hdispatch s
  refine ⟨length_modifySession w t f, rfl, ⟨[], by simp [World.modifySession]⟩, ⟨w.host.disk, rfl⟩,
    session_modifySession_feature Session.transport htransport s, ?_, ?_⟩
  · rw [hkept]
    exact id
  · rw [hkept]

/-- A change of the dispatcher that neither issues a call nor begins to serve one. -/
theorem modifyDispatch {f : Dispatch → Dispatch}
    (hrest : AtRest (w.session s).dispatch → AtRest (f (w.session s).dispatch))
    (hissued : (f (w.session s).dispatch).stats.issued = (w.session s).dispatch.stats.issued) :
    Aside s w (w.modifyDispatch s f) := by
  refine ⟨length_modifySession .., rfl, ⟨[], by simp [World.modifyDispatch, World.modifySession]⟩,
    ⟨w.host.disk, rfl⟩, transport_modifyDispatch .., ?_, ?_⟩
  · rcases session_modifySession_cases (s := s) w
      (fun session => { session with dispatch := f session.dispatch }) s with heq | ⟨-, heq⟩
    · exact fun h => heq ▸ h
    · exact fun h => heq ▸ hrest h
  · exact session_modifySession_feature
      (fun session : Session => session.dispatch.stats.issued) hissued s

theorem report (w : World) (e : Event) : Aside s w (w.report e) :=
  ⟨rfl, rfl, ⟨[], by simp [World.report]⟩, ⟨w.host.disk, rfl⟩, rfl, id, rfl⟩

theorem enqueue (w : World) {e : Wake} (he : IsNotice e) : Aside s w (w.enqueue e) :=
  ⟨rfl, rfl, ⟨[e], rfl, by simpa using he⟩, ⟨w.host.disk, rfl⟩, rfl, id, rfl⟩

theorem placeDisk (w : World) (disk : Disk) :
    Aside s w { w with host := { w.host with disk := disk } } :=
  ⟨rfl, rfl, ⟨[], by simp⟩, ⟨disk, rfl⟩, rfl, id, rfl⟩

end Aside

/-! ## Stages -/

/-- How far an operation has come. -/
inductive Stage where
  /-- it has neither started a process nor issued a call -/
  | idle
  /-- it has started a process of which its session does not know yet -/
  | spawned (c : Nat)
  /-- it reads the banner of the process; `rest` is what it has not yet read of it -/
  | greeting (c : Nat) (rest : List UInt8)
  /-- it has read the banner of the process that it started -/
  | greeted
  /-- it has issued a call -/
  | calling (call : Call)
  /-- there is nothing left for it but to end with a fault -/
  | failed (f : Fault)
  /-- its first call is over -/
  | beyond

namespace Stage

/-- The operation may do things aside, and may issue a call. -/
def Free : Stage → Prop
  | .idle | .greeted => True
  | _ => False

end Stage

/-- A session without calls has a process that runs; nobody is to be told of the output of the
process, and what was not yet read of it agrees with `rest`. -/
structure Feeds (s c : Nat) (rest : List UInt8) (w : World) : Prop where
  child_eq : (w.session s).transport.child = some c
  atRest : AtRest (w.session s).dispatch
  process : ∃ child, w.host.child? c = some child ∧ child.status = none ∧ child.ended = false ∧
    child.listener = none ∧ Agree child.output rest

/-- What an operation may do from a stage on, and the stage that it then has come to. -/
inductive Advances (s : Nat) (b : Banner) : World → Stage → World → Stage → Prop where
  | aside {w w' : World} {g : Stage} (hfree : g.Free) (h : Aside s w w') : Advances s b w g w' g
  /-- there is no process to be had -/
  | absent {w w' : World} {f : Fault} (hstopped : w.isRunning s = false) :
    Advances s b w .idle w' (.failed f)
  | spawn {w : World} {host : Host} {c : Nat} (hstopped : w.isRunning s = false)
      (heq : w.host.spawn [(w.session s).transport.executable, modeOption]
        (w.session s).transport.directory (w.session s).transport.environment =
        (.started c, host)) : Advances s b w .idle { w with host := host } (.spawned c)
  | connect {w : World} {c : Nat} :
    Advances s b w (.spawned c) (w.modifyTransport s fun t => { t with child := some c })
      (.greeting c b.bytes)
  | read {w : World} {c n : Nat} {rest : List UInt8} {child : Host.Child}
    (hchild : w.host.child? c = some child) (houtput : n ≤ child.output.length)
    (hrest : n ≤ rest.length) :
    Advances s b w (.greeting c rest)
      (w.modifyChild c fun child => { child with output := child.output.drop n })
      (.greeting c (rest.drop n))
  /-- the output ended before all of the banner came -/
  | cut {w : World} {c : Nat} {rest : List UInt8} {child : Host.Child}
    (hchild : w.host.child? c = some child) (hended : child.ended = true) :
    Advances s b w (.greeting c rest) (w.modifyChild c fun child => { child with output := [] })
      (.failed (.unavailable .died))
  | greet {w : World} {c : Nat} : Advances s b w (.greeting c [])
      (w.modifyTransport s fun t => { t with version := some (b.major, b.minor) }) .greeted
  | issue {w : World} {g : Stage} {command : Command} {addressee : Addressee} (hfree : g.Free)
      (hrunning : w.isRunning s = true) :
    Advances s b w g (w.issue s command addressee).2 (.calling (w.issue s command addressee).1)
  | report {w : World} {call : Call} {e : Event} :
    Advances s b w (.calling call) (w.report e) (.calling call)
  | fail {w w' : World} {f : Fault} (h : Aside s w w') : Advances s b w (.failed f) w' (.failed f)
  | beyond {w w' : World} : Advances s b w .beyond w' .beyond

/-- Someone who waits for `n` bytes of the banner can go on: they are there, or the output has ended
before. -/
def Ready (s c : Nat) (rest : List UInt8) (n : Nat) (w : World) : Prop :=
  ∃ child, w.host.child? c = some child ∧
    (Feeds s c rest w ∧ n ≤ child.output.length ∨ child.ended = true ∧ child.output.length < n)

/-- What operations on a session keep to up to the end of their first call. -/
def opening (s : Nat) (b : Banner) : Discipline World Await Stage where
  Step := Advances s b
  Pause on w g :=
    match g with
    | .greeting c rest => ∃ n child, on = .output c n ∧ n ≤ rest.length ∧ Feeds s c rest w ∧
      w.host.child? c = some child ∧ child.output.length < n
    | .calling call => on = .outcome s call.id ∧ call.addressee = .waiter
    | .beyond => True
    | _ => False
  Wake on signal _ g w' g' :=
    match g with
    | .greeting c rest => g' = g ∧ signal = .woken ∧ ∀ n, on = .output c n → Ready s c rest n w'
    | .calling call => g' = .beyond ∨ ∃ o, g' = .failed (.unavailable o) ∧
      (w'.session s).dispatch.outcomes.get? call.id = some (.failed (.unavailable o))
    | _ => g' = .beyond

/-- The next process that is started runs on and sends its banner before anything else. -/
def Expects (b : Banner) (w : World) : Prop :=
  (w.host.behaviours.head?.getD { greeting := Host.defaultGreeting }).exits = none ∧
    Agree (w.host.behaviours.head?.getD { greeting := Host.defaultGreeting }).greeting b.bytes

/-- An operation is about to start a process, or about to issue a call to one that runs. -/
def Good (s : Nat) (b : Banner) (w : World) (g : Stage) : Prop :=
  s < w.sessions.length ∧ AtRest (w.session s).dispatch ∧
    match g with
    | .idle => w.isRunning s = true ∨ Expects b w
    | .greeted => w.isRunning s = true
    | _ => False

/-- An operation may end with a fault: not in the middle of a start or after a call, and if it has
failed then with the fault with which it has failed. -/
def Stage.MayFail (f : Fault) : Stage → Prop
  | .failed f' => f = f'
  | .spawned _ | .greeting .. | .calling _ => False
  | _ => True

/-- Where a part of an operation ends well, the operation goes on. -/
def Left (s : Nat) (b : Banner) {α : Type} (r : Result α) (w : World) (g : Stage) : Prop :=
  match r with
  | .ok _ => Good s b w g ∨ g = .beyond
  | .error f => g.MayFail f

/-- A part of an operation keeps to the stages. -/
def Enters (s : Nat) (b : Banner) {α : Type} (p : Action α) : Prop :=
  ∀ w g, Good s b w g → Safe (opening s b) p (Left s b) w g

section Rules

variable {s : Nat} {b : Banner} {α β : Type} {w w' : World} {g : Stage}

theorem Good.free (h : Good s b w g) : g.Free := by
  cases g with
  | idle => trivial
  | greeted => trivial
  | _ => exact h.2.2.elim

theorem Good.mayFail (h : Good s b w g) (f : Fault) : g.MayFail f := by
  cases g with
  | idle => trivial
  | greeted => trivial
  | _ => exact h.2.2.elim

theorem Good.aside (h : Good s b w g) (haside : Aside s w w') : Good s b w' g := by
  obtain ⟨disk, hdisk⟩ := haside.host_eq
  obtain ⟨hs, hrest, h⟩ := h
  refine ⟨haside.length_eq ▸ hs, haside.rest hrest, ?_⟩
  cases g with
  | idle =>
    refine h.imp (haside.isRunning_eq.trans ·) fun hexpects => ?_
    unfold Expects at hexpects ⊢
    rw [hdisk]
    exact hexpects
  | greeted => exact haside.isRunning_eq.trans h
  | _ => exact h.elim

variable {p : Action α}

/-- After its first call an operation may do anything. -/
theorem safe_beyond {Q : Result α → World → Stage → Prop} (hQ : ∀ r w, Q r w .beyond) (w : World) :
    Safe (opening s b) p Q w .beyond := by
  induction p generalizing w with
  | done r => exact hQ r w
  | look next ih => exact ih w w
  | store w' next ih => exact ⟨.beyond, .beyond, ih w'⟩
  | wait on deadline next ih =>
    refine ⟨trivial, fun signal w' g' hwake => ?_⟩
    cases hwake
    exact ih signal w'

theorem left_beyond (r : Result α) (w : World) : Left s b r w .beyond := by
  cases r with
  | ok a => exact .inr rfl
  | error f => trivial

theorem Good.left (h : Good s b w g) (r : Result α) : Left s b r w g := by
  cases r with
  | ok a => exact .inl h
  | error f => exact h.mayFail f

theorem Enters.done (r : Result α) : Enters s b (.done r) := fun _ _ hgood => hgood.left r

protected theorem Enters.pure (a : α) : Enters s b (pure a : Action α) := .done (.ok a)

protected theorem Enters.get : Enters s b (get : Action World) := fun _ _ hgood => .inl hgood

theorem Enters.bind {f : α → Action β} (hp : Enters s b p) (hf : ∀ a, Enters s b (f a)) :
    Enters s b (p >>= f) := by
  intro w g hgood
  apply Safe.bind
  apply (hp w g hgood).mono
  intro r w' g' hleft
  cases r with
  | ok a =>
    rcases hleft with hgood' | rfl
    · exact hf a w' g' hgood'
    · exact safe_beyond (fun r w => left_beyond r w) w'
  | error f => exact hleft

protected theorem Enters.map (f : α → β) (hp : Enters s b p) : Enters s b (f <$> p) :=
  .bind hp fun a => .pure (f a)

theorem safe_aside {next : Action α} {Q : Result α → World → Stage → Prop} (hgood : Good s b w g)
    (haside : Aside s w w') (hnext : Good s b w' g → Safe (opening s b) next Q w' g) :
    Safe (opening s b) (.store w' next) Q w g :=
  ⟨g, .aside hgood.free haside, hnext (hgood.aside haside)⟩

theorem enters_modify {f : World → World} (hf : ∀ w, Aside s w (f w)) :
    Enters s b (modify f : Action PUnit) :=
  fun w _ hgood => safe_aside hgood (hf w) .inl

theorem enters_modifySession {f : Session → Session}
    (htransport : ∀ session, (f session).transport = session.transport)
    (hdispatch : ∀ session, (f session).dispatch = session.dispatch) :
    Enters s b (modifySession s f) :=
  enters_modify fun _ => .modifySession (htransport _) (hdispatch _)

protected theorem Enters.session : Enters s b (session s) := .bind .get fun _ => .pure _

end Rules

/-! ## Reading the banner -/

section Reading

variable {s c n : Nat} {b : Banner} {α β : Type} {w : World} {rest : List UInt8}
  {child : Host.Child}

/-- A part of the start has read what it was to read, and `rest` is still to be read; or the start
has failed. -/
def Reads (s c : Nat) {α : Type} (a : α) (rest : List UInt8) (r : Result α) (w : World)
    (g : Stage) : Prop :=
  (r = .ok a ∧ g = .greeting c rest ∧ Feeds s c rest w) ∨ ∃ f, r = .error f ∧ g = .failed f

theorem safe_reads_bind {p : Action α} {f : α → Action β} {Q : Result β → World → Stage → Prop}
    {g : Stage} {a : α} (hp : Safe (opening s b) p (Reads s c a rest) w g)
    (hf : ∀ w, Feeds s c rest w → Safe (opening s b) (f a) Q w (.greeting c rest))
    (hQ : ∀ f w, Q (.error f) w (.failed f)) : Safe (opening s b) (p >>= f) Q w g := by
  apply Safe.bind
  apply hp.mono
  rintro r w' g' (⟨rfl, rfl, hfeeds⟩ | ⟨f, rfl, rfl⟩)
  · exact hf w' hfeeds
  · exact hQ f w'

theorem Feeds.drop (h : Feeds s c rest w) (hchild : w.host.child? c = some child)
    (houtput : n ≤ child.output.length) (hrest : n ≤ rest.length) :
    Feeds s c (rest.drop n) (w.modifyChild c
      fun child => { child with output := child.output.drop n }) := by
  obtain ⟨hserves, hcalls, child', hchild', hstatus, hended, hlistener, hagree⟩ := h
  obtain rfl : child = child' := Option.some.inj (hchild.symm.trans hchild')
  refine ⟨hserves, hcalls, { child with output := child.output.drop n }, ?_, hstatus,
    hended, hlistener, hagree.drop houtput hrest⟩
  rw [child?_modifyChild, hchild, Option.map_some]

/-- Bytes that are there are taken. -/
theorem safe_takeOutput {Q : Result (Option (List UInt8)) → World → Stage → Prop}
    (hfeeds : Feeds s c rest w) (hrest : n ≤ rest.length) (hchild : w.host.child? c = some child)
    (houtput : n ≤ child.output.length) (hQ : ∀ w', Feeds s c (rest.drop n) w' →
      Q (.ok (some (rest.take n))) w' (.greeting c (rest.drop n))) :
    Safe (opening s b) (takeOutput c n) Q w (.greeting c rest) := by
  have htake : child.output.take n = rest.take n := by
    obtain ⟨-, -, child', hchild', -, -, -, hagree⟩ := hfeeds
    obtain rfl : child = child' := Option.some.inj (hchild.symm.trans hchild')
    exact hagree.take_eq houtput hrest
  apply Safe.get
  simp only [hchild, available, if_pos houtput, htake]
  exact ⟨_, .read hchild houtput hrest, hQ _ (hfeeds.drop hchild houtput hrest)⟩

/-- Reading takes bytes of the banner, whether they are there or are waited for, unless the output
ends before. -/
theorem safe_readExactly (hfeeds : Feeds s c rest w) (hrest : n ≤ rest.length)
    (deadline : Option Int) :
    Safe (opening s b) (readExactly c n deadline) (Reads s c (rest.take n) (rest.drop n)) w
      (.greeting c rest) := by
  obtain ⟨-, -, child, hchild, hstatus, hended, hlistener, hagree⟩ := id hfeeds
  by_cases houtput : n ≤ child.output.length
  · apply Safe.bind
    apply safe_takeOutput hfeeds hrest hchild houtput
    exact fun w' hfeeds' => .inl ⟨rfl, rfl, hfeeds'⟩
  · have hnone : Safe (opening s b) (takeOutput c n)
      (fun r w' g' => r = .ok none ∧ w' = w ∧ g' = .greeting c rest) w (.greeting c rest) := by
      apply Safe.get
      simp only [hchild, available, if_neg houtput, hended, Bool.false_eq_true, if_false]
      exact ⟨rfl, rfl, rfl⟩
    apply Safe.bind
    apply hnone.mono
    rintro r w' g' ⟨rfl, rfl, rfl⟩
    apply Safe.get
    simp only [hchild, Option.bind_some, hlistener, Option.isSome_none,
      Bool.false_eq_true, if_false]
    refine ⟨⟨n, child, rfl, hrest, hfeeds, hchild, Nat.lt_of_not_le houtput⟩,
      fun signal w₁ g₁ hwake => ?_⟩
    obtain ⟨rfl, rfl, hend⟩ := hwake
    show Safe (opening s b) (takeOutput c n >>= fun bytes => pure (bytes.getD [])) _ w₁ _
    apply Safe.bind
    obtain ⟨child₁, hchild₁, ⟨hfeeds₁, houtput₁⟩ | ⟨hended₁, houtput₁⟩⟩ := hend n rfl
    · apply safe_takeOutput hfeeds₁ hrest hchild₁ houtput₁
      exact fun w' hfeeds' => .inl ⟨rfl, rfl, hfeeds'⟩
    · apply Safe.get
      simp only [hchild₁, available, if_neg (Nat.not_le_of_lt houtput₁), hended₁, if_true]
      exact ⟨_, .cut hchild₁ hended₁, .inr ⟨_, rfl, rfl⟩⟩

/-- Text of the banner is read to its last character; `bytes` are those that the missing characters
are still owed. -/
theorem safe_readText {bytes : List UInt8} {cs read : List Char}
    {pending : Option Text.Utf8.Sequence} {bound : Nat}
    (hfeeds : Feeds s c (bytes ++ rest) w) (hdecode : Text.Utf8.decodeFrom? pending bytes = some cs)
    (hbound : bytes.length < bound) (deadline : Option Int) :
    Safe (opening s b) (readText s deadline bound (Int.ofNat cs.length) pending read)
      (Reads s c (read ++ cs) rest) w (.greeting c (bytes ++ rest)) := by
  induction bound generalizing w bytes cs read pending with
  | zero => exact absurd hbound (Nat.not_lt_zero _)
  | succ bound ih =>
    unfold readText
    by_cases hcs : cs.length = 0
    · obtain rfl : cs = [] := length_eq_zero_iff.mp hcs
      obtain rfl := Text.Utf8.eq_nil_of_decodeFrom?_nil hdecode
      rw [if_pos (by simp)]
      exact .inl ⟨by simp, rfl, hfeeds⟩
    · have hle := Text.Utf8.length_le_of_decodeFrom? hdecode
      obtain ⟨ds, hds, hdecode', hmissing⟩ := Text.Utf8.exists_missing hdecode cs.length
      generalize hfed : Text.Utf8.feed pending (bytes.take cs.length) = fed at hds hdecode' hmissing
      rw [if_neg (by simp only [Int.ofNat_eq_natCast]; omega)]
      have hprocess : ∀ f : Nat → Action (List Char),
        Safe (opening s b) (f c) (Reads s c (read ++ cs) rest) w (.greeting c (bytes ++ rest)) →
          Safe (opening s b) (process s >>= f) (Reads s c (read ++ cs) rest) w
            (.greeting c (bytes ++ rest)) := by
        intro f hf
        apply Safe.bind
        apply safe_session
        rw [hfeeds.child_eq]
        exact hf
      apply hprocess
      have hread : Safe (opening s b) (readExactly c (Int.ofNat cs.length).toNat deadline)
          (Reads s c (bytes.take cs.length) (bytes.drop cs.length ++ rest)) w
          (.greeting c (bytes ++ rest)) := by
        have hread :=
          safe_readExactly (b := b) (n := cs.length) hfeeds (by rw [length_append]; omega) deadline
        rw [take_append_of_le_length hle, drop_append_of_le_length hle] at hread
        exact hread
      refine safe_reads_bind hread (fun w' hfeeds' => ?_) fun f w' => .inr ⟨f, rfl, rfl⟩
      simp only [hfed, hmissing]
      have happend : read ++ cs = read ++ fed.1 ++ ds := by rw [hds, append_assoc]
      rw [happend]
      exact ih hfeeds' hdecode' (by rw [length_drop]; omega)

/-- The banner is read, and nothing after it. -/
theorem safe_receiveMessage (hfeeds : Feeds s c b.bytes w) (deadline : Option Int) :
    Safe (opening s b) (receiveMessage s deadline)
      (Reads s c (.banner (b.major :: b.minor :: b.more)) []) w (.greeting c b.bytes) := by
  have hheader := Wire.parseHeader_hexPadded (n := b.payload.length + 1) (Nat.lt_succ_of_le b.fits)
  have hbytes : b.bytes = Text.Utf8.encode
    (Text.hexPadded Wire.headerSize (b.payload.length + 1)) ++
      Text.Utf8.encode (frameText b.payload) := frameBytes_eq b.payload
  generalize Text.Utf8.encode (Text.hexPadded Wire.headerSize (b.payload.length + 1)) = header
    at hbytes hheader
  obtain ⟨hsize, hparse⟩ := hheader
  have hchars : (frameText b.payload).length = b.payload.length + 1 := by
    rw [frameText, length_append, length_singleton, String.length_toList]
  have hlength := Text.Utf8.length_encode_le (frameText b.payload)
  rw [receiveMessage, hbytes]
  rw [hbytes] at hfeeds
  have htext : Safe (opening s b) (receiveText s deadline) (Reads s c (frameText b.payload) []) w
      (.greeting c (header ++ Text.Utf8.encode (frameText b.payload))) := by
    apply safe_session
    rw [hfeeds.child_eq]
    have hread := safe_readExactly (b := b) (n := Wire.headerSize) hfeeds
      (by rw [length_append, hsize]; omega) deadline
    rw [take_left' hsize, drop_left' hsize] at hread
    refine safe_reads_bind hread (fun w' hfeeds' => ?_) fun f w' => .inr ⟨f, rfl, rfl⟩
    rw [hparse]
    rw [← append_nil (Text.Utf8.encode (frameText b.payload))] at hfeeds' ⊢
    rw [← nil_append (frameText b.payload)]
    rw [← hchars]
    apply safe_readText hfeeds' (Text.Utf8.decodeFrom?_encode _)
    simp only [Int.ofNat_eq_natCast, Int.toNat_natCast]
    omega
  refine safe_reads_bind htext (fun w' hfeeds' => ?_) fun f w' => .inr ⟨f, rfl, rfl⟩
  rw [b.understood]
  exact .inl ⟨rfl, rfl, hfeeds'⟩

end Reading

/-! ## Starting -/

section Starting

variable {s : Nat} {b : Banner} {w : World}

variable {c : Nat} {rest : List UInt8}

theorem Feeds.isRunning (h : Feeds s c rest w) : w.isRunning s = true := by
  obtain ⟨hserves, -, child, hchild, hstatus, -⟩ := h
  simp [World.isRunning, hserves, Host.isRunning, hchild, Host.Child.isRunning, hstatus]

/-- A session that has a process exists. -/
theorem Feeds.present (h : Feeds s c rest w) : s < w.sessions.length := by
  apply Nat.lt_of_not_le
  intro hle
  have hserves := h.child_eq
  rw [World.session, List.getElem?_eq_none hle] at hserves
  cases hserves

theorem Feeds.version (h : Feeds s c rest w) (version : Option (Value × Value)) :
    Feeds s c rest (w.modifyTransport s fun t => { t with version := version }) := by
  unfold modifyTransport
  refine ⟨?_, ?_, h.process⟩
  · rw [session_modifySession_self h.present]
    exact h.child_eq
  · rw [session_modifySession_self h.present]
    exact h.atRest

/-- What becomes of a start: a process is there, or the start fails. -/
def Starts (s : Nat) {α : Type} (r : Result α) (w : World) (g : Stage) : Prop :=
  (∃ a c, r = .ok a ∧ g = .greeted ∧ Feeds s c [] w) ∨ ∃ f, r = .error f ∧ g = .failed f

theorem feeds_of_spawn {host : Host} {command : List String} {directory : String}
    {environment : List (String × String)} (hs : s < w.sessions.length)
    (hrest : AtRest (w.session s).dispatch) (hexpects : Expects b w)
    (hspawn : w.host.spawn command directory environment = (.started c, host)) :
    Feeds s c b.bytes ({ w with host := host }.modifyTransport s
      fun t => { t with child := some c }) := by
  obtain ⟨hexits, hagree⟩ := hexpects
  have hs' : s < { w with host := host }.sessions.length := hs
  unfold modifyTransport
  constructor
  · rw [session_modifySession_self hs']
  · rw [session_modifySession_self hs']
    exact hrest
  · unfold Host.spawn at hspawn
    dsimp only at hspawn
    rw [hexits] at hspawn
    split at hspawn
    · cases hspawn
    · split at hspawn
      · cases hspawn
      · cases hspawn
        exact ⟨_, List.getElem?_concat_length, rfl, rfl, rfl, hagree⟩

/-- A process is started, of which the banner is to be read. -/
theorem safe_spawn (hs : s < w.sessions.length) (hrest : AtRest (w.session s).dispatch)
    (hstopped : w.isRunning s = false) (hexpects : Expects b w) : Safe (opening s b) (spawn s)
      (fun r w' g' => (∃ c, r = .ok c ∧ g' = .greeting c b.bytes ∧ Feeds s c b.bytes w') ∨
      ∃ f, r = .error f ∧ g' = .failed f) w .idle := by
  apply safe_session
  apply Safe.get
  generalize hspawn : w.host.spawn _ _ _ = spawned
  obtain ⟨result, host⟩ := spawned
  cases result with
  | missing => exact ⟨_, .absent hstopped, .inr ⟨_, rfl, rfl⟩⟩
  | denied => exact ⟨_, .absent hstopped, .inr ⟨_, rfl, rfl⟩⟩
  | started c =>
    have hfeeds := feeds_of_spawn hs hrest hexpects hspawn
    exact ⟨_, .spawn hstopped hspawn, _, .connect, .inl ⟨c, rfl, rfl, hfeeds⟩⟩

/-- What is done once the banner is read. -/
theorem safe_greet (hfeeds : Feeds s c [] w) :
    Safe (opening s b) (greet s (.banner (b.major :: b.minor :: b.more))) (Starts s) w
      (.greeting c []) := by
  have hfeeds' := hfeeds.version (some (b.major, b.minor))
  apply Safe.modify_bind .greeted Advances.greet
  apply Safe.bind
  apply safe_session
  rw [hfeeds'.child_eq]
  exact .inl ⟨_, c, rfl, rfl, hfeeds'⟩

theorem safe_start (hs : s < w.sessions.length) (hrest : AtRest (w.session s).dispatch)
    (hstopped : w.isRunning s = false) (hexpects : Expects b w) :
    Safe (opening s b) (start s startLimit) (Starts s) w .idle := by
  apply safe_isRunning
  rw [hstopped]
  apply Safe.bind
  apply (safe_spawn hs hrest hstopped hexpects).mono
  rintro r w₁ g₁ (⟨c, rfl, rfl, hfeeds⟩ | ⟨f, rfl, rfl⟩)
  · have hbanner : Safe (opening s b) (readBanner s startLimit)
      (Reads s c (.banner (b.major :: b.minor :: b.more)) []) w₁ (.greeting c b.bytes) := by
      unfold readBanner
      rw [if_neg (by decide)]
      exact safe_receiveMessage hfeeds _
    refine safe_reads_bind hbanner (fun w₂ hfeeds₂ => ?_) fun f w₂ => .inr ⟨f, rfl, rfl⟩
    exact safe_greet hfeeds₂
  · exact .inr ⟨f, rfl, rfl⟩

end Starting

end IdeMode.Startup
