import IdeMode.Proofs.Buffer.Lines
import IdeMode.Proofs.Calls.Conduct
import IdeMode.Proofs.Session.Log
set_option autoImplicit false

/-!
# Programs that keep the log

A program that works with a session adds notes to its log with every replacement of the world. The
log that it finds after a wait has grown, and the session still is as the log has it. `Meets` says
what a program can rely on and what it achieves, in terms of the world and the log.
-/

namespace IdeMode

open Prog World Account Session List

/-! ## Buffers -/

theorem succeeds_changed (b : Buffer) (text : List Char) : (b.changed text).Succeeds b :=
  ⟨rfl, Nat.le_succ _, fun h => absurd h (Nat.succ_ne_self _)⟩

variable {b b' : Buffer} {disk : Disk}

theorem succeeds_reread {changed : Bool}
    (h : b.reread disk = .ok (changed, b')) : b'.Succeeds b := by
  unfold Buffer.reread at h
  split at h
  · cases h
  · split at h
    · cases h
      exact ⟨rfl, Nat.le_refl _, fun _ => rfl⟩
    · cases h
      exact succeeds_changed b _

theorem succeeds_replace {disk' : Disk} {start finish : Int} {text : List Char}
    (h : b.replace disk start finish text = .ok (b', disk')) : b'.Succeeds b := by
  obtain ⟨-, rfl, -⟩ := Buffer.replace_eq_ok h
  exact succeeds_changed b _

theorem succeeds_insert {disk' : Disk} {e : Editor} {start finish : Int} {text : List Char}
    {fields : List Field} (h : e.insert b disk start finish text = .ok (fields, b', disk')) :
    b'.Succeeds b := by
  obtain ⟨inserted, hreplaced⟩ := Editor.exists_replace h
  exact succeeds_replace hreplaced

/-! ## Keeping a log -/

/-- Any note may come next. -/
def Unbound (ℓ : List Note) : Prop := ∀ x : Note, x.Follows ℓ

/-- A move begins, or an operation begins or ends: no program makes such a note. -/
def Note.IsFrame : Note → Prop
  | .launch _ _ | .done _ _ _ | .act .pass => True
  | _ => False

/-- Who may add a note: the operation of a request where it waits for no call, or anybody. -/
def Note.By (origin : Option SessionRequest) (phase : Client.Phase) : Note → Prop
  | .launch _ _ | .done _ _ _ | .act .pass => False
  | .issue request _ _ => origin = some request ∧ phase = .free
  | .act (.refuse _) | .act .discard | .spawn _ | .forget | .clear | .opened _ _ | .watch _ | .adopt
      _ _ | .change _ =>
    origin ≠ none ∧ phase = .free
  | _ => True

variable {x : Note} {call : Call} {purpose : Purpose} {request : SessionRequest} {notes : List Note}
  {f : Session → Session} {limit : Option Duration} {command : Command} {tag : String}

theorem Note.By.not_isFrame {origin : Option SessionRequest} {phase : Client.Phase}
    (h : x.By origin phase) : ¬ x.IsFrame := by
  cases x with
  | launch index request => exact h.elim
  | done index request r => exact h.elim
  | act a =>
    cases a with
    | pass => exact h.elim
    | _ => exact fun hframe => hframe.elim
  | _ => exact fun hframe => hframe.elim

theorem Note.By.deed {origin : Option SessionRequest} {phase : Client.Phase} (h : x.By origin phase)
    (hx : x.IsDeed) : phase = .free ∧ origin ≠ none := by
  cases x with
  | issue request call purpose => exact ⟨h.2, h.1 ▸ nofun⟩
  | act a =>
    cases a with
    | refuse call => exact h.symm
    | discard => exact h.symm
    | _ => exact hx.elim
  | launch index request => exact h.elim
  | spawn c => exact h.symm
  | forget => exact h.symm
  | clear => exact h.symm
  | opened name b => exact h.symm
  | watch d => exact h.symm
  | adopt d b => exact h.symm
  | change p => exact h.symm
  | _ => exact hx.elim

/-- The world is as the log of a session has it. -/
structure Tied (s : Nat) (ℓ : List Note) (w : World) (phase : Client.Phase) : Prop where
  present : s < w.sessions.length
  view_eq : phase.view s w = replay (acts ℓ)
  memory_eq : (w.session s).memory = recount ℓ
  valid : Valid ℓ
  started : ∀ c, .spawn c ∈ ℓ → c < w.host.children.length

/-- The processes that notes after a log say were started are there, and each took the place of one
that has exited. -/
def Replaces (ℓ notes : List Note) (h : Host) : Prop :=
  ∀ before c after, notes = before ++ .spawn c :: after → c < h.children.length ∧
    ∀ c', (recount (ℓ ++ before)).transport.child = some c' → h.Gone c'

/-- The notes tell what changed in a session between two worlds. -/
structure Tells (s : Nat) (ℓ : List Note) (w : World) (notes : List Note) (w' : World) : Prop where
  memory_eq : (w'.session s).memory = (w.session s).memory.noting notes
  sent_eq : w'.host.sent = w.host.sent ++ notes.filterMap Note.sent?
  serves : ServesOnly s w w'
  valid : Valid (ℓ ++ notes)
  lasts : w.host.Lasts w'.host
  /-- a process is written to only if it runs -/
  writes : ∀ c call, .write c call ∈ notes → ¬ w.host.Gone c
  spawns : Replaces ℓ notes w'.host

/-- A replacement of the world adds notes to the log. -/
structure Works (s : Nat) (origin : Option SessionRequest) (ℓ : List Note) (w : World)
    (phase : Client.Phase) (notes : List Note) (w' : World) (phase' : Client.Phase) :
    Prop extends Tells s ℓ w notes w' where
  does : Client.Does s w phase (acts notes) w' phase'
  doer : ∀ x ∈ notes, x.By origin phase
  single : ∀ x ∈ notes, x.IsDeed → notes = [x]

/-- What programs keep to with a session that exists and its log. -/
def keeping (s : Nat) (origin : Option SessionRequest) :
    Discipline World Await (List Note × Client.Phase) where
  Step w g w' g' := ∃ notes, g'.1 = g.1 ++ notes ∧ Works s origin g.1 w g.2 notes w' g'.2
  Pause on _ g := g.2.MayWait s origin.isSome on ∧ Unbound g.1
  Wake _ _ _ g w' g' := g'.2 = g.2.woken ∧ g.1 <+: g'.1 ∧ Tied s g'.1 w' g'.2 ∧ Begun g'.1

/-- A program is at its end, where it waits for no call and leaves a choice what is noted next; if
it ends well, `Q` holds of its answer. -/
def Reaches {α : Type} (Q : α → World → List Note → Prop) (r : Result α) (w : World)
    (g : List Note × Client.Phase) : Prop :=
  g.2 = .free ∧ Unbound g.1 ∧ ∀ a, r = .ok a → Q a w g.1

/-- From a world and a log with `P` a program keeps the log and ends with `Q`. -/
def Meets (s : Nat) (origin : Option SessionRequest) {α : Type} (P : World → List Note → Prop)
    (p : Action α) (Q : α → World → List Note → Prop) : Prop :=
  ∀ w ℓ, Tied s ℓ w .free → Unbound ℓ → P w ℓ → Safe (keeping s origin) p (Reaches Q) w (ℓ, .free)

/-- A round of a loop is over, and the next move may begin. -/
def Rests {α : Type} (_ : Result α) (_ : World) (g : List Note × Client.Phase) : Prop :=
  g.2 = .free ∧ (Note.act .pass).Follows g.1

/-- The operation of a request may end with a result. -/
def Closes (request : SessionRequest) (r : Result Answer) (_ : World)
    (g : List Note × Client.Phase) : Prop :=
  g.2 = .free ∧ (∀ index, (Note.done index request r).Follows g.1) ∧ Warrants g.1 request r

variable {s : Nat} {origin : Option SessionRequest} {ℓ : List Note} {w w' : World}
  {phase phase' : Client.Phase} {α β : Type}

theorem Replaces.append {more : List Note} {host host' : Host} (h : Replaces ℓ notes host)
    (h' : Replaces (ℓ ++ notes) more host') (hlasts : host.Lasts host') :
    Replaces ℓ (notes ++ more) host' := by
  intro before c after heq
  obtain ⟨more', hbefore, hmore⟩ | ⟨rest, hnotes, hrest⟩ := append_eq_append_iff.1 heq
  · have hspawned := h' more' c after hmore
    rw [append_assoc, ← hbefore] at hspawned
    exact hspawned
  · cases rest with
    | nil =>
      have hspawned := h' [] c after hrest.symm
      rw [append_nil, hnotes, append_nil] at hspawned
      exact hspawned
    | cons x rest =>
      obtain ⟨rfl, rfl⟩ := List.cons.inj hrest
      have hspawned := h before c rest hnotes
      exact ⟨Nat.lt_of_lt_of_le hspawned.1 hlasts.length_le,
        fun c' hc' => hlasts.gone (hspawned.2 c' hc')⟩

theorem Tells.started (h : Tells s ℓ w notes w')
    (hstarted : ∀ c, .spawn c ∈ ℓ → c < w.host.children.length) (c : Nat)
    (hc : .spawn c ∈ ℓ ++ notes) : c < w'.host.children.length := by
  obtain hc | hc := mem_append.1 hc
  · exact Nat.lt_of_lt_of_le (hstarted c hc) h.lasts.length_le
  · obtain ⟨before, after, heq⟩ := append_of_mem hc
    exact (h.spawns before c after heq).1

theorem Tied.works (h : Tied s ℓ w phase) (hworks : Works s origin ℓ w phase notes w' phase') :
    Tied s (ℓ ++ notes) w' phase' where
  present := Nat.lt_of_lt_of_le h.present hworks.does.informs.length_le
  view_eq := by
    rw [hworks.does.view_eq, h.view_eq, acts_append]
    exact (foldl_append ..).symm
  memory_eq := by rw [hworks.memory_eq, h.memory_eq, recount_append]
  valid := hworks.valid
  started := hworks.started h.started

theorem Tied.account_eq (h : Tied s ℓ w .free) : w.account s = replay (acts ℓ) := h.view_eq

/-- The log that a program leaves behind goes on from the one that it found. -/
theorem Safe.tied {p : Action α} {Q : Result α → World → List Note × Client.Phase → Prop}
    (h : Safe (keeping s origin) p Q w (ℓ, phase)) (htied : Tied s ℓ w phase) :
    Safe (keeping s origin) p
      (fun r w' g => Q r w' g ∧ Tied s g.1 w' g.2 ∧ ℓ <+: g.1) w (ℓ, phase) := by
  refine Safe.always (I := fun w' g => Tied s g.1 w' g.2 ∧ ℓ <+: g.1) ?_ ?_ h ⟨htied, prefix_refl ℓ⟩
  · rintro w₁ ⟨ℓ₁, phase₁⟩ w₂ ⟨ℓ₂, phase₂⟩ ⟨htied, hinitial⟩ ⟨notes, hnotes, hworks⟩
    obtain rfl : ℓ₂ = ℓ₁ ++ notes := hnotes
    exact ⟨htied.works hworks, hinitial.trans (prefix_append ..)⟩
  · rintro on signal w₁ ⟨ℓ₁, phase₁⟩ w₂ ⟨ℓ₂, phase₂⟩ ⟨-, hinitial⟩ ⟨-, hgrown, htied, -⟩
    exact ⟨htied, hinitial.trans hgrown⟩

/-! ## Where any note may come next -/

/-- The last note demands nothing of the next. -/
def Note.Leaves (ℓ : List Note) : Note → Prop
  | .issue _ call _ | .act (.refuse call) =>
    ∀ label d generation, call.addressee ≠ .load label d generation
  | .act (.reply _ _ _) => False
  | .act (.resume call outcome) =>
    ∀ r label d generation, outcome = .answered r → call.addressee ≠ .load label d generation
  | .take _ purpose outcome =>
    ∀ r, outcome = .answered r →
      (∀ p, purpose ≠ .move p) ∧ ∀ d generation, purpose ≠ .load d generation
  | .pick call => ¬ InHand call (ℓ ++ [.pick call])
  | _ => True

theorem Note.Leaves.demands {y : Note} (hy : y.Leaves ℓ) : y.Demands ℓ x := by
  cases y with
  | issue request call purpose =>
    exact fun ⟨label, d, generation, haddressee⟩ => absurd haddressee (hy label d generation)
  | take call purpose outcome =>
    cases outcome with
    | answered r =>
      cases purpose with
      | move p => exact absurd rfl ((hy r rfl).1 p)
      | load d generation => exact absurd rfl ((hy r rfl).2 d generation)
      | _ => trivial
    | _ => cases purpose <;> trivial
  | pick call => exact fun hhand => absurd hhand hy
  | act a =>
    cases a with
    | refuse call =>
      exact fun ⟨label, d, generation, haddressee⟩ => absurd haddressee (hy label d generation)
    | reply id ok payload => exact hy.elim
    | resume call outcome =>
      cases outcome with
      | answered r =>
        exact fun label d generation haddressee => absurd haddressee (hy r label d generation rfl)
      | _ => trivial
    | _ => trivial
  | _ => trivial

theorem unbound_nil : Unbound [] := by
  intro x before y heq
  simp at heq

theorem unbound_snoc {y : Note} (hy : y.Leaves ℓ) : Unbound (ℓ ++ [y]) :=
  fun _ => follows_snoc hy.demands

/-! ## Structure of programs -/

section Structure

variable {P : World → List Note → Prop} {Q : α → World → List Note → Prop}
  {R : β → World → List Note → Prop}

theorem safe_pure {a : α} (hunbound : Unbound ℓ) (ha : Q a w ℓ) :
    Safe (keeping s origin) (pure a : Action α) (Reaches Q) w (ℓ, .free) := by
  refine ⟨rfl, hunbound, ?_⟩
  rintro _ ⟨⟩
  exact ha

theorem safe_throw {e : Fault} (hunbound : Unbound ℓ) :
    Safe (keeping s origin) (throw e : Action α) (Reaches Q) w (ℓ, .free) := ⟨rfl, hunbound, nofun⟩

variable {p : Action α} {f : α → Action β}

theorem safe_ofResult {r : Result α} (hunbound : Unbound ℓ)
    (h : ∀ a, r = .ok a → Safe (keeping s origin) (f a) (Reaches R) w (ℓ, .free)) :
    Safe (keeping s origin) (Prog.ofResult r >>= f) (Reaches R) w (ℓ, .free) := by
  cases r with
  | ok a => exact h a rfl
  | error e => exact ⟨rfl, hunbound, nofun⟩

/-- What comes after a program that meets its specification finds a log that has grown. -/
theorem Meets.bind {E : Result β → World → List Note × Client.Phase → Prop}
    (h : Meets s origin P p Q) (htied : Tied s ℓ w .free) (hunbound : Unbound ℓ) (hP : P w ℓ)
    (hok : ∀ a w' ℓ', Tied s ℓ' w' .free → Unbound ℓ' → ℓ <+: ℓ' → Q a w' ℓ' →
      Safe (keeping s origin) (f a) E w' (ℓ', .free))
    (herror : ∀ e w' ℓ', Unbound ℓ' → E (.error e) w' (ℓ', .free)) :
    Safe (keeping s origin) (p >>= f) E w (ℓ, .free) := by
  refine Safe.bind ((Safe.tied (h w ℓ htied hunbound hP) htied).mono ?_)
  rintro r w' ⟨ℓ', phase'⟩ ⟨⟨hphase, hunbound', hQ⟩, htied', hgrown⟩
  obtain rfl : phase' = .free := hphase
  cases r with
  | ok a => exact hok a w' ℓ' htied' hunbound' hgrown (hQ a rfl)
  | error e => exact herror e w' ℓ' hunbound'

theorem Meets.andThen (h : Meets s origin P p Q) (htied : Tied s ℓ w .free)
    (hunbound : Unbound ℓ) (hP : P w ℓ)
    (hok : ∀ a w' ℓ', Tied s ℓ' w' .free → Unbound ℓ' → ℓ <+: ℓ' → Q a w' ℓ' →
      Safe (keeping s origin) (f a) (Reaches R) w' (ℓ', .free)) :
    Safe (keeping s origin) (p >>= f) (Reaches R) w (ℓ, .free) :=
  h.bind htied hunbound hP hok fun _ _ _ hunbound' => ⟨rfl, hunbound', nofun⟩

theorem Meets.weaken {P' : World → List Note → Prop} {Q' : α → World → List Note → Prop}
    (h : Meets s origin P p Q) (hP : ∀ w ℓ, P' w ℓ → P w ℓ) (hQ : ∀ a w ℓ, Q a w ℓ → Q' a w ℓ) :
    Meets s origin P' p Q' := by
  intro w ℓ htied hunbound hP'
  refine (h w ℓ htied hunbound (hP w ℓ hP')).mono ?_
  rintro r w' g ⟨hphase, hunbound', hend⟩
  exact ⟨hphase, hunbound', fun a ha => hQ a w' g.1 (hend a ha)⟩

theorem Meets.map (f : α → β) (h : Meets s origin P p Q) :
    Meets s origin P (f <$> p) fun _ _ _ => True :=
  fun _ _ htied hunbound hP =>
    h.andThen htied hunbound hP fun _ _ _ _ hunbound _ _ => safe_pure hunbound trivial

theorem Meets.rests (h : Meets s origin P p Q) (htied : Tied s ℓ w .free) (hunbound : Unbound ℓ)
    (hP : P w ℓ) : Safe (keeping s origin) p Rests w (ℓ, .free) := by
  refine (h w ℓ htied hunbound hP).mono ?_
  rintro r w' g ⟨hphase, hunbound', -⟩
  exact ⟨hphase, hunbound' _⟩

theorem warrants_error (ℓ : List Note) (request : SessionRequest) (e : Fault) :
    Warrants ℓ request (.error e) := by
  cases request with
  | document name request => cases request <;> trivial
  | _ => trivial

theorem closes_error {e : Fault} (hunbound : Unbound ℓ) :
    Closes request (.error e) w (ℓ, .free) := ⟨rfl, fun _ => hunbound _, warrants_error ℓ request e⟩

theorem Meets.closes {p : Action Answer} {Q : Answer → World → List Note → Prop}
    (h : Meets s (some request) P p Q) (htied : Tied s ℓ w .free) (hunbound : Unbound ℓ)
    (hP : P w ℓ) (hQ : ∀ a w ℓ, Q a w ℓ → Warrants ℓ request (.ok a))
    : Safe (keeping s (some request)) p (Closes request) w (ℓ, .free) := by
  refine (h w ℓ htied hunbound hP).mono ?_
  rintro r w' ⟨ℓ', phase⟩ ⟨hphase, hunbound', hend⟩
  obtain rfl : phase = .free := hphase
  cases r with
  | ok a => exact ⟨rfl, fun _ => hunbound' _, hQ a w' ℓ' (hend a rfl)⟩
  | error e => exact closes_error hunbound'

theorem safe_map_rests (f : α → β) (h : Safe (keeping s origin) p Rests w (ℓ, phase)) :
    Safe (keeping s origin) (f <$> p) Rests w (ℓ, phase) := by
  refine Safe.bind (h.mono ?_)
  intro r w' g hrests
  cases r with
  | ok a => exact hrests
  | error e => exact hrests

/-- Goes on after a replacement of the world. -/
theorem safe_modify {f : World → World} {next : PUnit → Action α}
    {E : Result α → World → List Note × Client.Phase → Prop} (htied : Tied s ℓ w .free)
    (hworks : Works s origin ℓ w .free notes (f w) .free)
    (hnext : Tied s (ℓ ++ notes) (f w) .free → Safe (keeping s origin) (next ⟨⟩) E (f w)
      (ℓ ++ notes, .free)) : Safe (keeping s origin) (modify f >>= next) E w (ℓ, .free) :=
  ⟨(ℓ ++ notes, .free), ⟨notes, rfl, hworks⟩, hnext (htied.works hworks)⟩

theorem safe_modify_end {f : World → World} {Q : PUnit → World → List Note → Prop}
    (hworks : Works s origin ℓ w .free notes (f w) .free) (hunbound : Unbound (ℓ ++ notes))
    (hend : Q ⟨⟩ (f w) (ℓ ++ notes)) :
    Safe (keeping s origin) (modify f : Action PUnit) (Reaches Q) w (ℓ, .free) :=
  ⟨(ℓ ++ notes, .free), ⟨notes, rfl, hworks⟩, rfl, hunbound, fun _ _ => hend⟩

end Structure

/-! ## Replacements that change nothing that is remembered -/

/-- What is remembered of a session and what was written are the same. -/
structure Alike (s : Nat) (w w' : World) : Prop where
  memory_eq : (w'.session s).memory = (w.session s).memory
  sent_eq : w'.host.sent = w.host.sent
  serves : ServesOnly s w w'
  lasts : w.host.Lasts w'.host

theorem Alike.refl (w : World) : Alike s w w := ⟨rfl, rfl, .of_ready rfl, .refl _⟩

theorem Alike.trans {w₁ w₂ w₃ : World} (h : Alike s w₁ w₂)
    (h' : Alike s w₂ w₃) : Alike s w₁ w₃ := by
  exact ⟨h'.memory_eq.trans h.memory_eq, h'.sent_eq.trans h.sent_eq, h.serves.trans h'.serves,
    h.lasts.trans h'.lasts⟩

theorem composes_alike : Composes (Alike s) := ⟨.refl, .trans⟩

theorem Alike.of_stirs (h : Stirs w w') : Alike s w w' := by
  refine ⟨?_, h.sent_eq, h.servesOnly, h.lasts⟩
  unfold World.session
  rw [h.sessions_eq]

theorem alike_host {host : Host} (h : host.sent = w.host.sent) (hlasts : w.host.Lasts host) :
    Alike s w { w with host := host } := ⟨rfl, h, .of_ready rfl, hlasts⟩

theorem alike_placeFile (w : World) (name : String) (bytes : List UInt8) :
    Alike s w (w.placeFile name bytes) :=
  ⟨rfl, rfl, .of_ready rfl, Host.lasts_of_children rfl⟩

theorem alike_modifySession {t : Nat} (h : (f (w.session t)).memory = (w.session t).memory) :
    Alike s w (w.modifySession t f) :=
  ⟨session_modifySession_feature Session.memory h s, rfl, .of_ready rfl, .refl _⟩

theorem alike_modifyDispatch {t : Nat} {f : Dispatch → Dispatch}
    (h : (f (w.session t).dispatch).outbox = (w.session t).dispatch.outbox) :
    Alike s w (w.modifyDispatch t f) := by
  refine alike_modifySession ?_
  unfold Session.memory
  rw [h]

theorem alike_enqueue {e : Wake} (h : ∀ task service, e ≠ .serve task service) :
    Alike s w (w.enqueue e) := by
  refine ⟨rfl, rfl, fun task service hmem => .inl ?_, .refl _⟩
  refine (mem_append.1 hmem).resolve_right fun hmem => ?_
  exact h task service (mem_singleton.1 hmem).symm

theorem alike_report (w : World) (e : Event) : Alike s w (w.report e) :=
  ⟨rfl, rfl, .of_ready rfl, .refl _⟩

theorem alike_deliverAll (w : World) (settled : List (Call × Outcome)) :
    Alike s w (w.deliverAll s settled) :=
  composes_alike.deliverAll (fun _ _ _ => alike_modifyDispatch rfl)
    (fun w task => .of_stirs (stirs_wake w task))
    (fun _ _ _ _ => alike_enqueue (by rintro _ _ ⟨⟩)) w

theorem alike_startService {service : Service}
    (h : service = .reader s ∨ service = .writer s) (w : World) :
    Alike s w (w.startService service).2 := ⟨rfl, rfl, servesOnly_startService h w, .refl _⟩

theorem alike_ensureServices (w : World) : Alike s w (w.ensureServices s) :=
  composes_alike.ensureServices (fun w _ hservice => alike_startService hservice w)
    (fun _ _ _ => alike_modifyDispatch rfl) w

/-- Nothing happens to the calls either. -/
structure Still (s : Nat) (w w' : World) : Prop extends Quiet s w w', Alike s w w'

theorem Still.of_stirs (h : Stirs w w') : Still s w w' := ⟨h.quiet, .of_stirs h⟩

theorem still_report (w : World) (e : Event) : Still s w (w.report e) :=
  ⟨quiet_report w e, alike_report w e⟩

theorem still_modifySession (hledger : (f (w.session s)).dispatch.ledger =
    (w.session s).dispatch.ledger) (hmemory : (f (w.session s)).memory = (w.session s).memory) :
    Still s w (w.modifySession s f) :=
  ⟨quiet_modifySession hledger, alike_modifySession hmemory⟩

theorem Alike.tells (h : Alike s w w') (hvalid : Valid ℓ) : Tells s ℓ w [] w' where
  memory_eq := h.memory_eq
  sent_eq := h.sent_eq.trans (append_nil _).symm
  serves := h.serves
  valid := (append_nil ℓ).symm ▸ hvalid
  lasts := h.lasts
  writes _ _ hmem := absurd hmem not_mem_nil
  spawns before c after heq := by simp at heq

theorem Tells.trans {more : List Note} {w₁ w₂ w₃ : World} (h : Tells s ℓ w₁ notes w₂)
    (h' : Tells s (ℓ ++ notes) w₂ more w₃) : Tells s ℓ w₁ (notes ++ more) w₃ where
  memory_eq := by rw [h'.memory_eq, h.memory_eq, noting_append]
  sent_eq := by rw [h'.sent_eq, h.sent_eq, filterMap_append, append_assoc]
  serves := by
    intro task service hmem
    obtain hmem | hservice := h'.serves task service hmem
    · exact h.serves task service hmem
    · exact .inr hservice
  valid := append_assoc .. ▸ h'.valid
  lasts := h.lasts.trans h'.lasts
  writes := by
    intro c call hmem hgone
    obtain hmem | hmem := mem_append.1 hmem
    · exact h.writes c call hmem hgone
    · exact h'.writes c call hmem (h.lasts.gone hgone)
  spawns := h.spawns.append h'.spawns h'.lasts

theorem Still.works (h : Still s w w') (hvalid : Valid ℓ) (phase : Client.Phase) :
    Works s origin ℓ w phase [] w' phase :=
  ⟨h.toAlike.tells hvalid, Client.does_quiet phase h.toQuiet, fun _ hx => absurd hx not_mem_nil,
    fun _ hx => absurd hx not_mem_nil⟩

/-- Goes on after a replacement of the world that is not noted. -/
theorem safe_still {f : World → World} {next : PUnit → Action α}
    {E : Result α → World → List Note × Client.Phase → Prop} (htied : Tied s ℓ w .free)
    (hf : Still s w (f w)) (hnext :
      Tied s ℓ (f w) .free → Safe (keeping s origin) (next ⟨⟩) E (f w) (ℓ, .free)) :
    Safe (keeping s origin) (modify f >>= next) E w (ℓ, .free) := by
  have hworks : Works s origin ℓ w .free [] (f w) .free := hf.works htied.valid .free
  refine ⟨(ℓ, .free), ⟨[], (append_nil ℓ).symm, hworks⟩, hnext ?_⟩
  exact append_nil ℓ ▸ htied.works hworks

/-! ## Replacements that add one note -/

/-- Nothing is written to a process, and none is started. -/
def Note.IsPlain : Note → Prop
  | .write _ _ | .spawn _ => False
  | _ => True

theorem Note.IsPlain.sent? (h : x.IsPlain) : x.sent? = none := by
  cases x with
  | write c call => exact h.elim
  | _ => rfl

theorem Note.IsPlain.replaces (h : x.IsPlain) (ℓ : List Note) (host : Host) :
    Replaces ℓ [x] host := by
  intro before c after heq
  have hmem : .spawn c ∈ [x] := heq ▸ by simp
  rw [← mem_singleton.1 hmem] at h
  exact h.elim

theorem Note.IsPlain.not_write (h : x.IsPlain) (c : Nat) (call : Call) : .write c call ∉ [x] := by
  intro hmem
  rw [← mem_singleton.1 hmem] at h
  exact h.elim

/-- A note is added that changes nothing that can be seen. -/
theorem Tells.snoc (h : Tells s ℓ w notes w') (hfollows : x.Follows (ℓ ++ notes))
    (hfits : x.Fits (ℓ ++ notes)) (heffect : ∀ session, x.effect session = session)
    (hplain : x.IsPlain) : Tells s ℓ w (notes ++ [x]) w' := by
  refine h.trans ⟨(heffect _).symm, ?_, .of_ready rfl,
    throughout_snoc.2 ⟨h.valid, hfollows, hfits⟩, .refl _,
    fun c call hmem => absurd hmem (hplain.not_write c call), hplain.replaces _ _⟩
  rw [filterMap_cons_none hplain.sent?, filterMap_nil, append_nil]

theorem acts_singleton (x : Note) : acts [x] = x.act?.toList := by
  cases hx : x.act? with
  | none => exact filterMap_cons_none hx
  | some a => exact filterMap_cons_some hx

theorem Works.note (htied : Tied s ℓ w phase) (hunbound : x.Follows ℓ) (hfits : x.Fits ℓ)
    (hby : x.By origin phase) (hdoes : Client.Does s w phase x.act?.toList w' phase')
    (hmemory : (w'.session s).memory = x.effect (w.session s).memory)
    (hsent : w'.host.sent = w.host.sent) (hserves : ServesOnly s w w')
    (hlasts : w.host.Lasts w'.host) (hplain : x.IsPlain) :
    Works s origin ℓ w phase [x] w' phase' where
  does := acts_singleton x ▸ hdoes
  memory_eq := hmemory
  sent_eq := by
    rw [filterMap_cons_none hplain.sent?, filterMap_nil, append_nil]
    exact hsent
  serves := hserves
  valid := throughout_snoc.2 ⟨htied.valid, hunbound, hfits⟩
  lasts := hlasts
  writes c call hmem := absurd hmem (hplain.not_write c call)
  spawns := hplain.replaces _ _
  doer := by
    intro y hy
    obtain rfl := mem_singleton.1 hy
    exact hby
  single := by
    intro y hy _
    rw [mem_singleton.1 hy]

/-- A change of the session that is a note. -/
theorem works_modifySession (htied : Tied s ℓ w phase) (hunbound : x.Follows ℓ) (hfits : x.Fits ℓ)
    (hby : x.By origin phase) (hact : x.act? = none) (hplain : x.IsPlain)
    (hledger : (f (w.session s)).dispatch.ledger = (w.session s).dispatch.ledger)
    (heffect : (f (w.session s)).memory = (x.effect (w.session s)).memory) :
    Works s origin ℓ w phase [x] (w.modifySession s f) phase := by
  refine .note htied hunbound hfits hby ?_ ?_ rfl (.of_ready rfl) (.refl _) hplain
  · rw [hact]
    exact Client.does_quiet phase (quiet_modifySession hledger)
  · rw [session_modifySession_self htied.present, heffect, memory_effect]

/-- Goes on after a change of the session that is a note. -/
theorem safe_note {next : PUnit → Action α} {E : Result α → World → List Note × Client.Phase → Prop}
    (htied : Tied s ℓ w .free) (hfollows : x.Follows ℓ) (hfits : x.Fits ℓ) (hby : x.By origin .free)
    (hact : x.act? = none) (hplain : x.IsPlain)
    (hledger : (f (w.session s)).dispatch.ledger = (w.session s).dispatch.ledger)
    (heffect : (f (w.session s)).memory = (x.effect (w.session s)).memory)
    (hnext : Tied s (ℓ ++ [x]) (w.modifySession s f) .free →
      Safe (keeping s origin) (next ⟨⟩) E (w.modifySession s f) (ℓ ++ [x], .free)) :
    Safe (keeping s origin) (Client.modifySession s f >>= next) E w (ℓ, .free) :=
  safe_modify htied (works_modifySession htied hfollows hfits hby hact hplain hledger heffect) hnext

/-! ## Processes -/

/-- A process takes the place of one that has exited. -/
theorem works_spawn {c : Nat} (htied : Tied s ℓ w .free) (hunbound : Unbound ℓ)
    (hforgotten : ∃ before, ℓ = before ++ [.forget]) (hc : c < w.host.children.length)
    (hgone : ∀ c', (w.session s).transport.child = some c' → w.host.Gone c') :
    Works s (some request) ℓ w .free [.spawn c]
      (w.modifyTransport s fun t => { t with child := some c }) .free where
  does := Client.does_quiet .free (quiet_modifySession rfl)
  memory_eq := (congrArg Session.memory (session_modifySession_self htied.present _)).trans rfl
  sent_eq := (append_nil _).symm
  serves := .of_ready rfl
  valid := throughout_snoc.2 ⟨htied.valid, hunbound _, hforgotten⟩
  lasts := .refl _
  writes c' call hmem := nomatch mem_singleton.1 hmem
  spawns before c' after heq := by
    obtain ⟨rfl, heq⟩ | ⟨rest, -, heq⟩ := cons_eq_append_iff.1 heq
    · cases heq
      refine ⟨hc, fun c' hc' => hgone c' ?_⟩
      rw [append_nil, ← htied.memory_eq] at hc'
      exact hc'
    · simp at heq
  doer x hx := by
    rw [mem_singleton.1 hx]
    exact ⟨nofun, rfl⟩
  single x hx _ := by rw [mem_singleton.1 hx]

theorem works_gentle (htied : Tied s ℓ w phase) (hunbound : Unbound ℓ) (h : Client.Gentle s w w') :
    ∃ notes, Unbound (ℓ ++ notes) ∧ Works s origin ℓ w phase notes w' phase := by
  have hstill : Still s w w' →
      ∃ notes, Unbound (ℓ ++ notes) ∧ Works s origin ℓ w phase notes w' phase :=
    fun hstill => ⟨[], (append_nil ℓ).symm ▸ hunbound, hstill.works htied.valid phase⟩
  cases h with
  | stirs h _ => exact hstill (.of_stirs h)
  | @transport f hf =>
    obtain hchild | hchild := hf (w.session s).transport
    · refine hstill (still_modifySession rfl ?_)
      unfold Session.memory
      rw [hchild]
    · refine ⟨[.lose], unbound_snoc trivial, works_modifySession htied (hunbound _) trivial trivial
        rfl trivial rfl ?_⟩
      unfold Session.memory Note.effect
      rw [hchild]

theorem Begun.unbound (h : Begun ℓ) : Unbound ℓ := by
  obtain ⟨before, rfl⟩ := h
  exact unbound_snoc trivial

/-- Programs that only deal with processes at most give the process up. -/
theorem meets_of_gentle {p : Action α} (h : Obeys (Client.gentle s) p) :
    Meets s origin (fun _ _ => True) p fun _ _ _ => True := by
  intro w ℓ htied hunbound _
  let R (w : World) (_ : Unit) (g : List Note × Client.Phase) : Prop :=
    g.2 = .free ∧ Unbound g.1 ∧ Tied s g.1 w .free
  have hR : R w () (ℓ, .free) := ⟨rfl, hunbound, htied⟩
  refine (Safe.refine (R := R) ?_ ?_ ?_ (h w) hR).mono ?_
  · rintro w _ ⟨ℓ, phase⟩ w' _ ⟨hphase, hunbound, htied⟩ hstep
    obtain rfl : phase = .free := hphase
    obtain ⟨notes, hunbound', hworks⟩ := works_gentle htied hunbound hstep
    exact ⟨(ℓ ++ notes, .free), ⟨notes, rfl, hworks⟩, rfl, hunbound', htied.works hworks⟩
  · rintro on w _ ⟨ℓ, phase⟩ ⟨hphase, hunbound, -⟩ hpause
    obtain rfl : phase = .free := hphase
    exact ⟨hpause s, hunbound⟩
  · rintro on signal w _ ⟨ℓ, phase⟩ w' ⟨ℓ', phase'⟩ ⟨hphase, -, -⟩ ⟨hwoken, -, htied, hpass⟩
    obtain rfl : phase = .free := hphase
    obtain rfl : phase' = .free := hwoken
    exact ⟨(), trivial, rfl, hpass.unbound, htied⟩
  · rintro r w' g ⟨-, -, hphase, hunbound, -⟩
    exact ⟨hphase, hunbound, fun _ _ => trivial⟩

/-! ## Calls -/

theorem returned_snoc {purpose' : Purpose} {outcome : Outcome} :
    Returned purpose (ℓ ++ [.take call purpose' outcome]) ↔
      purpose' = purpose ∧ ∃ r, outcome = .answered r := by
  constructor
  · rintro ⟨before, call', r, heq⟩
    cases eq_of_snoc_eq heq
    exact ⟨rfl, r, rfl⟩
  · rintro ⟨rfl, r, rfl⟩
    exact ⟨ℓ, call, r, rfl⟩

/-- Only a move and a load have to be recorded at once. -/
theorem unbound_of_returned (h : Returned purpose ℓ) (hmove : ∀ p, purpose ≠ .move p)
    (hload : ∀ d generation, purpose ≠ .load d generation) : Unbound ℓ := by
  obtain ⟨before, call, r, rfl⟩ := h
  exact unbound_snoc fun _ _ => ⟨hmove, hload⟩

theorem alike_issue (w : World) (hs : s < w.sessions.length) (command : Command)
    (addressee : Addressee) (request : SessionRequest) (purpose : Purpose) :
    ((w.issue s command addressee).2.session s).memory =
        (Note.issue request (w.issue s command addressee).1 purpose).effect (w.session s).memory ∧
      (w.issue s command addressee).2.host.sent = w.host.sent ∧
        ServesOnly s w (w.issue s command addressee).2 ∧
      w.host.Lasts (w.issue s command addressee).2.host := by
  have hservices := alike_ensureServices (s := s) w
  have hs' : s < (w.ensureServices s).sessions.length :=
    Nat.lt_of_lt_of_le hs (quiet_ensureServices (s := s) w s).length_le
  obtain ⟨hcall, hissue⟩ := issue_eq w s command addressee
  rw [hcall]
  generalize w.ensureServices s = w₁ at hservices hs' hissue
  have hissued :
    ((w₁.modifyDispatch s fun _ => { ((w₁.session s).dispatch.issue command addressee).2 with
      writerIdle := false }).session s).memory =
      (Note.issue request ((w₁.session s).dispatch.issue command addressee).1 purpose).effect
        (w.session s).memory := by
    unfold modifyDispatch
    rw [session_modifySession_self hs', ← hservices.memory_eq]
    rfl
  obtain heq | ⟨task, heq⟩ := hissue
  · rw [heq]
    exact ⟨hissued, hservices.sent_eq, hservices.serves, hservices.lasts⟩
  · have hwake := Alike.of_stirs (s := s) (stirs_wake (w₁.modifyDispatch s fun _ =>
      { ((w₁.session s).dispatch.issue command addressee).2 with writerIdle := false }) task)
    rw [heq]
    exact ⟨hwake.memory_eq.trans hissued, hwake.sent_eq.trans hservices.sent_eq,
      hservices.serves.trans hwake.serves, hservices.lasts.trans hwake.lasts⟩

/-- Issuing a call, for which the operation may be to wait. -/
theorem works_issue {addressee : Addressee} (htied : Tied s ℓ w .free) (hunbound : Unbound ℓ)
    (hsuits : ∀ id, purpose.Suits ℓ request ⟨id, command, addressee⟩)
    (hpermits : Client.Permits (w.account s) .free [.issue (w.issue s command addressee).1] phase)
    (hview : ∀ w', phase.view s w' = w'.account s) :
    Works s (some request) ℓ w .free [.issue request (w.issue s command addressee).1 purpose]
      (w.issue s command addressee).2 phase := by
  obtain ⟨hissued, haccount, hinforms⟩ := account_issue htied.present command addressee
  obtain ⟨hmemory, hsent, hserves, hlasts⟩ :=
    alike_issue w htied.present command addressee request purpose
  refine .note htied (hunbound _) ?_ ⟨rfl, rfl⟩ ⟨hinforms, hpermits, (hview _).trans haccount⟩
    hmemory hsent hserves hlasts trivial
  rw [hissued]
  exact hsuits _

theorem alike_settles {d : Dispatch} (h : d.outbox = (w.session s).dispatch.outbox)
    (settled : List (Call × Outcome)) :
    Alike s w ((w.modifyDispatch s fun _ => d).deliverAll s settled) :=
  (alike_modifyDispatch h).trans (alike_deliverAll _ settled)

theorem works_refuse {addressee : Addressee} (h : addressee ≠ .waiter) (htied : Tied s ℓ w .free)
    (hunbound : Unbound ℓ) : Works s (some request) ℓ w .free
      [.act (.refuse ((w.session s).dispatch.refuse command addressee).1)]
      ((w.modifyDispatch s fun _ => ((w.session s).dispatch.refuse command addressee).2).deliver s
        ((w.session s).dispatch.refuse command addressee).1 (.failed (.unavailable .notRunning)))
        .free := by
  have hrefused :
    ((w.modifyDispatch s fun _ => ((w.session s).dispatch.refuse command addressee).2).deliverAll s
      [(((w.session s).dispatch.refuse command addressee).1,
        .failed (.unavailable .notRunning))]).account s =
        (w.account s).after (.refuse ((w.session s).dispatch.refuse command addressee).1) ∧ _ :=
    account_settles htied.present rfl rfl rfl rfl
  have halike :=
    alike_settles (s := s) (w := w) (d := ((w.session s).dispatch.refuse command addressee).2) rfl
    [(((w.session s).dispatch.refuse command addressee).1, .failed (.unavailable .notRunning))]
  refine .note htied (hunbound _) ⟨nofun, nofun⟩ ⟨nofun, rfl⟩
    ⟨hrefused.2, .refuse rfl ?_, hrefused.1⟩ halike.memory_eq
    halike.sent_eq halike.serves halike.lasts trivial
  exact (Account.hasContinuation_iff _).2 h

theorem works_reply (htied : Tied s ℓ w .free) (hunbound : Unbound ℓ) (id : Option Int) (ok : Bool)
    (payload : List Value) : Works s origin ℓ w .free [.act (.reply id ok payload)]
      (w.settleReply s id ok payload) .free := by
  obtain ⟨haccount, hinforms⟩ := account_reply htied.present id ok payload
  have houtbox : ((w.session s).dispatch.settleReply id ok payload).2.outbox =
      (w.session s).dispatch.outbox := by
    unfold Dispatch.settleReply
    split <;> rfl
  have halike := alike_settles houtbox ((w.session s).dispatch.settleReply id ok payload).1.toList
  exact .note htied (hunbound _) ⟨nofun, nofun⟩ trivial ⟨hinforms, .reply id ok payload, haccount⟩
    halike.memory_eq halike.sent_eq halike.serves halike.lasts trivial

theorem works_outage (htied : Tied s ℓ w .free) (outage : Outage)
    (hfollows : (Note.act (.outage outage)).Follows ℓ) :
    Works s origin ℓ w .free [.act (.outage outage)] (w.settlePending s outage) .free := by
  obtain ⟨haccount, hinforms⟩ := account_settlePending htied.present outage
  have halike :=
    alike_settles (s := s) (w := w) (d := ((w.session s).dispatch.settlePending outage).2) rfl
    ((w.session s).dispatch.settlePending outage).1
  exact .note htied hfollows ⟨nofun, nofun⟩ trivial ⟨hinforms, .outage outage, haccount⟩
    halike.memory_eq halike.sent_eq halike.serves halike.lasts trivial

theorem works_discard (htied : Tied s ℓ w .free) (hunbound : Unbound ℓ) :
    Works s (some request) ℓ w .free [.act .discard] (w.discard s) .free := by
  obtain ⟨haccount, hinforms⟩ := account_discard htied.present
  have hemptied :
    ((w.modifyDispatch s fun _ => (w.session s).dispatch.discard.2).session s).memory =
      (Note.act .discard).effect (w.session s).memory := by
    unfold modifyDispatch
    rw [session_modifySession_self htied.present]
    rfl
  have halike : Alike s (w.modifyDispatch s fun _ => (w.session s).dispatch.discard.2)
      (w.discard s) :=
    (alike_deliverAll _ _).trans (.of_stirs (stirs_foldl stirs_wake _ _))
  exact .note htied (hunbound _) ⟨nofun, nofun⟩ ⟨nofun, rfl⟩ ⟨hinforms, .discard, haccount⟩
    (halike.memory_eq.trans hemptied) halike.sent_eq halike.serves halike.lasts trivial

theorem works_take (htied : Tied s ℓ w (.taking call.id)) (hbegun : Begun ℓ)
    (hissued : ∃ request, .issue request call purpose ∈ ℓ) :
    Works s origin ℓ w (.taking call.id)
      [.take call purpose (((w.session s).dispatch.outcomes.get? call.id).getD .expired)]
      (w.modifyDispatch s fun d => { d with outcomes := d.outcomes.erase call.id })
      (.afterTake call.id (((w.session s).dispatch.outcomes.get? call.id).getD .expired)) := by
  have halike : Alike s w (w.modifyDispatch s
      fun d => { d with outcomes := d.outcomes.erase call.id }) :=
    alike_modifyDispatch rfl
  exact .note htied (hbegun.unbound _) ⟨hissued, hbegun⟩ trivial (Client.does_take htied.present)
    halike.memory_eq halike.sent_eq halike.serves halike.lasts trivial

theorem works_drop {id : Nat} (htied : Tied s ℓ w (.dropping id)) :
    Works s origin ℓ w (.dropping id) [] (w.modifyDispatch s fun d => d.remove id) .free := by
  have halike : Alike s w (w.modifyDispatch s fun d => d.remove id) := alike_modifyDispatch rfl
  exact ⟨halike.tells htied.valid, Client.does_drop htied.present,
    fun _ hx => absurd hx not_mem_nil, fun _ hx => absurd hx not_mem_nil⟩

/-! ## Writing -/

theorem works_pick {rest : List Call} (htied : Tied s ℓ w .free) (hbegun : Begun ℓ)
    (houtbox : (w.session s).dispatch.outbox = call :: rest) :
    Works s origin ℓ w .free [.pick call]
      (w.modifyDispatch s fun _ => { (w.session s).dispatch with outbox := rest }) .free := by
  have hrecounted : (recount ℓ).dispatch.outbox = call :: rest := by
    rw [← htied.memory_eq]
    exact houtbox
  refine works_modifySession htied (hbegun.unbound _) ⟨?_, hbegun⟩ trivial rfl trivial rfl ?_
  · rw [hrecounted]
    rfl
  · unfold Session.memory Note.effect
    dsimp only
    rw [houtbox]
    rfl

theorem Writing.unbound (h : Writing ℓ) : Unbound ℓ := by
  obtain ⟨before, c, call, rfl⟩ | ⟨before, d, b, rfl⟩ := h
  · exact unbound_snoc trivial
  · exact unbound_snoc trivial

/-- The owner of a document reads it again. -/
theorem tells_rereadNamed (name : String) (hpresent : s < w.sessions.length)
    (hmemory : (w.session s).memory = recount ℓ) (hvalid : Valid ℓ) (hwriting : Writing ℓ) :
    ∃ notes, (∀ x ∈ notes, ∃ d b, x = .reread d b) ∧ Tells s ℓ w notes (w.rereadNamed s name) := by
  have hnone : ∃ notes, (∀ x ∈ notes, ∃ d b, x = Note.reread d b) ∧ Tells s ℓ w notes w :=
    ⟨[], fun x hx => absurd hx not_mem_nil, (Alike.refl w).tells hvalid⟩
  unfold rereadNamed
  split
  · next d _ =>
    unfold rereadDocument
    split
    · next changed b hread =>
      have hbuffer : (recount ℓ).buffer d = (w.session s).buffer d := by
        rw [← hmemory]
        rfl
      refine ⟨[.reread d b], fun x hx => ⟨d, b, mem_singleton.1 hx⟩, ?_, (append_nil _).symm,
        .of_ready rfl, throughout_snoc.2 ⟨hvalid, hwriting.unbound _, ?_, hwriting⟩,
        .refl _, by simp, ?_⟩
      · rw [session_modifySession_self hpresent]
        exact memory_effect (w.session s) (.reread d b)
      · rw [hbuffer]
        exact succeeds_reread hread
      · intro before c after heq
        cases before <;> simp at heq
    · exact hnone
  · exact hnone

theorem Writing.rereads (h : Writing ℓ) (hnotes : ∀ x ∈ notes, ∃ d b, x = .reread d b) :
    Writing (ℓ ++ notes) := by
  obtain rfl | ⟨notes, x, rfl⟩ := eq_nil_or_concat notes
  · rw [append_nil]
    exact h
  · obtain ⟨d, b, rfl⟩ := hnotes x (by simp)
    rw [concat_eq_append, ← append_assoc]
    exact .inr ⟨_, d, b, rfl⟩

theorem tells_rereads (names : List String) (hpresent : s < w.sessions.length)
    (hmemory : (w.session s).memory = recount ℓ) (hvalid : Valid ℓ) (hwriting : Writing ℓ) :
    ∃ notes, (∀ x ∈ notes, ∃ d b, x = .reread d b) ∧
      Tells s ℓ w notes (names.foldl (fun w name => w.rereadNamed s name) w) := by
  induction names generalizing w ℓ with
  | nil => exact ⟨[], fun x hx => absurd hx not_mem_nil, (Alike.refl w).tells hvalid⟩
  | cons name names ih =>
    obtain ⟨notes, hnotes, htells⟩ := tells_rereadNamed name hpresent hmemory hvalid hwriting
    have hpresent' : s < (w.rereadNamed s name).sessions.length :=
      Nat.lt_of_lt_of_le hpresent (quiet_rereadNamed (s := s) w s name).length_le
    obtain ⟨more, hmore, htells'⟩ :=
      ih hpresent' (by rw [htells.memory_eq, hmemory, recount_append]) htells.valid
      (hwriting.rereads hnotes)
    refine ⟨notes ++ more, fun x hx => ?_, htells.trans htells'⟩
    exact (mem_append.1 hx).elim (hnotes x) (hmore x)

/-- A process reacts: files change, documents are read again, and then only processes stir. -/
theorem tells_react (c : Nat) (r : Host.Reaction) (id : String) (hpresent : s < w.sessions.length)
    (hmemory : (w.session s).memory = recount ℓ) (hvalid : Valid ℓ) (hwriting : Writing ℓ) :
    ∃ notes, (∀ x ∈ notes, ∃ d b, x = .reread d b) ∧ Tells s ℓ w notes (w.react s c r id) := by
  have hfiles : Alike s w (r.files.foldl (fun w f => w.placeFile f.1 f.2) w) := by
    refine composes_alike.foldl ?_ w r.files
    intro w f
    exact alike_placeFile w f.1 f.2
  have hquiet : Quiet s w (r.files.foldl (fun w f => w.placeFile f.1 f.2) w) := by
    refine composes_quiet.foldl ?_ w r.files
    intro w f
    exact quiet_of_parts rfl (Nat.le_refl _) rfl
  obtain ⟨notes, hnotes, hrereads⟩ :=
    tells_rereads r.rereads (Nat.lt_of_lt_of_le hpresent hquiet.length_le)
    (hfiles.memory_eq.trans hmemory) hvalid hwriting
  have hstirs : Stirs (w.updateFiles s r) (w.react s c r id) := stirs_reaction _ c r id
  have hplaced : Tells s ℓ w ([] ++ notes) (w.updateFiles s r) := by
    refine (hfiles.tells hvalid).trans ?_
    rw [append_nil]
    exact hrereads
  have hreacted := hplaced.trans ((Alike.of_stirs hstirs).tells hplaced.valid)
  rw [append_nil] at hreacted
  exact ⟨notes, hnotes, hreacted⟩

/-- A call is written, and the process reacts to it. -/
theorem works_transmit {c : Nat} {text : String} (htied : Tied s (ℓ ++ [.pick call]) w .free)
    (hchild : (w.session s).transport.child = some c) (hrunning : w.host.isRunning c = true)
    (hpending : Pending (ℓ ++ [.pick call]) call)
    (htext : (call.command.request call.id).encode = .ok text) :
    ∃ notes, (∀ x ∈ notes, ∃ d b, x = .reread d b) ∧
      Works s origin (ℓ ++ [.pick call]) w .free ([.write c call] ++ notes)
        (w.transmit s c text) .free := by
  have hvalid : Valid (ℓ ++ [.pick call] ++ [.write c call]) := by
    refine throughout_snoc.2 ⟨htied.valid, follows_snoc fun _ => .inl ⟨c, rfl⟩,
      ⟨⟨ℓ, rfl⟩, hpending, text, htext⟩, ?_⟩
    rw [← htied.memory_eq]
    exact hchild
  have htaken : (w.host.takeReaction (Host.requestTag (text.toList ++ ['\n']))).2.sent =
    w.host.sent ∧ (w.host.takeReaction (Host.requestTag (text.toList ++ ['\n']))).2.children =
        w.host.children := by
    obtain ⟨reactions, htake⟩ := w.host.takeReaction_eq (Host.requestTag (text.toList ++ ['\n']))
    rw [htake]
    exact ⟨rfl, rfl⟩
  generalize hreaction : w.host.takeReaction (Host.requestTag (text.toList ++ ['\n'])) =
    taken at htaken
  have hwrite : Tells s (ℓ ++ [.pick call]) w [.write c call] { w with
        host :=
          { taken.2 with sent := taken.2.sent ++ [⟨c, String.ofList (Wire.frame text)⟩] } } := by
    refine ⟨rfl, ?_, .of_ready rfl, hvalid, Host.lasts_of_children htaken.2, ?_, ?_⟩
    rotate_left
    · intro c' call' hmem hgone
      cases mem_singleton.1 hmem
      exact Bool.noConfusion (hgone.2.symm.trans hrunning)
    · intro before c' after heq
      cases before <;> simp at heq
    have hsent : Note.sent? (.write c call) = some ⟨c, String.ofList (Wire.frame text)⟩ := by
      unfold Note.sent?
      dsimp only
      rw [htext]
    rw [filterMap_cons_some hsent, filterMap_nil, htaken.1]
  have hmemory := hwrite.memory_eq
  rw [htied.memory_eq, ← recount_append] at hmemory
  have htransmit : w.transmit s c text = ({ w with
      host := { taken.2 with sent := taken.2.sent ++ [⟨c, String.ofList (Wire.frame text)⟩] } } :
      World).react s c taken.1 (Host.requestId (text.toList ++ ['\n'])) := by
    unfold transmit
    dsimp only
    rw [hreaction]
  generalize hw₁ : ({ w with
    host := { taken.2 with sent := taken.2.sent ++ [⟨c, String.ofList (Wire.frame text)⟩] } } :
    World) = w₁ at hwrite hmemory htransmit
  have hpresent : s < w₁.sessions.length := hw₁ ▸ htied.present
  obtain ⟨notes, hnotes, hreact⟩ := tells_react c taken.1 (Host.requestId (text.toList ++ ['\n']))
    hpresent hmemory hvalid (.inl ⟨_, c, call, rfl⟩)
  rw [← htransmit] at hreact
  refine ⟨notes, hnotes, hwrite.trans hreact, ?_, ?_, ?_⟩
  · have hacts : acts ([.write c call] ++ notes) = [] := by
      refine filterMap_eq_nil_iff.2 fun x hx => ?_
      obtain rfl | hx := mem_cons.1 hx
      · rfl
      · obtain ⟨d, b, rfl⟩ := hnotes x hx
        rfl
    rw [hacts]
    exact Client.does_quiet .free (quiet_transmit w s c text)
  · intro x hx
    obtain rfl | hx := mem_cons.1 hx
    · trivial
    · obtain ⟨d, b, rfl⟩ := hnotes x hx
      trivial
  · intro x hx hdeed
    obtain rfl | hx := mem_cons.1 hx
    · exact hdeed.elim
    · obtain ⟨d, b, rfl⟩ := hnotes x hx
      exact hdeed.elim

/-! ## Asking -/

/-- How a call for a purpose may leave the log. -/
def CallEnds (purpose : Purpose) (r : Result Response) (ℓ : List Note) : Prop :=
  match r with
  | .ok _ => Returned purpose ℓ
  | .error _ => Unbound ℓ

theorem safe_conclude (outcome : Outcome)
    (htied : Tied s (ℓ ++ [.take call purpose outcome]) w (.afterTake call.id outcome)) :
    Safe (keeping s origin) (Client.conclude s call.id limit tag outcome)
      (fun r _ g => g.2 = .free ∧ CallEnds purpose r g.1) w
      (ℓ ++ [.take call purpose outcome], .afterTake call.id outcome) := by
  cases outcome with
  | answered r => exact ⟨rfl, returned_snoc.2 ⟨rfl, r, rfl⟩⟩
  | failed f => exact ⟨rfl, unbound_snoc fun _ => nofun⟩
  | expired =>
    refine ⟨(ℓ ++ [.take call purpose .expired], .free),
      ⟨[], (append_nil _).symm, works_drop htied⟩, rfl, ?_⟩
    exact unbound_snoc fun _ => nofun

theorem safe_takeOutcome (htied : Tied s ℓ w (.taking call.id)) (hbegun : Begun ℓ)
    (hissued : ∃ request, .issue request call purpose ∈ ℓ) :
    Safe (keeping s origin) (Client.takeOutcome s call.id >>= Client.conclude s call.id limit tag)
      (fun r _ g => g.2 = .free ∧ CallEnds purpose r g.1) w (ℓ, .taking call.id) := by
  have hworks : Works s origin ℓ w (.taking call.id) _ _ _ := works_take htied hbegun hissued
  exact ⟨(_, _), ⟨_, rfl, hworks⟩, safe_conclude _ (htied.works hworks)⟩

theorem safe_awaitOutcome (hunbound : Unbound ℓ)
    (hissued : ∃ request, .issue request call purpose ∈ ℓ) : Safe (keeping s (some request))
      (Client.awaitOutcome s call.id limit >>= Client.conclude s call.id limit tag)
      (fun r _ g => g.2 = .free ∧ CallEnds purpose r g.1) w (ℓ, .asking call.id) := by
  have hwait : ∀ deadline : Option Int,
    Safe (keeping s (some request)) (Prog.await (.outcome s call.id) deadline >>=
      fun _ => Client.takeOutcome s call.id >>= Client.conclude s call.id limit tag)
      (fun r _ g => g.2 = .free ∧ CallEnds purpose r g.1) w (ℓ, .asking call.id) := by
    intro deadline
    refine ⟨⟨⟨rfl, rfl⟩, hunbound⟩, ?_⟩
    rintro signal w' ⟨ℓ', phase'⟩ ⟨hphase, hgrown, htied', hpass⟩
    obtain rfl : phase' = .taking call.id := hphase
    exact safe_takeOutcome htied' hpass (hissued.imp fun _ h => hgrown.subset h)
  cases limit with
  | none => exact hwait none
  | some d => exact hwait (some (w.host.clock + d.nanos))

/-- A call that an operation waits for. -/
theorem safe_call (htied : Tied s ℓ w .free) (hunbound : Unbound ℓ)
    (hsuits : ∀ id, purpose.Suits ℓ request ⟨id, command, .waiter⟩) :
    Safe (keeping s (some request)) (Client.call s command limit)
      (fun r _ g => g.2 = .free ∧ CallEnds purpose r g.1) w (ℓ, .free) := by
  refine .get ?_
  show Safe _ (if w.isRunning s = true then _ else _) _ w (ℓ, Client.Phase.free)
  split
  · have hissued := (account_issue htied.present command .waiter).1
    have haddressee : (w.issue s command .waiter).1.addressee = .waiter :=
      congrArg Call.addressee hissued
    have hworks :=
      works_issue htied hunbound hsuits
        (.issueAwaited (congrArg Call.id hissued) haddressee) fun _ => rfl
    refine ⟨(_, _), ⟨_, rfl, hworks⟩, safe_awaitOutcome (unbound_snoc ?_)
      ⟨request, mem_append_right _ ?_⟩⟩
    · intro label d generation
      rw [haddressee]
      exact nofun
    · exact mem_singleton_self _
  · exact ⟨rfl, hunbound⟩

end IdeMode
