import IdeMode.World
set_option autoImplicit false

/-!
# Changing parts of the world

What a change of one part of the world leaves alone. A session that does not exist reads as a fresh
one and cannot be changed, so most laws need no assumption that a session exists.
-/

namespace IdeMode

open List

variable {κ : Type}

namespace Host

/-- A process was started and has exited. -/
def Gone (h : Host) (c : Nat) : Prop := c < h.children.length ∧ h.isRunning c = false

instance (h : Host) (c : Nat) : Decidable (h.Gone c) := inferInstanceAs (Decidable (_ ∧ _))

/-- Processes are not removed, and none that has exited comes back. -/
structure Lasts (h h' : Host) : Prop where
  length_le : h.children.length ≤ h'.children.length
  running : ∀ c < h.children.length, h'.isRunning c = true → h.isRunning c = true

theorem Lasts.refl (h : Host) : h.Lasts h := ⟨Nat.le_refl _, fun _ _ hc => hc⟩

theorem lasts_of_children {h h' : Host} (heq : h'.children = h.children) : h.Lasts h' := by
  refine ⟨Nat.le_of_eq (congrArg List.length heq).symm, fun c _ hc => ?_⟩
  unfold isRunning child? at hc ⊢
  rw [← heq]
  exact hc

theorem Lasts.trans {h₁ h₂ h₃ : Host} (h : h₁.Lasts h₂) (h' : h₂.Lasts h₃) : h₁.Lasts h₃ :=
  ⟨Nat.le_trans h.length_le h'.length_le, fun c hc hrunning =>
    h.running c hc (h'.running c (Nat.lt_of_lt_of_le hc h.length_le) hrunning)⟩

theorem Lasts.gone {h h' : Host} (hlasts : h.Lasts h') {c : Nat} (hc : h.Gone c) : h'.Gone c := by
  refine ⟨Nat.lt_of_lt_of_le hc.1 hlasts.length_le, Bool.eq_false_iff.2 fun hrunning => ?_⟩
  exact Bool.noConfusion (hc.2.symm.trans (hlasts.running c hc.1 hrunning))

/-- An attempt to start a process writes nothing and leaves the others alone. -/
theorem spawn_keeps (h : Host) (command : List String) (directory : String)
    (environment : List (String × String)) :
    (h.spawn command directory environment).2.sent = h.sent ∧
      h.Lasts (h.spawn command directory environment).2 ∧
      ∀ c, (h.spawn command directory environment).1 = .started c →
        c < (h.spawn command directory environment).2.children.length := by
  unfold spawn
  dsimp only
  split
  · exact ⟨rfl, lasts_of_children rfl, nofun⟩
  · split
    · exact ⟨rfl, lasts_of_children rfl, nofun⟩
    · refine ⟨rfl, ⟨by simp, fun c hc hrunning => ?_⟩, ?_⟩
      · unfold isRunning child? at hrunning ⊢
        rw [List.getElem?_append_left hc] at hrunning
        exact hrunning
      · rintro c ⟨⟩
        simp

/-- What neither processes nor what was done to them have a part in stays as it is. -/
theorem spawn_feature (g : Host → κ) (h : Host)
    (hg : ∀ b d c, g { h with behaviours := b, deeds := d, children := c } = g h)
    (command : List String) (directory : String) (environment : List (String × String)) :
    g (h.spawn command directory environment).2 = g h := by
  unfold spawn
  dsimp only
  split
  · exact hg ..
  · split <;> exact hg ..

end Host

/-- To take out how a process reacts changes no more than the reactions that are left. -/
theorem Host.takeReaction_eq (h : Host) (tag : String) :
    ∃ reactions, (h.takeReaction tag).2 = { h with reactions := reactions } := by
  unfold takeReaction
  split
  · exact ⟨_, rfl⟩
  · exact ⟨h.reactions, rfl⟩

namespace World

/-- A kind of change: nothing may change, and changes may come one after the other. -/
structure Composes (R : World → World → Prop) : Prop where
  refl : ∀ w, R w w
  trans : ∀ {w₁ w₂ w₃}, R w₁ w₂ → R w₂ w₃ → R w₁ w₃

theorem Composes.foldl {R : World → World → Prop} (hR : Composes R) {α : Type}
    {f : World → α → World} (hf : ∀ w a, R w (f w a)) (w : World) (l : List α) :
    R w (l.foldl f w) := by
  induction l generalizing w with
  | nil => exact hR.refl w
  | cons a l ih => exact hR.trans (hf w a) (ih (f w a))

section Processes

variable {R : World → World → Prop} {c : Nat}

theorem Composes.signal (hR : Composes R) (hlog : ∀ w deed, R w (w.logDeed deed))
    (hexit : ∀ w status, R w (w.exit c status)) (w : World) (terminates : Bool) :
    R w (w.signal c terminates).2 := by
  unfold World.signal
  split
  · exact hR.refl w
  · dsimp only
    split
    · exact hlog w _
    · split
      · exact hR.trans (hlog w _) (hexit _ _)
      · exact hlog w _

theorem Composes.kill (hR : Composes R) (hlog : ∀ w deed, R w (w.logDeed deed))
    (hexit : ∀ w status, R w (w.exit c status)) (w : World) : R w (w.kill c).2 := by
  unfold World.kill
  split
  · exact hR.refl w
  · exact hR.trans (hlog w _) (hexit _ _)

/-- A process answers or keeps its messages back, and then its output ends, it exits, or writing to
it fails. -/
theorem Composes.reaction (hR : Composes R)
    (hhold : ∀ (w : World) held, R w { w with host := { w.host with held := held } })
    (hreceive : ∀ w bytes, R w (w.receive c bytes)) (hclose : ∀ w, R w (w.closeOutput c))
    (hexit : ∀ w status, R w (w.exit c status))
    (hbreak : ∀ w fault, R w (w.modifyChild c fun child => { child with writeFault := some fault }))
    (w : World) (r : Host.Reaction) (id : String) :
    R w ((w.sendReaction c r id).concludeReaction c r) := by
  have hsend : R w (w.sendReaction c r id) := by
    refine hR.trans ?_ (hreceive _ _)
    split
    · exact hhold w _
    · exact hR.foldl (fun w _ => hreceive w _) w _
  refine hR.trans hsend ?_
  generalize w.sendReaction c r id = w
  have hends : R w (if r.ends then w.closeOutput c else w) := by
    split
    · exact hclose w
    · exact hR.refl w
  unfold concludeReaction
  refine hR.trans hends ?_
  generalize (if r.ends then w.closeOutput c else w) = w
  cases r.exits <;> cases r.writeFault
  · exact hR.refl w
  · exact hbreak w _
  · exact hexit w _
  · exact hR.trans (hexit w _) (hbreak _ _)

end Processes

theorem composes_feature (g : World → κ) : Composes fun w w' => g w' = g w :=
  ⟨fun _ => rfl, fun h h' => h'.trans h⟩

/-! ## Sessions -/

theorem modifySession_eq_self {s : Nat} {w : World} (h : w.sessions.length ≤ s)
    (f : Session → Session) : w.modifySession s f = w := by
  unfold modifySession
  rw [modify_eq_self h]

theorem session_modifySession_of_ne {s t : Nat} (h : s ≠ t) (w : World) (f : Session → Session) :
    (w.modifySession s f).session t = w.session t := by
  simp only [session, modifySession, List.getElem?_modify, if_neg h, id_map']

variable {s : Nat}

theorem session_modifySession_self {w : World} (h : s < w.sessions.length) (f : Session → Session) :
    (w.modifySession s f).session s = f (w.session s) := by
  simp [session, modifySession, List.getElem?_eq_getElem h]

/-- A session is as it was or, if it is the one that is there and is changed, as the change makes
it. -/
theorem session_modifySession_cases (w : World) (f : Session → Session) (t : Nat) :
    (w.modifySession s f).session t = w.session t ∨
      (s = t ∧ t < w.sessions.length) ∧ (w.modifySession s f).session t = f (w.session t) := by
  by_cases hst : s = t
  · subst hst
    by_cases hs : s < w.sessions.length
    · exact .inr ⟨⟨rfl, hs⟩, session_modifySession_self hs f⟩
    · exact .inl (by rw [modifySession_eq_self (Nat.le_of_not_lt hs)])
  · exact .inl (session_modifySession_of_ne hst w f)

/-- A feature of the sessions that a change of one session keeps. -/
theorem session_modifySession_feature (g : Session → κ) {w : World} {f : Session → Session}
    (h : g (f (w.session s)) = g (w.session s)) (t : Nat) :
    g ((w.modifySession s f).session t) = g (w.session t) := by
  rcases session_modifySession_cases (s := s) w f t with heq | ⟨⟨rfl, -⟩, heq⟩
  · rw [heq]
  · rw [heq, h]

/-- A session has the process that it had, or the one that it was given. -/
theorem child_modifyTransport {w : World} {f : Transport → Transport} {t c : Nat}
    (h : ((w.modifyTransport s f).session t).transport.child = some c) :
    s ≠ t ∧ (w.session t).transport.child = some c ∨
      s = t ∧ (f (w.session s).transport).child = some c := by
  by_cases hst : s = t
  · subst hst
    by_cases hs : s < w.sessions.length
    · rw [modifyTransport, session_modifySession_self hs] at h
      exact .inr ⟨rfl, h⟩
    · rw [modifyTransport, modifySession_eq_self (Nat.le_of_not_lt hs), World.session,
        List.getElem?_eq_none (Nat.le_of_not_lt hs)] at h
      cases h
  · rw [modifyTransport, session_modifySession_of_ne hst] at h
    exact .inl ⟨hst, h⟩

theorem child_modifyTransport_none (w : World) (s : Nat) :
    ((w.modifyTransport s fun t => { t with child := none, version := none }).session
      s).transport.child = none := by
  refine Option.eq_none_iff_forall_ne_some.2 fun c hc => ?_
  rcases child_modifyTransport hc with ⟨hne, -⟩ | ⟨-, hnone⟩
  · exact hne rfl
  · cases hnone

variable (w : World)

@[simp] theorem host_modifySession (s : Nat) (f : Session → Session) :
    (w.modifySession s f).host = w.host := rfl

@[simp] theorem host_modifyDispatch (s : Nat) (f : Dispatch → Dispatch) :
    (w.modifyDispatch s f).host = w.host := rfl

/-- Dispatchers are no part of the transport. -/
@[simp] theorem transport_modifyDispatch (s t : Nat) (f : Dispatch → Dispatch) :
    ((w.modifyDispatch s f).session t).transport = (w.session t).transport :=
  session_modifySession_feature Session.transport rfl t

/-! ## Processes -/

@[simp] theorem child?_modifyChild (c : Nat) (f : Host.Child → Host.Child) :
    (w.modifyChild c f).host.child? c = (w.host.child? c).map f := by
  simp [modifyChild, Host.modifyChild, Host.child?]

/-- Only processes changed, and tasks were told of it. A process may have exited, but none was
started or written to. -/
structure Stirs (w w' : World) : Prop where
  sessions_eq : w'.sessions = w.sessions
  nextTask_eq : w'.nextTask = w.nextTask
  ready_eq : ∃ told : List Nat, w'.ready = w.ready ++ told.map fun task => .resume task .woken
  sent_eq : w'.host.sent = w.host.sent
  reactions_eq : w'.host.reactions = w.host.reactions
  length_eq : w'.host.children.length = w.host.children.length
  running : ∀ c, w'.host.isRunning c = true → w.host.isRunning c = true
  disk_eq : w'.host.disk = w.host.disk
  cwd_eq : w'.host.cwd = w.host.cwd
  registry_eq : w'.registry = w.registry
  clock_eq : w'.host.clock = w.host.clock

theorem Stirs.refl : Stirs w w :=
  ⟨rfl, rfl, ⟨[], (append_nil _).symm⟩, rfl, rfl, rfl, fun _ h => h, rfl, rfl, rfl, rfl⟩

variable {w' w₁ w₂ w₃ : World}

theorem Stirs.trans (h : Stirs w₁ w₂) (h' : Stirs w₂ w₃) : Stirs w₁ w₃ := by
  obtain ⟨told, hready⟩ := h.ready_eq
  obtain ⟨told', hready'⟩ := h'.ready_eq
  refine ⟨h'.sessions_eq.trans h.sessions_eq, h'.nextTask_eq.trans h.nextTask_eq,
    ⟨told ++ told', ?_⟩, h'.sent_eq.trans h.sent_eq, h'.reactions_eq.trans h.reactions_eq,
    h'.length_eq.trans h.length_eq, ?_, h'.disk_eq.trans h.disk_eq, h'.cwd_eq.trans h.cwd_eq,
    h'.registry_eq.trans h.registry_eq, h'.clock_eq.trans h.clock_eq⟩
  · rw [hready', hready, append_assoc, map_append]
  · intro c hc
    exact h.running c (h'.running c hc)

theorem Stirs.lasts {w : World} (h : Stirs w w') : w.host.Lasts w'.host :=
  ⟨Nat.le_of_eq h.length_eq.symm, fun c _ => h.running c⟩

theorem stirs_foldl {α : Type} {f : World → α → World} (hf : ∀ w a, Stirs w (f w a)) (w : World)
    (l : List α) : Stirs w (l.foldl f w) := Composes.foldl ⟨.refl, .trans⟩ hf w l

theorem stirs_wake (task : Nat) : Stirs w (w.wake task) :=
  ⟨rfl, rfl, ⟨[task], rfl⟩, rfl, rfl, rfl, fun _ h => h, rfl, rfl, rfl, rfl⟩

theorem stirs_modifyChild (c : Nat) {f : Host.Child → Host.Child}
    (hf : ∀ child, (f child).isRunning = true → child.isRunning = true) :
    Stirs w (w.modifyChild c f) := by
  refine ⟨rfl, rfl, ⟨[], (append_nil _).symm⟩, rfl, rfl, length_modify .., ?_, rfl, rfl, rfl, rfl⟩
  intro k hk
  simp only [modifyChild, Host.modifyChild, Host.isRunning, Host.child?,
    List.getElem?_modify] at hk ⊢
  cases hchild : w.host.children[k]? with
  | none =>
    rw [hchild] at hk
    exact hk
  | some child =>
    rw [hchild] at hk
    by_cases hck : c = k
    · simp only [if_pos hck] at hk
      exact hf child hk
    · simp only [if_neg hck] at hk
      exact hk

theorem stirs_wakeReader (c : Nat) : Stirs w (w.wakeReader c) := by
  unfold wakeReader
  split
  · refine Stirs.trans ?_ (stirs_wake _ _)
    exact stirs_modifyChild w c fun _ h => h
  · exact .refl w

theorem stirs_wakeWatchers (c : Nat) : Stirs w (w.wakeWatchers c) := by
  unfold wakeWatchers
  split
  · refine Stirs.trans ?_ (stirs_foldl stirs_wake _ _)
    exact stirs_modifyChild w c fun _ h => h
  · exact .refl w

theorem stirs_receive (c : Nat) (bytes : List UInt8) : Stirs w (w.receive c bytes) := by
  unfold receive
  split
  · exact .refl w
  · refine (stirs_modifyChild w c fun child h => ?_).trans (stirs_wakeReader _ c)
    unfold Host.Child.send at h
    split at h <;> exact h

theorem stirs_closeOutput (c : Nat) : Stirs w (w.closeOutput c) := by
  refine Stirs.trans ?_ (stirs_wakeReader _ c)
  exact stirs_modifyChild w c fun _ h => h

theorem stirs_exit (c : Nat) (status : Int) : Stirs w (w.exit c status) := by
  refine ((stirs_modifyChild w c fun child h => ?_).trans (stirs_wakeReader _ c)).trans
    (stirs_wakeWatchers _ c)
  unfold Host.Child.exit at h
  split at h
  · assumption
  · exact h

/-- What was done to processes and what they keep back is no part of them. -/
theorem stirs_host (deeds : List Host.Deed) (held : List (Nat × String)) :
    Stirs w { w with host := { w.host with deeds := deeds, held := held } } :=
  ⟨rfl, rfl, ⟨[], (append_nil _).symm⟩, rfl, rfl, rfl, fun _ h => h, rfl, rfl, rfl, rfl⟩

theorem stirs_signal (c : Nat) (terminates : Bool) : Stirs w (w.signal c terminates).2 :=
  Composes.signal ⟨.refl, .trans⟩ (fun w _ => stirs_host w _ _)
    (fun w => stirs_exit w c) w terminates

theorem stirs_kill (c : Nat) : Stirs w (w.kill c).2 :=
  Composes.kill ⟨.refl, .trans⟩ (fun w _ => stirs_host w _ _) (fun w => stirs_exit w c) w

theorem stirs_reaction (c : Nat) (r : Host.Reaction) (id : String) :
    Stirs w ((w.sendReaction c r id).concludeReaction c r) :=
  Composes.reaction ⟨.refl, .trans⟩ (fun w _ => stirs_host w _ _) (fun w => stirs_receive w c)
    (fun w => stirs_closeOutput w c) (fun w => stirs_exit w c)
    (fun w _ => stirs_modifyChild w c fun _ h => h) w r id

/-- Sessions are not removed, and the queue only grows at its end; the loops that enter it have new
numbers. -/
structure Grows (w w' : World) : Prop where
  length_le : w.sessions.length ≤ w'.sessions.length
  nextTask_le : w.nextTask ≤ w'.nextTask
  ready_eq : ∃ more, w'.ready = w.ready ++ more ∧
    ∀ task service, .serve task service ∈ more → w.nextTask ≤ task ∧ task < w'.nextTask

theorem grows_of_ready {w : World} (hlength : w.sessions.length ≤ w'.sessions.length)
    (hnext : w.nextTask ≤ w'.nextTask) (hready : w'.ready = w.ready) : Grows w w' := by
  refine ⟨hlength, hnext, [], hready.trans (append_nil _).symm, ?_⟩
  intro task service hmem
  exact absurd hmem not_mem_nil

theorem Grows.refl : Grows w w := grows_of_ready (Nat.le_refl _) (Nat.le_refl _) rfl

theorem Grows.trans (h : Grows w₁ w₂) (h' : Grows w₂ w₃) : Grows w₁ w₃ := by
  obtain ⟨more, hready, hserve⟩ := h.ready_eq
  obtain ⟨more', hready', hserve'⟩ := h'.ready_eq
  refine ⟨Nat.le_trans h.length_le h'.length_le, Nat.le_trans h.nextTask_le h'.nextTask_le,
    more ++ more', ?_, ?_⟩
  · rw [hready', hready, append_assoc]
  · intro task service hmem
    obtain hmem | hmem := mem_append.1 hmem
    · have hnew := hserve task service hmem
      exact ⟨hnew.1, Nat.lt_of_lt_of_le hnew.2 h'.nextTask_le⟩
    · have hnew := hserve' task service hmem
      exact ⟨Nat.le_trans h.nextTask_le hnew.1, hnew.2⟩

theorem Grows.mem_ready {w : World} (h : Grows w w') {e : Wake}
    (he : e ∈ w.ready) : e ∈ w'.ready := by
  obtain ⟨more, hready, -⟩ := h.ready_eq
  exact hready ▸ mem_append_left more he

theorem Stirs.grows {w : World} (h : Stirs w w') : Grows w w' := by
  obtain ⟨told, hready⟩ := h.ready_eq
  refine ⟨Nat.le_of_eq (congrArg List.length h.sessions_eq).symm, Nat.le_of_eq h.nextTask_eq.symm,
    _, hready, ?_⟩
  intro task service hmem
  obtain ⟨k, -, hk⟩ := mem_map.1 hmem
  cases hk

theorem length_modifySession (t : Nat) (f : Session → Session) :
    (w.modifySession t f).sessions.length = w.sessions.length := length_modify ..

theorem grows_modifySession (t : Nat) (f : Session → Session) : Grows w (w.modifySession t f) :=
  grows_of_ready (Nat.le_of_eq (length_modifySession w t f).symm) (Nat.le_refl _) rfl

theorem grows_enqueue {w : World} {e : Wake} (h : ∀ task service, e ≠ .serve task service) :
    Grows w (w.enqueue e) := by
  refine ⟨Nat.le_refl _, Nat.le_refl _, [e], rfl, ?_⟩
  intro task service hmem
  exact absurd (mem_singleton.1 hmem).symm (h task service)

theorem grows_startService (service : Service) : Grows w (w.startService service).2 := by
  refine ⟨Nat.le_refl _, Nat.le_succ _, [.serve w.nextTask service], rfl, ?_⟩
  intro task service' hmem
  cases mem_singleton.1 hmem
  exact ⟨Nat.le_refl _, Nat.lt_succ_self _⟩

/-- Loops that begin are those of the session. -/
def ServesOnly (s : Nat) (w w' : World) : Prop :=
  ∀ task service, .serve task service ∈ w'.ready → .serve task service ∈ w.ready ∨
    service = .reader s ∨ service = .writer s

protected theorem ServesOnly.of_ready {w w' : World} (h : w'.ready = w.ready) :
    ServesOnly s w w' := by
  intro task service hmem
  exact .inl (h ▸ hmem)

theorem ServesOnly.trans (h : ServesOnly s w₁ w₂) (h' : ServesOnly s w₂ w₃) :
    ServesOnly s w₁ w₃ := by
  intro task service hmem
  obtain hmem | hservice := h' task service hmem
  · exact h task service hmem
  · exact .inr hservice

theorem Stirs.servesOnly {w : World} (h : Stirs w w') : ServesOnly s w w' := by
  intro task service hmem
  obtain ⟨told, hready⟩ := h.ready_eq
  rw [hready] at hmem
  refine .inl ((mem_append.1 hmem).resolve_right fun hmem => ?_)
  obtain ⟨k, -, hk⟩ := mem_map.1 hmem
  cases hk

theorem servesOnly_startService {service : Service}
    (h : service = .reader s ∨ service = .writer s) (w : World) :
    ServesOnly s w (w.startService service).2 := by
  intro task service' hmem
  obtain hmem | hmem := mem_append.1 hmem
  · exact .inl hmem
  · cases mem_singleton.1 hmem
    exact .inr h

/-! ## Calls -/

@[simp] theorem session_enqueue (e : Wake) (t : Nat) : (w.enqueue e).session t = w.session t := rfl

@[simp] theorem host_wake (task : Nat) : (w.wake task).host = w.host := rfl

section Composes

variable {R : World → World → Prop} {s : Nat} {w : World}

/-- An outcome is kept for a waiter, who is told, or the continuation is put into the queue. -/
theorem Composes.deliver (hR : Composes R) {call : Call} {outcome : Outcome}
    (htell : R w (w.modifyDispatch s fun d => { d with
      outcomes := d.outcomes.set call.id outcome, waiting := d.waiting.erase call.id }))
    (hwake : ∀ w task, R w (w.wake task))
    (henqueue : call.addressee ≠ .waiter → R w (w.enqueue (.settle s call outcome))) :
    R w (w.deliver s call outcome) := by
  unfold World.deliver
  split
  · dsimp only
    split
    · exact hR.refl w
    · split
      · exact hR.trans htell (hwake _ _)
      · exact htell
  · next hwaiter => exact henqueue hwaiter

theorem Composes.deliverAll (hR : Composes R) {settled : List (Call × Outcome)}
    (htell : ∀ w id outcome, R w (w.modifyDispatch s fun d => { d with
      outcomes := d.outcomes.set id outcome, waiting := d.waiting.erase id }))
    (hwake : ∀ w task, R w (w.wake task))
    (henqueue : ∀ p ∈ settled, p.1.addressee ≠ .waiter → ∀ w, R w (w.enqueue (.settle s p.1 p.2)))
    (w : World) : R w (w.deliverAll s settled) := by
  induction settled generalizing w with
  | nil => exact hR.refl w
  | cons p settled ih =>
    refine hR.trans (hR.deliver (htell w _ _) hwake fun hne => henqueue p mem_cons_self hne w) ?_
    exact ih (fun q hq => henqueue q (mem_cons_of_mem p hq)) _

/-- The loops of a session are started unless they are there. -/
theorem Composes.ensureServices (hR : Composes R)
    (hservice : ∀ w service, service = .reader s ∨ service = .writer s →
      R w (w.startService service).2) (hloops : ∀ w (reader writer : Dispatch → Option Nat),
      R w (w.modifyDispatch s fun d => { d with reader := reader d, writer := writer d }))
      (w : World) : R w (w.ensureServices s) := by
  have hwriter : R w (w.ensureWriter s) := by
    unfold ensureWriter
    split
    · exact hR.refl w
    · exact hR.trans (hservice w _ (.inr rfl)) (hloops _ Dispatch.reader fun _ => some _)
  refine hR.trans hwriter ?_
  unfold World.ensureServices ensureReader
  split
  · exact hR.refl _
  · exact hR.trans (hservice _ _ (.inl rfl)) (hloops _ (fun _ => some _) Dispatch.writer)

/-- A call is noted once the loops are there, and the writer is told if it is idle. -/
theorem issue_eq (w : World) (s : Nat) (command : Command) (addressee : Addressee) :
    let d := ((w.ensureServices s).session s).dispatch.issue command addressee
    let w' := (w.ensureServices s).modifyDispatch s fun _ => { d.2 with writerIdle := false }
    (w.issue s command addressee).1 = d.1 ∧ ((w.issue s command addressee).2 = w' ∨
        ∃ task, (w.issue s command addressee).2 = w'.wake task) := by
  unfold World.issue
  dsimp only
  split
  · refine ⟨rfl, ?_⟩
    split
    · exact .inr ⟨_, rfl⟩
    · exact .inl rfl
  · exact ⟨rfl, .inl rfl⟩

theorem Composes.issue (hR : Composes R) {command : Command} {addressee : Addressee}
    (hservices : R w (w.ensureServices s))
    (hissue : ∀ d, d = (((w.ensureServices s).session s).dispatch.issue command addressee).2 →
      R (w.ensureServices s) ((w.ensureServices s).modifyDispatch s
        fun _ => { d with writerIdle := false }))
    (hwake : ∀ w task, R w (w.wake task)) : R w (w.issue s command addressee).2 := by
  have hissued := hR.trans hservices (hissue _ rfl)
  rcases (issue_eq w s command addressee).2 with heq | ⟨task, heq⟩
  · exact heq ▸ hissued
  · exact heq ▸ hR.trans hissued (hwake _ task)

/-- A text is written to a process, and what it does is noted: files are written and read again, and
then it stirs. -/
theorem Composes.transmit (hR : Composes R) {c : Nat} (hsend : ∀ (w : World) reactions sent,
      R w { w with host := { w.host with reactions := reactions, sent := sent } })
    (hplace : ∀ w name bytes, R w (w.placeFile name bytes))
    (hreread : ∀ w name, R w (w.rereadNamed s name)) (hreact : ∀ (w : World) (r : Host.Reaction) id,
      R w ((w.sendReaction c r id).concludeReaction c r)) (w : World)
    (payload : String) : R w (w.transmit s c payload) := by
  have hfiles : ∀ w (r : Host.Reaction), R w (w.updateFiles s r) := by
    intro w r
    refine hR.trans (hR.foldl ?_ w r.files) (hR.foldl (fun w name => hreread w name) _ r.rereads)
    exact fun w f => hplace w f.1 f.2
  obtain ⟨reactions, htake⟩ := w.host.takeReaction_eq (Host.requestTag (payload.toList ++ ['\n']))
  unfold World.transmit
  dsimp only
  rw [htake]
  refine hR.trans (hsend w reactions (w.host.sent ++ [⟨c, String.ofList (Wire.frame payload)⟩])) ?_
  exact hR.trans (hfiles _ _) (hreact _ _ _)

end Composes

variable (w : World)

/-- What dispatchers and the queue have no part in stays as it is when outcomes are told. -/
theorem deliver_feature {g : World → κ} (hdispatch : ∀ w f, g (w.modifyDispatch s f) = g w)
    (hwake : ∀ w task, g (w.wake task) = g w)
    (henqueue : ∀ w e, g (w.enqueue e) = g w) (call : Call)
    (outcome : Outcome) : g (w.deliver s call outcome) = g w :=
  (composes_feature g).deliver (hdispatch w _) hwake fun _ => henqueue w _

theorem deliverAll_feature {g : World → κ} (hdispatch : ∀ w f, g (w.modifyDispatch s f) = g w)
    (hwake : ∀ w task, g (w.wake task) = g w) (henqueue : ∀ w e, g (w.enqueue e) = g w)
    (settled : List (Call × Outcome)) : g (w.deliverAll s settled) = g w :=
  (composes_feature g).deliverAll (fun w _ _ => hdispatch w _) hwake (fun _ _ _ w => henqueue w _) w

/-- What dispatchers and the queue have no part in stays as it is when a call is issued. -/
theorem issue_feature {g : World → κ} (hdispatch : ∀ w f, g (w.modifyDispatch s f) = g w)
    (hservice : ∀ w service, g (w.startService service).2 = g w)
    (hwake : ∀ w task, g (w.wake task) = g w) (w : World)
    (command : Command) (addressee : Addressee) : g (w.issue s command addressee).2 = g w := by
  refine (composes_feature g).issue ?_ (fun _ _ => hdispatch _ _) hwake
  exact (composes_feature g).ensureServices (fun w service _ => hservice w service)
    (fun w _ _ => hdispatch w _) w

/-- Issuing a call changes nothing of a session but its dispatcher. -/
theorem session_issue_feature {g : Session → κ}
    (hg : ∀ session d, g { session with dispatch := d } = g session)
    (w : World) (s t : Nat) (command : Command) (addressee : Addressee) :
    g ((w.issue s command addressee).2.session t) = g (w.session t) :=
  issue_feature (g := fun w => g (w.session t))
    (fun _ _ => session_modifySession_feature g (hg _ _) t)
    (fun _ _ => rfl) (fun _ _ => rfl) w command addressee

/-- Telling outcomes leaves the host and the transports alone. -/
theorem deliverAll_keeps (s : Nat) (settled : List (Call × Outcome)) :
    (w.deliverAll s settled).host = w.host ∧
      ∀ t, ((w.deliverAll s settled).session t).transport = (w.session t).transport :=
  ⟨deliverAll_feature (g := World.host) w (fun _ _ => rfl) (fun _ _ => rfl) (fun _ _ => rfl)
      settled, fun t =>
    deliverAll_feature (g := fun w => (w.session t).transport) w
      (fun w f => transport_modifyDispatch w s t f) (fun _ _ => rfl) (fun _ _ => rfl) settled⟩

end World

end IdeMode
