import IdeMode.Proofs.Client.Undisturbed
import IdeMode.Proofs.Session.Log
set_option autoImplicit false

/-!
# Processes and calls go on

What goes on in the background touches no file and no document. It stays so as long as every pending
call has someone who waits for it and no process writes files, which steps of the background and of
tools keep so.
-/

namespace IdeMode

open List

/-- How a process answers that writes no files. -/
def Host.Reaction.IsTidy (r : Host.Reaction) : Prop := r.files = [] ∧ r.rereads = []

instance (r : Host.Reaction) : Decidable r.IsTidy :=
  inferInstanceAs (Decidable (r.files = [] ∧ r.rereads = []))

namespace World

/-- Time passed, and processes and calls went on. Neither files nor documents changed, nor what is
known of them; no process that has exited came back; and a session has the process that it had, a
new one, or none. -/
structure Drifts (w w' : World) : Prop extends Undisturbed w w' where
  clock_le : w.host.clock ≤ w'.host.clock
  lasts : w.host.Lasts w'.host
  child : ∀ s c, (w'.session s).transport.child = some c → (w.session s).transport.child = some c ∨
      w.host.children.length ≤ c ∧ c < w'.host.children.length

variable {w w' : World} {s : Nat}

theorem Drifts.refl (w : World) : Drifts w w :=
  ⟨.refl w, Int.le_refl _, .refl _, fun _ _ h => .inl h⟩

theorem Drifts.trans {w₁ w₂ w₃ : World} (h : Drifts w₁ w₂) (h' : Drifts w₂ w₃) : Drifts w₁ w₃ := by
  refine ⟨h.toUndisturbed.trans h'.toUndisturbed, Int.le_trans h.clock_le h'.clock_le,
    h.lasts.trans h'.lasts, fun s c hc => ?_⟩
  rcases h'.child s c hc with hc | ⟨hle, hlt⟩
  · rcases h.child s c hc with hc | ⟨hle, hlt⟩
    · exact .inl hc
    · exact .inr ⟨hle, Nat.lt_of_lt_of_le hlt h'.lasts.length_le⟩
  · exact .inr ⟨Nat.le_trans h.lasts.length_le hle, hlt⟩

/-- What touches neither documents nor processes. -/
theorem drifts_of_undisturbed (h : Undisturbed w w') (hclock : w.host.clock ≤ w'.host.clock)
    (hchildren : w'.host.children = w.host.children)
    (hchild : ∀ s, (w'.session s).transport.child = (w.session s).transport.child) : Drifts w w' :=
  ⟨h, hclock, Host.lasts_of_children hchildren, fun s _ hc => .inl ((hchild s).symm.trans hc)⟩

theorem drifts_modifySession {f : Session → Session}
    (hpapers : (f (w.session s)).papers = (w.session s).papers)
    (hchild : (f (w.session s)).transport.child = (w.session s).transport.child) :
    Drifts w (w.modifySession s f) :=
  drifts_of_undisturbed (undisturbed_modifySession hpapers) (Int.le_refl _) rfl
    (session_modifySession_feature (fun session => session.transport.child) hchild)

theorem drifts_modifyDispatch (w : World) (s : Nat) (f : Dispatch → Dispatch) :
    Drifts w (w.modifyDispatch s f) :=
  drifts_modifySession rfl rfl

theorem Stirs.drifts (h : Stirs w w') : Drifts w w' := by
  refine ⟨h.undisturbed, Int.le_of_eq h.clock_eq.symm, h.lasts, fun s c hc => .inl ?_⟩
  rw [World.session, h.sessions_eq] at hc
  exact hc

theorem drifts_deliverAll (w : World) (s : Nat) (settled : List (Call × Outcome)) :
    Drifts w (w.deliverAll s settled) := by
  refine Composes.deliverAll ⟨.refl, .trans⟩ (fun w _ _ => drifts_modifyDispatch w s _)
    (fun w task => (stirs_wake w task).drifts) (fun _ _ _ w => ?_) w
  exact drifts_of_undisturbed (undisturbed_enqueue w _) (Int.le_refl _) rfl fun _ => rfl

theorem drifts_discard (w : World) (s : Nat) : Drifts w (w.discard s) :=
  ((drifts_modifyDispatch w s _).trans (drifts_deliverAll _ s _)).trans
    (stirs_foldl stirs_wake _ _).drifts

/-! ## Issuing -/

theorem drifts_issue (w : World) (s : Nat) (command : Command) (addressee : Addressee) :
    Drifts w (w.issue s command addressee).2 :=
  drifts_of_undisturbed (undisturbed_issue w s command addressee)
    (Int.le_of_eq (issue_feature (g := fun w => w.host.clock) (fun _ _ => rfl) (fun _ _ => rfl)
      (fun _ _ => rfl) w _ _).symm)
    (issue_feature (g := fun w => w.host.children) (fun _ _ => rfl) (fun _ _ => rfl)
      (fun _ _ => rfl) w _ _) fun t =>
      session_issue_feature (g := fun session => session.transport.child) (fun _ _ => rfl) w s t _ _

theorem length_of_isRunning (h : w.isRunning s = true) : s < w.sessions.length := by
  refine Nat.lt_of_not_le fun hle => ?_
  unfold isRunning session at h
  rw [List.getElem?_eq_none hle] at h
  cases h

/-- The call that was issued last is the last of the pending ones. -/
theorem pending_issue (hs : s < w.sessions.length) (command : Command) (addressee : Addressee) :
    ((w.issue s command addressee).2.session s).dispatch.pending.getLast? =
      some (w.issue s command addressee).1 ∧ (w.issue s command addressee).1.command = command := by
  obtain ⟨hissued, haccount, -⟩ := account_issue hs command addressee
  have hpending : ((w.issue s command addressee).2.session s).dispatch.pending =
      (w.account s).calls.pending ++ [⟨(w.account s).calls.nextId, command, addressee⟩] := by
    have hcalls := congrArg (fun a => a.calls.pending) haccount
    rw [hissued] at hcalls
    exact hcalls
  rw [hpending, hissued, List.getLast?_append]
  exact ⟨rfl, rfl⟩

/-! ## Starting -/

theorem drifts_spawn {command : List String} {directory : String}
    {environment : List (String × String)} :
    Drifts w { w with host := (w.host.spawn command directory environment).2 } :=
  ⟨undisturbed_spawn w _ _ _,
    Int.le_of_eq (Host.spawn_feature Host.clock _ (fun _ _ _ => rfl) ..).symm,
    (w.host.spawn_keeps _ _ _).2.1, fun _ _ hc => .inl hc⟩

theorem drifts_started {command : List String} {directory : String}
    {environment : List (String × String)} {c : Nat}
    (h : (w.host.spawn command directory environment).1 = .started c) (s : Nat) :
    Drifts w ({ w with host := (w.host.spawn command directory environment).2 }.modifyTransport s
        fun t =>
      { t with child := some c }) := by
  have hnew : w.host.children.length ≤ c := by
    unfold Host.spawn at h
    dsimp only at h
    split at h
    · cases h
    · split at h
      · cases h
      · cases h
        exact Nat.le_refl _
  refine ⟨(undisturbed_spawn w _ _ _).trans (undisturbed_modifyTransport _ s _),
    drifts_spawn.clock_le, (w.host.spawn_keeps _ _ _).2.1, ?_⟩
  intro t k hk
  rcases child_modifyTransport hk with ⟨-, hk⟩ | ⟨-, hk⟩
  · exact .inl hk
  · obtain rfl := Option.some.inj hk
    exact .inr ⟨hnew, (w.host.spawn_keeps _ _ _).2.2 _ h⟩

/-! ## Order -/

/-- Someone waits for every pending call, no continuation is to run, and no process writes files. -/
structure Orderly (w : World) : Prop where
  waiters : ∀ s, ∀ call ∈ (w.session s).dispatch.pending, call.addressee = .waiter
  queue : ∀ s call outcome, .settle s call outcome ∉ w.ready
  tidy : ∀ tag rs, w.host.reactions.get? tag = some rs → ∀ r ∈ rs, r.IsTidy

/-- A step that keeps order; loops that begin have numbers of their own. -/
structure KeepsOrder (w w' : World) : Prop extends Grows w w' where
  orderly : w.Orderly → w'.Orderly

theorem KeepsOrder.refl (w : World) : KeepsOrder w w := ⟨.refl w, id⟩

theorem KeepsOrder.trans {w₁ w₂ w₃ : World} (h : KeepsOrder w₁ w₂) (h' : KeepsOrder w₂ w₃) :
    KeepsOrder w₁ w₃ :=
  ⟨h.toGrows.trans h'.toGrows, fun horderly => h'.orderly (h.orderly horderly)⟩

/-- The queue, the pending calls and the reactions to come are left alone. -/
theorem keepsOrder_of_parts (hlength : w.sessions.length ≤ w'.sessions.length)
    (hnext : w'.nextTask = w.nextTask) (hready : w'.ready = w.ready)
    (hreactions : w'.host.reactions = w.host.reactions)
    (hpending : ∀ s, ∀ call ∈ (w'.session s).dispatch.pending,
      call ∈ (w.session s).dispatch.pending) : KeepsOrder w w' := by
  refine ⟨grows_of_ready hlength (Nat.le_of_eq hnext.symm) hready, fun h => ⟨?_, ?_, ?_⟩⟩
  · exact fun s call hcall => h.waiters s call (hpending s call hcall)
  · rw [hready]
    exact h.queue
  · rw [hreactions]
    exact h.tidy

theorem keepsOrder_modifyDispatch {f : Dispatch → Dispatch}
    (hf : ∀ call ∈ (f (w.session s).dispatch).pending, call ∈ (w.session s).dispatch.pending) :
    KeepsOrder w (w.modifyDispatch s f) := by
  refine keepsOrder_of_parts (Nat.le_of_eq (length_modifySession w s _).symm) rfl rfl rfl
    fun t call hcall => ?_
  rcases session_modifySession_cases (s := s) w
    (fun session => { session with dispatch := f session.dispatch }) t with
    heq | ⟨⟨rfl, -⟩, heq⟩ <;> rw [modifyDispatch, heq] at hcall
  · exact hcall
  · exact hf call hcall

theorem keepsOrder_modifySession {f : Session → Session}
    (hf : (f (w.session s)).dispatch = (w.session s).dispatch) :
    KeepsOrder w (w.modifySession s f) := by
  refine keepsOrder_of_parts (Nat.le_of_eq (length_modifySession w s f).symm) rfl rfl rfl
    fun t call hcall => ?_
  rwa [session_modifySession_feature Session.dispatch hf] at hcall

theorem keepsOrder_enqueue (w : World) {e : Wake} (hserve : ∀ task service, e ≠ .serve task service)
    (hsettle : ∀ s call outcome, e ≠ .settle s call outcome) : KeepsOrder w (w.enqueue e) := by
  refine ⟨grows_enqueue hserve, fun h => ⟨h.waiters, fun s call outcome hmem => ?_, h.tidy⟩⟩
  rcases mem_append.1 hmem with hmem | hmem
  · exact h.queue s call outcome hmem
  · exact hsettle s call outcome (mem_singleton.1 hmem).symm

theorem Stirs.keepsOrder (hstirs : Stirs w w') : KeepsOrder w w' := by
  refine ⟨hstirs.grows, fun h => ⟨fun s call hcall => ?_, fun s call outcome hmem => ?_, ?_⟩⟩
  · rw [World.session, hstirs.sessions_eq] at hcall
    exact h.waiters s call hcall
  · obtain ⟨told, hready⟩ := hstirs.ready_eq
    rw [hready] at hmem
    rcases mem_append.1 hmem with hmem | hmem
    · exact h.queue s call outcome hmem
    · obtain ⟨task, -, heq⟩ := mem_map.1 hmem
      cases heq
  · rw [hstirs.reactions_eq]
    exact h.tidy

/-- Outcomes are told to those who wait. -/
theorem keepsOrder_deliverAll {settled : List (Call × Outcome)}
    (hsettled : ∀ p ∈ settled, p.1.addressee = .waiter)
    (w : World) (s : Nat) : KeepsOrder w (w.deliverAll s settled) :=
  Composes.deliverAll ⟨.refl, .trans⟩ (fun _ _ _ => keepsOrder_modifyDispatch fun _ hcall => hcall)
    (fun w task => (stirs_wake w task).keepsOrder) (fun p hp hne => absurd (hsettled p hp) hne) w

theorem keepsOrder_discard (w : World) (s : Nat) : KeepsOrder w (w.discard s) := by
  have hdropped : KeepsOrder w (w.modifyDispatch s fun _ => (w.session s).dispatch.discard.2) :=
    keepsOrder_modifyDispatch fun _ hcall => nomatch hcall
  refine (hdropped.trans (keepsOrder_deliverAll (fun p hp => ?_) _ s)).trans
    (stirs_foldl stirs_wake _ _).keepsOrder
  obtain ⟨call, hcall, rfl⟩ := mem_map.1 hp
  have hwaiter := (mem_filter.1 hcall).2
  unfold Call.hasContinuation at hwaiter
  split at hwaiter
  · assumption
  · cases hwaiter

theorem keepsOrder_startService (w : World) (service : Service) :
    KeepsOrder w (w.startService service).2 := by
  refine ⟨grows_startService w service, fun h => ⟨h.waiters, fun s call outcome hmem => ?_, h.tidy⟩⟩
  rcases mem_append.1 hmem with hmem | hmem
  · exact h.queue s call outcome hmem
  · cases mem_singleton.1 hmem

/-- Someone waits for the call that is issued. -/
theorem keepsOrder_issue (w : World) (s : Nat) (command : Command) :
    KeepsOrder w (w.issue s command .waiter).2 := by
  have hissued : ∀ (w : World) {d : Dispatch}, d.pending = (w.session s).dispatch.pending ++
      [⟨(w.session s).dispatch.nextId, command, .waiter⟩] →
      KeepsOrder w (w.modifyDispatch s fun _ => d) := by
    intro w d hd
    refine ⟨grows_modifySession w s _, fun h => ⟨fun t call hcall => ?_, h.queue, h.tidy⟩⟩
    rcases session_modifySession_cases (s := s) w
      (fun session => { session with dispatch := d }) t with heq | ⟨⟨rfl, -⟩, heq⟩
    · rw [modifyDispatch, heq] at hcall
      exact h.waiters t call hcall
    · rw [modifyDispatch, heq, hd] at hcall
      rcases mem_append.1 hcall with hcall | hcall
      · exact h.waiters s call hcall
      · obtain rfl := mem_singleton.1 hcall
        rfl
  have hcomposes : Composes KeepsOrder := ⟨.refl, .trans⟩
  refine hcomposes.issue ?_ (fun d hd => hissued _ (hd ▸ rfl))
    fun w task => (stirs_wake w task).keepsOrder
  exact hcomposes.ensureServices (fun w service _ => keepsOrder_startService w service)
    (fun _ _ _ => keepsOrder_modifyDispatch fun _ hcall => hcall) w

theorem keepsOrder_spawn (w : World) (command : List String) (directory : String)
    (environment : List (String × String)) :
    KeepsOrder w { w with host := (w.host.spawn command directory environment).2 } :=
  keepsOrder_of_parts (Nat.le_refl _) rfl rfl
    (Host.spawn_feature Host.reactions _ (fun _ _ _ => rfl) ..) fun _ _ hcall => hcall

theorem keepsOrder_loadFault (w : World) (s : Nat) (p : Path) (f : Fault) :
    KeepsOrder w (w.loadFault s p f).2 := by
  unfold loadFault
  split
  · exact keepsOrder_of_parts (Nat.le_refl _) rfl rfl rfl fun _ _ hcall => hcall
  · exact .refl w

end World

end IdeMode
